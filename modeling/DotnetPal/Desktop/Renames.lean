import DotnetPal.Desktop.Watches

/-!
# Pairing the halves of renames

Of the nodes with one identity, the first that went takes the last that came. Pairing takes all
it can: where it leaves a half that went, no half that came is left for it, so pairing again
changes nothing.
-/

open Std List

namespace DotnetPal.Desktop

open KeyedList

/-- What makes two halves those of one rename. -/
def Meta.key (info : Meta) : Option (Identity × Bool) := info.identity.map (·, info.directory)

/-! ## One directory -/

section PairWent

variable {list : List Went} {ws : List Arrival}

/-- The first entry takes the last arrival of its node, or is kept as it is. -/
theorem pairWent_cons (first : Went) (rest : List Went) (ws : List Arrival) :
    (∃ key a, first.half = none ∧ first.info.key = some key ∧ find Prod.fst key ws = some a ∧
      pairWent (first :: rest) ws =
        ({ first with half := some a.2 } :: (pairWent rest (remove Prod.fst key ws)).1,
          (pairWent rest (remove Prod.fst key ws)).2)) ∨
      ((first.half = none → ∀ key, first.info.key = some key → find Prod.fst key ws = none) ∧
        pairWent (first :: rest) ws = (first :: (pairWent rest ws).1, (pairWent rest ws).2)) := by
  cases hhalf : first.half with
  | some p => exact .inr ⟨fun h ↦ (Option.some_ne_none _ h).elim, by simp only [pairWent, hhalf]⟩
  | none =>
    cases hidentity : first.info.identity with
    | none =>
      exact .inr ⟨fun _ key hkey ↦ by simp [Meta.key, hidentity] at hkey,
        by simp only [pairWent, hhalf, hidentity, Option.bind_none]⟩
    | some identity =>
      have hkey : first.info.key = some (identity, first.info.directory) := by simp [Meta.key, hidentity]
      cases hfind : find Prod.fst (identity, first.info.directory) ws with
      | none =>
        refine .inr ⟨fun _ key hj ↦ ?_, by simp only [pairWent, hhalf, hidentity, Option.bind_some, hfind]⟩
        rwa [← Option.some.inj (hkey.symm.trans hj)]
      | some a =>
        have ha : a.1 = (identity, first.info.directory) := by simpa using find?_some hfind
        exact .inl
          ⟨_, a, rfl, hkey, hfind, by simp only [pairWent, hhalf, hidentity, Option.bind_some, hfind, ha]⟩

/-- The entries that went with one identity take the arrivals with it, one after the other. -/
theorem mem_pairWent_iff (hfresh : ∀ went ∈ list, went.half = none) (ws : List Arrival)
    (name : Name) (p : ℕ × ℕ) :
    (∃ went ∈ (pairWent list ws).1, went.name = name ∧ went.half = some p) ↔
      ∃ key, (name, p) ∈ ((list.filter (·.info.key = some key)).map (·.name)).zip
        ((ws.filter (·.1 = key)).map Prod.snd) := by
  induction list generalizing ws with
  | nil => simp [pairWent]
  | cons first rest ih =>
    have hhalf := hfresh first mem_cons_self
    have hrest := fun ws ↦ ih (fun went hwent ↦ hfresh went (mem_cons_of_mem _ hwent)) ws
    rcases pairWent_cons first rest ws with ⟨key, a, _, hkey, hfind, heq⟩ | ⟨hkept, heq⟩
    · rw [heq]
      have hj : ∀ j, j ≠ key → (first :: rest).filter (·.info.key = some j) =
        rest.filter (·.info.key = some j) :=
        fun j hne ↦ filter_cons_of_neg (by simpa [hkey] using hne.symm)
      have hsame : (first :: rest).filter (·.info.key = some key) =
        first :: rest.filter (·.info.key = some key) :=
        filter_cons_of_pos (by simpa using hkey)
      have hmem : (∃ went ∈ { first with half := some a.2 } :: (pairWent rest (remove Prod.fst key ws)).1,
            went.name = name ∧ went.half = some p) ↔
          (first.name = name ∧ a.2 = p) ∨ ∃ went ∈ (pairWent rest (remove Prod.fst key ws)).1,
            went.name = name ∧ went.half = some p := by
        simp
      rw [hmem, hrest]
      constructor
      · rintro (⟨rfl, rfl⟩ | ⟨j, hzip⟩)
        · refine ⟨key, ?_⟩
          rw [hsame, filter_of_find hfind]
          exact mem_cons_self
        · refine ⟨j, ?_⟩
          by_cases heq : j = key
          · subst heq
            rw [hsame, filter_of_find hfind]
            exact mem_cons_of_mem _ hzip
          · rwa [hj j heq, ← filter_remove_of_ne heq]
      · rintro ⟨j, hzip⟩
        by_cases heq : j = key
        · subst heq
          rw [hsame, filter_of_find hfind, map_cons, map_cons, zip_cons_cons, mem_cons] at hzip
          rcases hzip with hhead | htail
          · rw [Prod.mk.injEq] at hhead
            exact .inl ⟨hhead.1.symm, hhead.2.symm⟩
          · exact .inr ⟨j, htail⟩
        · rw [hj j heq, ← filter_remove_of_ne heq] at hzip
          exact .inr ⟨j, hzip⟩
    · rw [heq]
      have hmem : (∃ went ∈ first :: (pairWent rest ws).1, went.name = name ∧ went.half = some p) ↔
          ∃ went ∈ (pairWent rest ws).1, went.name = name ∧ went.half = some p := by
        simp [hhalf]
      rw [hmem, hrest]
      refine exists_congr fun key ↦ ?_
      by_cases hkey : first.info.key = some key
      · -- No arrival is left for this identity, neither before nor after.
        have hnone : ws.filter (·.1 = key) = [] := by
          simpa [filter_eq_nil_iff] using find_eq_none_iff.mp (hkept hhalf key hkey)
        rw [hnone]
        simp
      · rw [filter_cons_of_neg (by simpa using hkey)]

/-- The places taken and those of the arrivals that wait are the same before and after. -/
theorem perm_pairWent (list : List Went) (ws : List Arrival) :
    (list.filterMap (·.half) ++ ws.map Prod.snd).Perm
      ((pairWent list ws).1.filterMap (·.half) ++ (pairWent list ws).2.map Prod.snd) := by
  induction list generalizing ws with
  | nil => exact List.Perm.refl _
  | cons first rest ih =>
    rcases pairWent_cons first rest ws with ⟨key, a, hhalf, _, hfind, heq⟩ | ⟨_, heq⟩
    · rw [heq, filterMap_cons_none hhalf]
      refine (((perm_of_find hfind).map Prod.snd).append_left _).trans (perm_middle.trans ?_)
      exact (ih _).cons a.2
    · rw [heq]
      cases hhalf : first.half with
      | none =>
        rw [filterMap_cons_none hhalf, filterMap_cons_none hhalf]
        exact ih ws
      | some p =>
        rw [filterMap_cons_some hhalf, filterMap_cons_some hhalf]
        exact (ih ws).cons p

/-- Every entry is as it was, or had no half and has taken an arrival of its node. -/
theorem getElem?_pairWent (list : List Went) (ws : List Arrival) (g : ℕ) :
    (pairWent list ws).1[g]? = list[g]? ∨ ∃ old a, list[g]? = some old ∧ old.half = none ∧ a ∈ ws ∧
      old.info.key = some a.1 ∧ (pairWent list ws).1[g]? = some { old with half := some a.2 } := by
  induction list generalizing ws g with
  | nil => exact .inl rfl
  | cons first rest ih =>
    rcases pairWent_cons first rest ws with ⟨key, a, hhalf, hkey, hfind, heq⟩ | ⟨_, heq⟩ <;> rw [heq]
    · cases g with
      | zero =>
        have harrival : a.1 = key := by simpa using find?_some hfind
        exact .inr ⟨first, a, rfl, hhalf, mem_of_find?_eq_some hfind, harrival ▸ hkey, rfl⟩
      | succ g =>
        refine (ih _ g).imp_right fun ⟨old, j, hold, hnone, hj, hrest⟩ ↦ ?_
        exact ⟨old, j, hold, hnone, eraseP_subset hj, hrest⟩
    · cases g with
      | zero => exact .inl rfl
      | succ g => exact ih ws g

/-- Nothing is left for an entry that is left. -/
theorem left_pairWent (list : List Went) (ws : List Arrival) : (pairWent list ws).2 ⊆ ws ∧
      ∀ went ∈ (pairWent list ws).1, went.half = none → ∀ key, went.info.key = some key →
        ∀ a ∈ (pairWent list ws).2, a.1 ≠ key := by
  induction list generalizing ws with
  | nil => exact ⟨fun _ h ↦ h, fun went hwent ↦ absurd hwent not_mem_nil⟩
  | cons first rest ih =>
    rcases pairWent_cons first rest ws with ⟨key, a, hhalf, hkey, hfind, heq⟩ | ⟨hkept, heq⟩ <;> rw [heq]
    · obtain ⟨hsub, hleft⟩ := ih (remove Prod.fst key ws)
      refine ⟨fun j hj ↦ eraseP_subset (hsub hj), fun went hwent hnone ↦ ?_⟩
      rcases mem_cons.mp hwent with rfl | hj
      · cases hnone
      · exact hleft went hj hnone
    · obtain ⟨hsub, hleft⟩ := ih ws
      refine ⟨hsub, fun went hwent hnone ↦ ?_⟩
      rcases mem_cons.mp hwent with rfl | hj
      · exact fun key hkey a harrival ↦
          find_eq_none_iff.mp (hkept hnone key hkey) a (hsub harrival)
      · exact hleft went hj hnone

theorem pairWent_eq_self
    (hleft : ∀ went ∈ list, went.half = none → ∀ key, went.info.key = some key → ∀ a ∈ ws, a.1 ≠ key) :
    pairWent list ws = (list, ws) := by
  induction list with
  | nil => rfl
  | cons first rest ih =>
    rcases pairWent_cons first rest ws with ⟨key, a, hhalf, hkey, hfind, _⟩ | ⟨_, heq⟩
    · have hnone := find_eq_none_iff.mpr (hleft first mem_cons_self hhalf key hkey)
      cases hnone.symm.trans hfind
    · rw [heq, ih fun went hwent ↦ hleft went (mem_cons_of_mem _ hwent)]

end PairWent

/-! ## All directories -/

/-- No half is left for a half that is left. -/
def Settled (diffs : List Difference) : Prop :=
  ∀ diff ∈ diffs, ∀ went ∈ diff.went, went.half = none → ∀ key, went.info.key = some key →
    ∀ other ∈ diffs, ∀ came ∈ other.came, came.renamed = false → came.info.key ≠ some key

section Settled

variable {diffs : List Difference}

theorem mem_arrivals {a : Arrival} : a ∈ arrivals diffs ↔ ∃ diff, diffs[a.2.1]? = some diff ∧
      ∃ came, diff.came[a.2.2]? = some came ∧ came.info.key = some a.1 ∧ came.renamed = false := by
  simp only [arrivals, mem_reverse, mem_flatMap, mem_filterMap, Prod.exists, mem_zipIdx_iff_getElem?]
  constructor
  · rintro ⟨diff, d, hdiff, came, c, hcame, harrival⟩
    split at harrival
    · next identity hidentity hrenamed =>
      obtain rfl := Option.some.inj harrival
      exact ⟨diff, hdiff, came, hcame, by simp [Meta.key, hidentity], hrenamed⟩
    · cases harrival
  · rintro ⟨diff, hdiff, came, hcame, hkey, hrenamed⟩
    obtain ⟨identity, hidentity, hpair⟩ := Option.map_eq_some_iff.mp hkey
    refine ⟨diff, a.2.1, hdiff, came, a.2.2, hcame, ?_⟩
    rw [hidentity, hrenamed]
    exact congrArg some (Prod.ext hpair rfl)

theorem left_pairDifferences (list : List Difference) (ws : List Arrival) :
    (pairDifferences list ws).2 ⊆ ws ∧
      ∀ diff ∈ (pairDifferences list ws).1, ∀ went ∈ diff.went, went.half = none →
        ∀ key, went.info.key = some key → ∀ a ∈ (pairDifferences list ws).2, a.1 ≠ key := by
  induction list generalizing ws with
  | nil => exact ⟨fun _ h ↦ h, fun diff hmem ↦ absurd hmem not_mem_nil⟩
  | cons first rest ih =>
    obtain ⟨hsub, hleft⟩ := left_pairWent first.went ws
    obtain ⟨hsubs, hlefts⟩ := ih (pairWent first.went ws).2
    rw [pairDifferences]
    refine ⟨fun a harrival ↦ hsub (hsubs harrival), fun diff hmem ↦ ?_⟩
    rcases mem_cons.mp hmem with rfl | hj
    · exact fun went hwent hnone key hkey a harrival ↦ hleft went hwent hnone key hkey a (hsubs harrival)
    · exact hlefts diff hj

theorem pairDifferences_eq_self {ws : List Arrival}
    (hleft : ∀ diff ∈ diffs, ∀ went ∈ diff.went, went.half = none → ∀ key, went.info.key = some key →
      ∀ a ∈ ws, a.1 ≠ key) : pairDifferences diffs ws = (diffs, ws) := by
  induction diffs with
  | nil => rfl
  | cons first rest ih =>
    rw [pairDifferences, pairWent_eq_self (hleft first mem_cons_self)]
    simp only [ih fun diff hmem ↦ hleft diff (mem_cons_of_mem _ hmem)]

/-- Pairing again changes nothing. -/
theorem Settled.pair_eq (h : Settled diffs) : pair diffs = diffs := by
  have hpaired : pairDifferences diffs (arrivals diffs) = (diffs, arrivals diffs) := by
    refine pairDifferences_eq_self fun diff hmem went hwent hnone key hkey a harrival heq ↦ ?_
    obtain ⟨j, hj, came, hcame, hcameKey, hrenamed⟩ := mem_arrivals.mp harrival
    exact h diff hmem went hwent hnone key hkey j (mem_of_getElem? hj) came (mem_of_getElem? hcame) hrenamed
      (hcameKey.trans (congrArg some heq))
  have hcame : ∀ list : List Came,
    (list.mapIdx fun _ came ↦ (⟨came.name, came.info, came.renamed⟩ : Came)) = list :=
    fun list ↦ mapIdx_eq_iff.mpr fun c ↦ by simp
  simp only [pair, hpaired, markRenamed, Bool.and_not_self, Bool.or_false, hcame]
  exact mapIdx_eq_iff.mpr fun d ↦ by simp

theorem getElem?_pairDifferences (list : List Difference) (ws : List Arrival) (d : ℕ) :
    ∃ remaining, remaining ⊆ ws ∧ (pairDifferences list ws).1[d]? =
      list[d]?.map fun old ↦ { old with went := (pairWent old.went remaining).1 } := by
  induction list generalizing ws d with
  | nil => exact ⟨ws, fun _ h ↦ h, rfl⟩
  | cons first rest ih =>
    cases d with
    | zero => exact ⟨ws, fun _ h ↦ h, rfl⟩
    | succ d =>
      obtain ⟨remaining, hsub, heq⟩ := ih (pairWent first.went ws).2 d
      exact ⟨remaining, fun _ h ↦ (left_pairWent first.went ws).1 (hsub h), heq⟩

/-- The arrivals that are left. -/
def leftOver (diffs : List Difference) : List Arrival := (pairDifferences diffs (arrivals diffs)).2

theorem getElem?_pair (diffs : List Difference) (d : ℕ) :
    ∃ remaining, remaining ⊆ arrivals diffs ∧ (pair diffs)[d]? = diffs[d]?.map fun old ↦ { old with
      went := (pairWent old.went remaining).1
      came := old.came.mapIdx fun c came ↦ { came with
        renamed := came.renamed ||
          ((arrivals diffs).any (·.2 = (d, c)) && !(leftOver diffs).any (·.2 = (d, c))) } } := by
  obtain ⟨remaining, hsub, heq⟩ := getElem?_pairDifferences diffs (arrivals diffs) d
  refine ⟨remaining, hsub, ?_⟩
  simp only [pair, markRenamed, getElem?_mapIdx, heq, Option.map_map]
  rfl

theorem settled_pair (diffs : List Difference) : Settled (pair diffs) := by
  intro diff hmem went hwent hnone key hkey j hj came hcame hrenamed hsame
  obtain ⟨hsub, hleft⟩ := left_pairDifferences diffs (arrivals diffs)
  obtain ⟨d, hd⟩ := mem_iff_getElem?.mp hmem
  obtain ⟨e, he⟩ := mem_iff_getElem?.mp hj
  simp only [pair, markRenamed, getElem?_mapIdx, Option.map_eq_some_iff] at hd
  obtain ⟨paired, hpaired, rfl⟩ := hd
  obtain ⟨_, _, heq⟩ := getElem?_pair diffs e
  rw [he] at heq
  obtain ⟨old, hold, rfl⟩ := Option.map_eq_some_iff.mp heq.symm
  obtain ⟨c, hc⟩ := mem_iff_getElem?.mp hcame
  simp only [getElem?_mapIdx, Option.map_eq_some_iff] at hc
  obtain ⟨arrived, harrived, rfl⟩ := hc
  obtain ⟨hunmarked, htaken⟩ := Bool.or_eq_false_iff.mp hrenamed
  -- The half that came waited for its other half, and nothing took it.
  have hwaited : (key, (e, c)) ∈ arrivals diffs :=
    mem_arrivals.mpr ⟨old, hold, arrived, harrived, hsame, hunmarked⟩
  have hany : (arrivals diffs).any (fun a ↦ a.2 = (e, c)) = true := any_eq_true.mpr ⟨_, hwaited, by simp⟩
  rw [hany, Bool.true_and, Bool.not_eq_false'] at htaken
  obtain ⟨a, harrival, hp⟩ := any_eq_true.mp htaken
  obtain ⟨x, hx, half, hhalf, hfoundKey, _⟩ := mem_arrivals.mp (hsub harrival)
  rw [of_decide_eq_true hp] at hx hhalf
  obtain rfl : old = x := Option.some.inj (hold.symm.trans hx)
  obtain rfl : arrived = half := Option.some.inj (harrived.symm.trans hhalf)
  refine hleft paired (mem_of_getElem? hpaired) went hwent hnone key hkey a harrival ?_
  exact Option.some.inj (hfoundKey.symm.trans hsame)

/-- No two arrivals are at one place. -/
theorem nodup_arrivals (diffs : List Difference) : ((arrivals diffs).map Prod.snd).Nodup := by
  have hindices {α : Type} (list : List α) : list.zipIdx.Pairwise fun first b ↦ first.2 ≠ b.2 := by
    rw [← pairwise_map (f := Prod.snd), zipIdx_map_snd]
    exact nodup_range'
  rw [arrivals, map_reverse, nodup_reverse, map_flatMap, nodup_flatMap]
  refine ⟨fun e _ ↦ ?_, (hindices diffs).imp fun hne ↦ ?_⟩
  · rw [List.Nodup, pairwise_map, pairwise_filterMap]
    refine (hindices _).imp fun hne first ha b hb heq ↦ hne ?_
    dsimp only at ha hb
    split at ha <;> cases ha
    split at hb <;> cases hb
    exact (Prod.mk.inj heq).2
  · simp only [disjoint_left, mem_map, mem_filterMap]
    rintro p ⟨_, ⟨_, _, ha⟩, rfl⟩ ⟨_, ⟨_, _, hb⟩, heq⟩
    split at ha <;> cases ha
    split at hb <;> cases hb
    exact hne (Prod.mk.inj heq).1.symm

end Settled

/-! ## Where one directory differs -/

/-- Nothing went and nothing came. -/
def Idle (diff : Difference) : Prop := diff.went = [] ∧ diff.came = []

section Single

variable {first later : List Difference} {diff : Difference}

theorem pairDifferences_single (ha : ∀ j ∈ first, Idle j) (hlater : ∀ j ∈ later, Idle j)
    (ws : List Arrival) :
    pairDifferences (first ++ diff :: later) ws =
      (first ++ { diff with went := (pairWent diff.went ws).1 } :: later, (pairWent diff.went ws).2) := by
  induction first with
  | nil =>
    have hidle : pairDifferences later (pairWent diff.went ws).2 = (later, (pairWent diff.went ws).2) :=
      pairDifferences_eq_self fun j hj went hwent ↦ by rw [(hlater j hj).1] at hwent; cases hwent
    simp only [nil_append, pairDifferences, hidle]
  | cons j rest ih =>
    have hnone := (ha j mem_cons_self).1
    rw [cons_append, pairDifferences, hnone, pairWent]
    simp only [ih fun next hnext ↦ ha next (mem_cons_of_mem _ hnext), cons_append]
    rw [← hnone]

/-- The arrivals of one directory. -/
def arrivalsAt (d : ℕ) (came : List Came) : List Arrival :=
  (came.zipIdx.filterMap fun (came, c) ↦ came.info.key.map (·, (d, c))).reverse

theorem arrivals_single (ha : ∀ j ∈ first, Idle j) (hlater : ∀ j ∈ later, Idle j)
    (hfresh : ∀ came ∈ diff.came, came.renamed = false) :
    arrivals (first ++ diff :: later) = arrivalsAt first.length diff.came := by
  have hidle : ∀ {each : Difference × ℕ → List Arrival} (list : List Difference) (start : ℕ),
    (∀ j ∈ list, Idle j) →
      (∀ e, e.1.came = [] → each e = []) → (list.zipIdx start).flatMap each = [] :=
    fun list start hlist heach ↦ flatMap_eq_nil_iff.mpr fun e he ↦
      heach e (hlist e.1 (fst_mem_of_mem_zipIdx he)).2
  rw [arrivals, zipIdx_append, flatMap_append, hidle first 0 ha, zipIdx_cons, flatMap_cons,
    hidle later _ hlater, nil_append, append_nil, arrivalsAt]
  · congr 1
    refine filterMap_congr fun e he ↦ ?_
    have hrenamed := hfresh e.1 (fst_mem_of_mem_zipIdx he)
    simp only [hrenamed, Meta.key, Option.map_map, Nat.zero_add]
    cases e.1.info.identity <;> rfl
  all_goals
    intro e hnone
    simp [hnone]

/-- Pairing where one directory differs. -/
theorem pair_single (ha : ∀ j ∈ first, Idle j) (hlater : ∀ j ∈ later, Idle j)
    (hwent : ∀ went ∈ diff.went, went.half = none) (hcame : ∀ came ∈ diff.came, came.renamed = false) :
    pair (first ++ diff :: later) = first ++ { diff with
      went := (pairWent diff.went (arrivalsAt first.length diff.came)).1
      came := diff.came.mapIdx fun c came ↦ { came with
        renamed := (pairWent diff.went (arrivalsAt first.length diff.came)).1.any
          (·.half = some (first.length, c)) } } ::
      later := by
  have hkept : ∀ (i : ℕ → ℕ) (old left : List Arrival) (list : List Difference), (∀ j ∈ list, Idle j) →
      (list.mapIdx fun d (diff : Difference) ↦ { diff with
        came := diff.came.mapIdx fun c came ↦ { came with
          renamed := came.renamed || (old.any (·.2 = (i d, c)) && !left.any (·.2 = (i d, c))) } }) =
            list := by
    intro i old left list hlist
    refine mapIdx_eq_iff.mpr fun d ↦ ?_
    cases hd : list[d]? with
    | none => rfl
    | some j =>
      have hnone := (hlist j (mem_of_getElem? hd)).2
      simp only [Option.map_some, hnone, mapIdx_nil]
      rw [← hnone]
  generalize hwaiting : arrivalsAt first.length diff.came = ws
  have harrivals : arrivals (first ++ diff :: later) = ws :=
    (arrivals_single ha hlater hcame).trans hwaiting
  simp only [pair, harrivals, pairDifferences_single ha hlater, markRenamed, mapIdx_append, mapIdx_cons]
  refine congrArg₂ List.append (hkept _ _ _ first ha) (congrArg₂ List.cons ?_ (hkept _ _ _ later hlater))
  congr 1
  refine ext_getElem? fun c ↦ ?_
  simp only [getElem?_mapIdx, Nat.zero_add]
  cases hc : diff.came[c]? with
  | none => rfl
  | some came =>
    simp only [Option.map_some, hcame came (mem_of_getElem? hc), Bool.false_or]
    have hperm := perm_pairWent diff.went ws
    rw [filterMap_eq_nil_iff.mpr hwent, nil_append] at hperm
    have hdisjoint := (nodup_append.mp (hperm.nodup_iff.mp (harrivals ▸ nodup_arrivals _))).2.2
    -- What waited is taken or left, and not both.
    have hsplit : (first.length, c) ∈ ws.map Prod.snd ↔
        (first.length, c) ∈ (pairWent diff.went ws).1.filterMap (·.half) ∨
          (first.length, c) ∈ (pairWent diff.went ws).2.map Prod.snd := by
      rw [hperm.mem_iff, mem_append]
    have hany : ∀ list : List Arrival, (list.any fun a ↦ a.2 = (first.length, c)) = true ↔
        (first.length, c) ∈ list.map Prod.snd := by
      intro list
      simp
    have htaken : ((pairWent diff.went ws).1.any fun went ↦ went.half = some (first.length, c)) = true ↔
        (first.length, c) ∈ (pairWent diff.went ws).1.filterMap (·.half) := by
      simp
    refine congrArg some (congrArg (Came.mk came.name came.info) ?_)
    rw [Bool.eq_iff_iff, Bool.and_eq_true, Bool.not_eq_true', ← Bool.not_eq_true, hany, hany,
      htaken, hsplit]
    constructor
    · rintro ⟨htake | hleft, hnot⟩
      · exact htake
      · exact absurd hleft hnot
    · exact fun htake ↦ ⟨.inl htake, fun hleft ↦ hdisjoint _ htake _ hleft rfl⟩

/-- The entries that came with one identity, the last first, each with its place. -/
def comers (key : Identity × Bool) (came : List Came) : List (Came × ℕ) :=
  (came.zipIdx.filter fun entry ↦ entry.1.info.key = some key).reverse

theorem filter_arrivalsAt (d : ℕ) (came : List Came) (key : Identity × Bool) :
    ((arrivalsAt d came).filter (·.1 = key)).map Prod.snd = (comers key came).map fun e ↦ (d, e.2) := by
  have hlist : ∀ list : List (Came × ℕ),
      ((list.filterMap fun (came, c) ↦ came.info.key.map (·, (d, c))).filter
        (fun a ↦ a.1 = key)).map Prod.snd =
        (list.filter fun e ↦ e.1.info.key = some key).map fun e ↦ (d, e.2) := by
    intro list
    induction list with
    | nil => rfl
    | cons e rest ih =>
      cases hkey : e.1.info.key with
      | none =>
        rw [filterMap_cons_none (by simp [hkey]), filter_cons_of_neg (by simp [hkey])]
        exact ih
      | some j =>
        rw [filterMap_cons_some (b := (j, (d, e.2))) (by simp [hkey])]
        by_cases heq : j = key
        · rw [filter_cons_of_pos (by simpa using heq),
            filter_cons_of_pos (by simpa [hkey] using heq), map_cons,
            map_cons, ih]
        · rw [filter_cons_of_neg (by simpa using heq), filter_cons_of_neg (by simpa [hkey] using heq), ih]
  rw [arrivalsAt, comers, filter_reverse, map_reverse, map_reverse, hlist]

theorem names_comers (key : Identity × Bool) (came : List Came) :
    (comers key came).map (·.1.name) = ((came.filter (·.info.key = some key)).map (·.name)).reverse := by
  have hlist : ∀ (list : List Came) (start : ℕ),
    ((list.zipIdx start).filter fun e ↦ e.1.info.key = some key).map (·.1.name) =
      (list.filter (·.info.key = some key)).map (·.name) := by
    intro list
    induction list with
    | nil => exact fun _ ↦ rfl
    | cons first rest ih =>
      intro start
      rw [zipIdx_cons, filter_cons, filter_cons]
      split_ifs
      · rw [map_cons, map_cons, ih]
      · exact ih _
  rw [comers, map_reverse, hlist]

/-- Which entries are the two halves of a rename. -/
theorem renamed_iff {list : List Went} {came : List Came} {d : ℕ}
    (hfresh : ∀ went ∈ list, went.half = none) (source target : Name) :
    (∃ went ∈ (pairWent list (arrivalsAt d came)).1, went.name = source ∧
        ∃ c j, went.half = some (d, c) ∧ came[c]? = some j ∧ j.name = target) ↔
      ∃ key, (source, target) ∈ ((list.filter (·.info.key = some key)).map (·.name)).zip
        ((came.filter (·.info.key = some key)).map (·.name)).reverse := by
  have hplaces : ∀ key c, (source, (d, c)) ∈ ((list.filter (·.info.key = some key)).map (·.name)).zip
        (((arrivalsAt d came).filter (·.1 = key)).map Prod.snd) ↔
      ∃ j, (source, (j, c)) ∈ ((list.filter (·.info.key = some key)).map (·.name)).zip
        (comers key came) := by
    intro key c
    rw [filter_arrivalsAt, zip_map_right]
    simp
  have hcomer : ∀ {key : Identity × Bool} {e : Came × ℕ}, e ∈ comers key came → came[e.2]? = some e.1 := by
    intro key e hmem
    exact mem_zipIdx_iff_getElem?.mp (mem_filter.mp (mem_reverse.mp hmem)).1
  constructor
  · rintro ⟨went, hwent, hname, c, j, hhalf, hj, rfl⟩
    obtain ⟨key, hzip⟩ := (mem_pairWent_iff hfresh _ source (d, c)).mp ⟨went, hwent, hname, hhalf⟩
    obtain ⟨x, hx⟩ := (hplaces key c).mp hzip
    obtain rfl : j = x := Option.some.inj (hj.symm.trans (hcomer (of_mem_zip hx).2))
    refine ⟨key, ?_⟩
    rw [← names_comers, zip_map_right]
    exact mem_map.mpr ⟨_, hx, rfl⟩
  · rintro ⟨key, hzip⟩
    rw [← names_comers, zip_map_right] at hzip
    obtain ⟨⟨first, j, c⟩, hmem, heq⟩ := mem_map.mp hzip
    obtain ⟨rfl, rfl⟩ := Prod.mk.inj heq
    obtain ⟨went, hwent, hname, hhalf⟩ :=
      (mem_pairWent_iff hfresh _ first (d, c)).mpr ⟨key, (hplaces key c).mpr ⟨j, hmem⟩⟩
    exact ⟨went, hwent, hname, c, j, hhalf, hcomer (of_mem_zip hmem).2, rfl⟩

/-- The second half of a rename is an entry that came. -/
theorem half_of_pairWent {list : List Went} {came : List Came} {d : ℕ}
    (hfresh : ∀ went ∈ list, went.half = none) {went : Went}
    (hwent : went ∈ (pairWent list (arrivalsAt d came)).1) {p : ℕ × ℕ} (hhalf : went.half = some p) :
    ∃ j, p.1 = d ∧ came[p.2]? = some j := by
  obtain ⟨key, hzip⟩ := (mem_pairWent_iff hfresh _ went.name p).mp ⟨went, hwent, rfl, hhalf⟩
  have hp := (of_mem_zip hzip).2
  rw [filter_arrivalsAt] at hp
  obtain ⟨e, he, rfl⟩ := mem_map.mp hp
  exact ⟨e.1, rfl, mem_zipIdx_iff_getElem?.mp (mem_filter.mp (mem_reverse.mp he)).1⟩

end Single

end DotnetPal.Desktop
