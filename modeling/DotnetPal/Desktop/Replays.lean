import DotnetPal.Desktop.Departures
import DotnetPal.Desktop.Renames

/-!
# Replaying the events of a scan

A reader that knows a directory's listing replays the events of a scan on it: CREATE and MOVED_TO
put a name, DELETE and MOVED_FROM remove it. The report goes through the entries that went in the
order of their names and tells both halves of a rename at the first one, so a name that was put as a
second half is removed again where the entry it replaced is told later.
-/

open Std List

namespace DotnetPal.Desktop

open Programs WatchState

/-! ## The reader -/

/-- A reader's listing: the names and whether each is a directory. -/
abbrev Listing := ExtTreeMap Name Bool

/-- What the reader of one watch makes of an event. -/
def replay (id : ℕ) (listing : Listing) (offer : WatchOffer) : Listing :=
  if offer.watch ≠ id then listing
  else if offer.events &&& (Watches.create ||| Watches.movedTo) ≠ 0 then
    listing.insert offer.name (offer.events &&& Watches.directory ≠ 0)
  else if offer.events &&& (Watches.delete ||| Watches.movedFrom) ≠ 0 then listing.erase offer.name
  else listing

/-- What the replay makes of one name. -/
def fate (id : ℕ) (name : Name) (known : Option Bool) (offer : WatchOffer) : Option Bool :=
  if offer.watch = id ∧ offer.name = name then
    if offer.events &&& (Watches.create ||| Watches.movedTo) ≠ 0 then
      some (offer.events &&& Watches.directory ≠ 0)
    else if offer.events &&& (Watches.delete ||| Watches.movedFrom) ≠ 0 then none
    else known
  else known

theorem get_replay (id : ℕ) (name : Name) (listing : Listing) (offer : WatchOffer) :
    (replay id listing offer)[name]? = fate id name listing[name]? offer := by
  unfold replay fate
  by_cases hwatch : offer.watch = id
  · simp only [hwatch, ne_eq, not_true_eq_false, if_false, true_and]
    split_ifs
    all_goals simp_all
  · simp [hwatch]

theorem get_foldl_replay (id : ℕ) (name : Name) (offers : List WatchOffer) (listing : Listing) :
    (offers.foldl (replay id) listing)[name]? = offers.foldl (fate id name) listing[name]? := by
  induction offers generalizing listing with
  | nil => rfl
  | cons offer rest ih => rw [foldl_cons, ih, get_replay, foldl_cons]

/-- The kinds of events a replay needs. -/
def WantsAll (events : UInt32) : Prop :=
  events &&& Watches.create ≠ 0 ∧ events &&& Watches.delete ≠ 0 ∧ events &&& Watches.movedFrom ≠ 0 ∧
    events &&& Watches.movedTo ≠ 0

instance (events : UInt32) : Decidable (WantsAll events) := inferInstanceAs (Decidable (_ ∧ _))

/-! ## The fate of a name in a report -/

variable {watches : List Watch} {diff : Difference}

section Fates

variable {id : ℕ} {name : Name} {known : Option Bool} {wanted : UInt32}

variable {kind : UInt32}

theorem mark_directory (info : Meta) (hkind : kind &&& Watches.directory = 0) :
    decide ((kind ||| info.mark) &&& Watches.directory ≠ 0) = info.directory := by
  cases hdir : info.directory with
  | false =>
    rw [decide_eq_false_iff_not, not_not, Meta.mark, hdir]
    exact (or_and_eq_zero _ _ _).mpr ⟨hkind, UInt32.zero_and⟩
  | true =>
    rw [decide_eq_true_eq, Meta.mark, hdir, Ne, or_and_eq_zero]
    exact fun h ↦ absurd h.2 (by decide)

/-- An event that puts a name. -/
theorem fate_put (subject : Name) (info : Meta) (hwanted : wanted &&& kind ≠ 0)
    (hkind : kind = Watches.create ∨ kind = Watches.movedTo) :
    (offered wanted ⟨id, kind ||| info.mark, 0, subject, some info⟩).foldl (fate id name) known =
      if subject = name then some info.directory else known := by
  have hput : (kind ||| info.mark) &&& (Watches.create ||| Watches.movedTo) ≠ 0 := by
    rw [Ne, or_and_eq_zero]
    rcases hkind with rfl | rfl <;> exact fun h ↦ absurd h.1 (by decide)
  have hdir : kind &&& Watches.directory = 0 := by rcases hkind with rfl | rfl <;> decide
  rw [offered, if_pos (wants_of_kind hwanted), foldl_cons, foldl_nil, fate, if_pos hput,
    mark_directory info hdir]
  simp only [true_and]

/-- An event that removes a name. -/
theorem fate_removed (subject : Name) (info : Meta) (hwanted : wanted &&& kind ≠ 0)
    (hkind : kind = Watches.delete ∨ kind = Watches.movedFrom) :
    (offered wanted ⟨id, kind ||| info.mark, 0, subject, some info⟩).foldl (fate id name) known =
      if subject = name then none else known := by
  have hput : (kind ||| info.mark) &&& (Watches.create ||| Watches.movedTo) = 0 :=
    and_mark_eq_zero info (by rcases hkind with rfl | rfl <;> decide) (by decide)
  have hgone : (kind ||| info.mark) &&& (Watches.delete ||| Watches.movedFrom) ≠ 0 := by
    rw [Ne, or_and_eq_zero]
    rcases hkind with rfl | rfl <;> exact fun h ↦ absurd h.1 (by decide)
  rw [offered, if_pos (wants_of_kind hwanted), foldl_cons, foldl_nil, fate,
    if_neg (not_not.mpr hput), if_pos hgone]
  simp only [true_and]

/-- Events that neither put nor remove a name. -/
theorem fate_silent {offers : List WatchOffer}
    (hsilent : ∀ offer ∈ offers, offer.events &&& (Watches.create ||| Watches.movedTo) = 0 ∧
      offer.events &&& (Watches.delete ||| Watches.movedFrom) = 0) :
        offers.foldl (fate id name) known = known := by
  induction offers with
  | nil => rfl
  | cons offer rest ih =>
    obtain ⟨hput, hgone⟩ := hsilent offer mem_cons_self
    have hsame : fate id name known offer = known := by simp [fate, hput, hgone]
    rw [foldl_cons, hsame]
    exact ih fun j hj ↦ hsilent j (mem_cons_of_mem _ hj)

theorem silent_changeOffers (change : Name × UInt32) :
    ∀ offer ∈ changeOffers watches diff change, offer.events &&& (Watches.create ||| Watches.movedTo) = 0 ∧
      offer.events &&& (Watches.delete ||| Watches.movedFrom) = 0 := by
  intro offer hoffer
  simp only [changeOffers, mem_flatMap, mem_cons, not_mem_nil, or_false] at hoffer
  obtain ⟨kind, hkind, hoffer⟩ := hoffer
  split_ifs at hoffer
  · unfold offered at hoffer
    split_ifs at hoffer
    · obtain rfl := mem_singleton.mp hoffer
      exact ⟨and_changes_eq_zero _ (by rcases hkind with rfl | rfl <;> decide) (by decide),
        and_changes_eq_zero _ (by rcases hkind with rfl | rfl <;> decide) (by decide)⟩
    · cases hoffer
  · cases hoffer

/-- The changes and the end of a watch. -/
theorem fate_changes (changes : List (Name × UInt32)) :
    (changes.flatMap (changeOffers watches diff) ++
      if diff.ended then [WatchOffer.ending diff.watch] else []).foldl
      (fate id name) known = known := by
  refine fate_silent fun offer hoffer ↦ ?_
  rcases mem_append.mp hoffer with hchange | hending
  · obtain ⟨change, _, hmem⟩ := mem_flatMap.mp hchange
    exact silent_changeOffers change offer hmem
  · split_ifs at hending
    · rw [mem_singleton.mp hending]
      exact ⟨(by decide : Watches.removed &&& _ = 0), (by decide : Watches.removed &&& _ = 0)⟩
    · cases hending

variable {diffs : List Difference}

/-- A difference in which nothing went or came. -/
theorem fate_idle (hidle : Idle diff) :
    (offersOf diffs watches diff).foldl (fate id name) known = known := by
  rw [offersOf, bodyOffers, hidle.1, hidle.2]
  exact fate_changes _

theorem fate_idles {all : List Difference} (hidle : ∀ j ∈ diffs, Idle j) :
    (diffs.flatMap (offersOf all watches)).foldl (fate id name) known = known := by
  induction diffs with
  | nil => rfl
  | cons x rest ih =>
    rw [flatMap_cons, foldl_append, fate_idle (hidle x mem_cons_self)]
    exact ih fun j hj ↦ hidle j (mem_cons_of_mem _ hj)

end Fates

/-! ## The differing directory -/

/-- The second half of a rename. -/
def second (came : List Came) (went : Went) : Option Came := went.half.bind fun place ↦ came[place.2]?

/-- What the report of an entry that went makes of a name. -/
def tell (came : List Came) (name : Name) (known : Option Bool) (went : Went) : Option Bool :=
  match second came went with
  | some half =>
    if half.name = name then some half.info.directory
    else if went.name = name then none else known
  | none => if went.name = name then none else known

/-- What the report of an entry that came makes of a name. -/
def put (name : Name) (known : Option Bool) (came : Came) : Option Bool :=
  if came.renamed = false ∧ came.name = name then some came.info.directory else known

variable {went : Went}

section Told

variable {came : List Came} {name : Name} {known : Option Bool} {list : List Went}

/-- No rename puts the name. -/
theorem foldl_tell_of_no_half
    (hnone : ∀ went ∈ list, ∀ half, second came went = some half → half.name ≠ name) :
    list.foldl (tell came name) known = if name ∈ list.map (·.name) then none else known := by
  induction list generalizing known with
  | nil => rfl
  | cons x rest ih =>
    have hfirst : tell came name known x = if x.name = name then none else known := by
      unfold tell
      split
      · next half hhalf => rw [if_neg (hnone x mem_cons_self half hhalf)]
      · rfl
    rw [foldl_cons, ih fun went hwent ↦ hnone went (mem_cons_of_mem _ hwent), hfirst]
    simp only [map_cons, mem_cons]
    by_cases hrest : name ∈ rest.map (·.name)
    · simp [hrest]
    · by_cases hname : x.name = name
      · simp [hname]
      · simp [hrest, hname, Ne.symm hname]

/-- One rename puts the name. -/
theorem foldl_tell_of_half {x rest : List Went} {half : Came} (hhalf : second came went = some half)
    (hname : half.name = name)
    (hnone : ∀ other ∈ rest, ∀ half, second came other = some half → half.name ≠ name) :
    (x ++ went :: rest).foldl (tell came name) known =
      if name ∈ rest.map (·.name) then none else some half.info.directory := by
  have htell : tell came name (x.foldl (tell came name) known) went = some half.info.directory := by
    rw [tell, hhalf]
    exact if_pos hname
  rw [foldl_append, foldl_cons, htell, foldl_tell_of_no_half hnone]

theorem foldl_put_of_none (hnone : ∀ j ∈ came, j.renamed = false → j.name ≠ name) :
    came.foldl (put name) known = known := by
  induction came with
  | nil => rfl
  | cons x rest ih =>
    have ha : put name known x = known := if_neg fun h ↦ hnone x mem_cons_self h.1 h.2
    rw [foldl_cons, ha]
    exact ih fun j hj ↦ hnone j (mem_cons_of_mem _ hj)

theorem foldl_put_of_mem {x rest : List Came} {j : Came} (hrenamed : j.renamed = false)
    (hname : j.name = name) (hnone : ∀ later ∈ rest, later.name ≠ name) :
    (x ++ j :: rest).foldl (put name) known = some j.info.directory := by
  rw [foldl_append, foldl_cons, put, if_pos ⟨hrenamed, hname⟩]
  exact foldl_put_of_none fun later hlater _ ↦ hnone later hlater

end Told

/-- A report in which one directory differs. -/
structure Single (id : ℕ) (watches : List Watch) (first later : List Difference)
    (diff : Difference) : Prop where
  idle : ∀ other ∈ first ++ later, Idle other
  watch : diff.watch = id
  wanted : WantsAll (wantedOf watches diff)
  fresh : ∀ went ∈ diff.went, went.half = none
  new : ∀ came ∈ diff.came, came.renamed = false

variable {came : Came}

namespace Single

variable {id : ℕ} {watches : List Watch} {x later : List Difference} {diff : Difference}
  {name : Name} {known : Option Bool}

/-- What went, with the second halves of renames. -/
def paired (first : List Difference) (diff : Difference) : List Went :=
  (pairWent diff.went (arrivalsAt first.length diff.came)).1

/-- What came, with the second halves of renames marked. -/
def marked (first : List Difference) (diff : Difference) : List Came :=
  diff.came.mapIdx fun c came ↦
    { came with renamed := (paired first diff).any (·.half = some (first.length, c)) }

variable (h : Single id watches x later diff)
include h

theorem pair_eq : pair (x ++ diff :: later) =
      x ++ { diff with went := paired x diff, came := marked x diff } :: later :=
  pair_single (fun j hj ↦ h.idle j (mem_append_left _ hj))
    (fun j hj ↦ h.idle j (mem_append_right _ hj)) h.fresh h.new

/-- The report in the terms of one name. -/
theorem foldl_fate (name : Name) (known : Option Bool) :
    ((pair (x ++ diff :: later)).flatMap (offersOf (pair (x ++ diff :: later)) watches)).foldl
      (fate id name) known =
      (marked x diff).foldl (put name) ((paired x diff).foldl (tell diff.came name) known) := by
  rw [h.pair_eq]
  obtain ⟨hidle, rfl, ⟨hcreate, hdelete, hfrom, hinto⟩, hfresh, hnew⟩ := h
  have hwanted : wantedOf watches { diff with went := paired x diff, came := marked x diff } =
    wantedOf watches diff := rfl
  generalize hall : x ++ { diff with went := paired x diff, came := marked x diff } :: later = all
  have hget : all[x.length]? = some { diff with went := paired x diff, came := marked x diff } := by
    rw [← hall]
    simp
  rw [← hall, flatMap_append, flatMap_cons, foldl_append, foldl_append, hall,
    fate_idles fun other hother ↦ hidle other (mem_append_left _ hother),
    fate_idles fun other hother ↦ hidle other (mem_append_right _ hother), offersOf, bodyOffers,
      append_assoc,
    foldl_append, fate_changes, foldl_append, foldl_flatMap, foldl_flatMap]
  have hwent : (paired x diff).foldl (fun known went ↦ (wentOffers all watches
        { diff with went := paired x diff, came := marked x diff } went).foldl
          (fate diff.watch name) known) known =
      (paired x diff).foldl (tell diff.came name) known := by
    refine foldl_ext _ _ _ fun known went hwent ↦ ?_
    cases hhalf : went.half with
    | none =>
      simp only [wentOffers, hhalf, tell, second, Option.bind_none, hwanted]
      exact fate_removed went.name went.info hdelete (.inl rfl)
    | some p =>
      obtain ⟨other, hp, hother⟩ := half_of_pairWent hfresh hwent hhalf
      have hmarked : (marked x diff)[p.2]? =
          some { other with renamed := (paired x diff).any (·.half = some (x.length, p.2)) } := by
        rw [marked, getElem?_mapIdx, hother, Option.map_some]
      simp only [wentOffers, hhalf, hp, hget, Option.bind_some, hmarked, Option.map_some, tell,
        second, hother, hwanted, foldl_append]
      rw [fate_removed went.name went.info hfrom (.inr rfl)]
      exact fate_put other.name other.info hinto (.inr rfl)
  have hcame : ∀ known, (marked x diff).foldl (fun known came ↦ (cameOffers watches
        { diff with went := paired x diff, came := marked x diff } came).foldl
          (fate diff.watch name) known) known =
      (marked x diff).foldl (put name) known := by
    intro known
    refine foldl_ext _ _ _ fun known came _ ↦ ?_
    unfold cameOffers put
    cases hrenamed : came.renamed with
    | true => simp
    | false =>
      simp only [hwanted, Bool.false_eq_true, if_false, true_and]
      exact fate_put came.name came.info hcreate (.inl rfl)
  rw [hcame, hwent]

/-! The fate of one name. -/

omit h in
theorem names_paired (x : List Difference) (diff : Difference) :
    (paired x diff).map (·.name) = diff.went.map (·.name) := by
  have hbare := congrArg (map (·.name)) (map_bare_pairWent diff.went (arrivalsAt x.length diff.came))
  rw [map_map, map_map] at hbare
  exact hbare

omit h in
theorem mem_marked {j : Came} (hj : j ∈ marked x diff) :
    ∃ c came, diff.came[c]? = some came ∧ j.name = came.name ∧
      (j.renamed = true ↔ ∃ went ∈ paired x diff, went.half = some (x.length, c)) := by
  obtain ⟨c, hc⟩ := mem_iff_getElem?.mp hj
  rw [marked, getElem?_mapIdx] at hc
  obtain ⟨came, hcame, rfl⟩ := Option.map_eq_some_iff.mp hc
  exact ⟨c, came, hcame, rfl, by simp⟩

omit h in
/-- A name that does not come is known no longer where it went. -/
theorem foldl_of_not_came (x : List Difference) (known : Option Bool)
    (hnot : ∀ came ∈ diff.came, came.name ≠ name) :
    (marked x diff).foldl (put name) ((paired x diff).foldl (tell diff.came name) known) =
      if name ∈ diff.went.map (·.name) then none else known := by
  rw [foldl_put_of_none, foldl_tell_of_no_half, names_paired]
  · intro went _ half hhalf
    obtain ⟨p, _, hp⟩ := Option.bind_eq_some_iff.mp hhalf
    exact hnot half (mem_of_getElem? hp)
  · intro other hother _
    obtain ⟨c, came, hcame, heq, _⟩ := mem_marked hother
    exact heq ▸ hnot came (mem_of_getElem? hcame)

omit h in
theorem index_of_name {came : List Came} (hnames : (came.map (·.name)).Nodup) {c d : ℕ}
    {one j : Came} (hone : came[c]? = some one)
    (hj : came[d]? = some j) (hname : one.name = j.name) : c = d := by
  have hlen : c < (came.map (·.name)).length := by
    rw [length_map]
    exact (List.getElem?_eq_some_iff.mp hone).1
  refine (getElem?_inj hlen hnames).mp ?_
  rw [getElem?_map, getElem?_map, hone, hj, Option.map_some, Option.map_some, hname]

/-- The halves that come under a name are one, where names come once. -/
theorem place_of_second (hnames : (diff.came.map (·.name)).Nodup) {c : ℕ}
    (hcame : diff.came[c]? = some came) (hwent : went ∈ paired x diff) {half : Came}
    (hhalf : second diff.came went = some half) (hname : half.name = came.name) :
    went.half = some (x.length, c) := by
  obtain ⟨p, hp, hfound⟩ := Option.bind_eq_some_iff.mp hhalf
  obtain ⟨_, hfirst, _⟩ := half_of_pairWent h.fresh hwent hp
  rw [hp, ← hfirst, ← index_of_name hnames hfound hcame hname]

theorem nodup_halves : ((paired x diff).filterMap (·.half)).Nodup := by
  have hperm := perm_pairWent diff.went (arrivalsAt x.length diff.came)
  have harrivals := arrivals_single (fun j hj ↦ h.idle j (mem_append_left _ hj))
    (fun j hj ↦ h.idle j (mem_append_right _ hj)) h.new
  rw [filterMap_eq_nil_iff.mpr h.fresh, nil_append] at hperm
  exact (nodup_append.mp (hperm.nodup_iff.mp (harrivals ▸ nodup_arrivals _))).1

omit h in
theorem nodup_marked (x : List Difference) (hnames : (diff.came.map (·.name)).Nodup) :
    ((marked x diff).map (·.name)).Nodup := by
  have hsame : (marked x diff).map (·.name) = diff.came.map (·.name) := by
    refine ext_getElem? fun c ↦ ?_
    rw [getElem?_map, getElem?_map, marked, getElem?_mapIdx, Option.map_map]
    rfl
  rwa [hsame]

omit h in
/-- A name that came and is no second half is put at the end. -/
theorem foldl_of_left (hnames : (diff.came.map (·.name)).Nodup) {c : ℕ} (hcame : diff.came[c]? = some came)
    (hleft : ∀ went ∈ paired x diff, went.half ≠ some (x.length, c)) :
    (marked x diff).foldl (put came.name) known = some came.info.directory := by
  have hget : (marked x diff)[c]? = some { came with renamed := false } := by
    have hnone : (paired x diff).any (·.half = some (x.length, c)) = false := by simpa using hleft
    rw [marked, getElem?_mapIdx, hcame, Option.map_some, hnone]
  obtain ⟨before, after, hsplit⟩ := append_of_mem (mem_of_getElem? hget)
  have hnodup := nodup_marked x hnames
  rw [hsplit, map_append, map_cons, nodup_middle, nodup_cons, mem_append] at hnodup
  rw [hsplit]
  exact foldl_put_of_mem rfl rfl fun later hlater heq ↦ hnodup.1 (.inr (mem_map.mpr ⟨later, hlater, heq⟩))

/-- A name that comes is known, as what came, unless it went and a rename that put it was
told before that. -/
theorem foldl_of_came (hnames : (diff.came.map (·.name)).Nodup)
    (hsorted : (diff.went.map (·.name)).Pairwise fun name other ↦ compare name other = .lt)
    (hself : ∀ went ∈ diff.went, ∀ came ∈ diff.came, went.name = came.name → ∀ key, went.info.key =
      some key →
      came.info.key ≠ some key) (hmem : came ∈ diff.came) :
    (marked x diff).foldl (put came.name) ((paired x diff).foldl (tell diff.came came.name) known) =
        some came.info.directory ↔
      ∀ source key, (source, came.name) ∈ ((diff.went.filter (·.info.key = some key)).map (·.name)).zip
          ((diff.came.filter (·.info.key = some key)).map (·.name)).reverse →
        came.name ∈ diff.went.map (·.name) → compare came.name source = .lt := by
  obtain ⟨c, hcame⟩ := mem_iff_getElem?.mp hmem
  -- A rename that puts the name has this entry for its second half.
  have hsource : ∀ source key,
    (source, came.name) ∈ ((diff.went.filter (·.info.key = some key)).map (·.name)).zip
      ((diff.came.filter (·.info.key = some key)).map (·.name)).reverse →
      ∃ went ∈ paired x diff, went.name = source ∧ went.half = some (x.length, c) := by
    intro source key hzip
    obtain ⟨went, hwent, hname, i, other, hhalf, hother, heq⟩ :=
      (renamed_iff h.fresh source came.name).mpr ⟨key, hzip⟩
    exact ⟨went, hwent, hname, index_of_name hnames hother hcame heq ▸ hhalf⟩
  by_cases htaken : ∃ went ∈ paired x diff, went.half = some (x.length, c)
  · obtain ⟨went, hwent, hhalf⟩ := htaken
    obtain ⟨before, after, hsplit⟩ := append_of_mem hwent
    have hnodup := h.nodup_halves
    rw [hsplit, filterMap_append, filterMap_cons_some hhalf, nodup_middle, nodup_cons, mem_append] at hnodup
    have hafter : ∀ other ∈ after, other.half ≠ some (x.length, c) := fun other hother heq ↦
      hnodup.1 (.inr (mem_filterMap.mpr ⟨other, hother, heq⟩))
    have hbefore : ∀ other ∈ before, other.half ≠ some (x.length, c) := fun other hother heq ↦
      hnodup.1 (.inl (mem_filterMap.mpr ⟨other, hother, heq⟩))
    have hput : ∀ known, (marked x diff).foldl (put came.name) known = known := by
      intro known
      refine foldl_put_of_none fun other hother hrenamed heq ↦ ?_
      obtain ⟨i, found, hfound, hname, hmarked⟩ := mem_marked hother
      obtain rfl := index_of_name hnames hfound hcame (hname.symm.trans heq)
      exact absurd (hmarked.mpr ⟨went, hwent, hhalf⟩) (by simp [hrenamed])
    have hsecond : second diff.came went = some came := by rw [second, hhalf, Option.bind_some, hcame]
    have hlater : ∀ other ∈ after, ∀ half, second diff.came other = some half → half.name ≠ came.name :=
      fun other hother half hfound heq ↦ hafter other hother
        (h.place_of_second hnames hcame (by rw [hsplit]; simp [hother]) hfound heq)
    rw [← names_paired x diff, hsplit, map_append, map_cons] at hsorted
    obtain ⟨_, hrest, hcross⟩ := pairwise_append.mp hsorted
    have hlate := (pairwise_cons.mp hrest).1
    have hv : (if came.name ∈ after.map (·.name) then none else some came.info.directory) =
      some came.info.directory ↔
        came.name ∉ after.map (·.name) := by
      by_cases hin : came.name ∈ after.map (·.name)
      · simp [hin]
      · simp [hin]
    rw [hput, hsplit, foldl_tell_of_half hsecond rfl hlater, hv]
    constructor
    · intro hnot source key hzip hgone
      obtain ⟨other, hother, hname, hp⟩ := hsource source key hzip
      obtain rfl : other = went := by
        rw [hsplit, mem_append, mem_cons] at hother
        rcases hother with hold | rfl | hnew
        · exact absurd hp (hbefore other hold)
        · rfl
        · exact absurd hp (hafter other hnew)
      rw [← names_paired x diff, hsplit, map_append, map_cons, mem_append, mem_cons] at hgone
      rcases hgone with hearly | heq | hin
      · exact hname ▸ hcross came.name hearly other.name mem_cons_self
      · -- The two halves of a rename do not have one name.
        obtain ⟨hfrom, hinto⟩ := of_mem_zip hzip
        obtain ⟨gone, hgone, hgoneName⟩ := mem_map.mp hfrom
        obtain ⟨arrived, harrived, harrivedName⟩ := mem_map.mp (mem_reverse.mp hinto)
        rw [mem_filter, decide_eq_true_eq] at hgone harrived
        exact absurd harrived.2 (hself gone hgone.1 arrived harrived.1
          (hgoneName.trans (hname.symm.trans (heq.symm.trans harrivedName.symm))) key hgone.2)
      · exact absurd hin hnot
    · intro hcondition hin
      obtain ⟨key, hzip⟩ :=
        (renamed_iff h.fresh went.name came.name).mp ⟨went, hwent, rfl, c, came, hhalf, hcame, rfl⟩
      have hgone : came.name ∈ diff.went.map (·.name) := by
        rw [← names_paired x diff, hsplit, map_append, map_cons]
        exact mem_append_right _ (mem_cons_of_mem _ hin)
      have hlt := hcondition went.name key hzip hgone
      have hgt : compare came.name went.name = .gt := OrientedCmp.gt_of_lt (hlate came.name hin)
      cases hlt.symm.trans hgt
  · have hleft : ∀ went ∈ paired x diff, went.half ≠ some (x.length, c) := by simpa using htaken
    rw [foldl_of_left hnames hcame hleft]
    refine iff_of_true rfl fun source key hzip ↦ ?_
    obtain ⟨went, hwent, _, hhalf⟩ := hsource source key hzip
    exact absurd hhalf (hleft went hwent)

end Single

/-! ## Two listings -/

section Listings

variable (before after : Entries)

/-- The names a node left, in their order. -/
def leavers (key : Identity × Bool) : List Name :=
  (before.toList.filter fun entry ↦ !(after[entry.1]?).any entry.2.sameNode &&
    entry.2.key = some key).map Prod.fst

/-- The names under which a node came, in their order. -/
def arrivers (key : Identity × Bool) : List Name :=
  (after.toList.filter fun entry ↦ !((before[entry.1]?).any fun old ↦ old.sameNode entry.2) &&
    entry.2.key = some key).map Prod.fst

/-- Of the names a node left and those it came under, the first goes with the last, and so on. -/
def Renamed (source target : Name) : Prop :=
  ∃ key, (source, target) ∈ (leavers before after key).zip (arrivers before after key).reverse

/-- Another node, or none, has the name now. -/
def goes (name : Name) : Bool := (before[name]?).any fun old ↦ !(after[name]?).any old.sameNode

/-- An entry that a rename replaced has a name before that of the entry it was renamed from. -/
def NoneOvertaken : Prop := ∀ source target, Renamed before after source target →
    goes before after target = true → compare target source = .lt

theorem wentBetween_eq : wentBetween before after =
    (before.toList.filter fun e ↦ !(after[e.1]?).any e.2.sameNode).map fun e ↦ ⟨e.1, e.2, none⟩ := by
  rw [wentBetween, ← filterMap_eq_map, filterMap_filter]
  refine filterMap_congr fun e _ ↦ ?_
  cases h : (after[e.1]?).any e.2.sameNode <;> simp [h]

theorem cameBetween_eq : cameBetween before after =
    (after.toList.filter fun e ↦ !(before[e.1]?).any fun old ↦ old.sameNode e.2).map fun e ↦
      ⟨e.1, e.2, false⟩ := by
  rw [cameBetween, ← filterMap_eq_map, filterMap_filter]
  refine filterMap_congr fun e _ ↦ ?_
  cases h : (before[e.1]?).any fun old ↦ old.sameNode e.2 <;> simp [h]

theorem filter_wentBetween (key : Identity × Bool) :
    ((wentBetween before after).filter (·.info.key = some key)).map (·.name) =
      leavers before after key := by
  rw [wentBetween_eq, filter_map, map_map, filter_filter]
  simp only [leavers, Function.comp_def, Bool.and_comm]

theorem filter_cameBetween (key : Identity × Bool) :
    ((cameBetween before after).filter (·.info.key = some key)).map (·.name) =
      arrivers before after key := by
  rw [cameBetween_eq, filter_map, map_map, filter_filter]
  simp only [arrivers, Function.comp_def, Bool.and_comm]

theorem mem_wentBetween : went ∈ wentBetween before after ↔
    before[went.name]? = some went.info ∧ (after[went.name]?).any went.info.sameNode = false ∧
      went.half = none := by
  rw [wentBetween_eq, mem_map]
  constructor
  · rintro ⟨e, he, rfl⟩
    rw [mem_filter, ExtTreeMap.mem_toList_iff_getElem?_eq_some] at he
    exact ⟨he.1, by simpa using he.2, rfl⟩
  · rintro ⟨hold, hnew, hhalf⟩
    refine ⟨(went.name, went.info), ?_, by rw [← hhalf]⟩
    rw [mem_filter, ExtTreeMap.mem_toList_iff_getElem?_eq_some]
    exact ⟨hold, by simpa using hnew⟩

theorem mem_cameBetween : came ∈ cameBetween before after ↔
    after[came.name]? = some came.info ∧
      ((before[came.name]?).any fun old ↦ old.sameNode came.info) = false ∧ came.renamed = false := by
  rw [cameBetween_eq, mem_map]
  constructor
  · rintro ⟨e, he, rfl⟩
    rw [mem_filter, ExtTreeMap.mem_toList_iff_getElem?_eq_some] at he
    exact ⟨he.1, by simpa using he.2, rfl⟩
  · rintro ⟨hnew, hold, hrenamed⟩
    refine ⟨(came.name, came.info), ?_, by rw [← hrenamed]⟩
    rw [mem_filter, ExtTreeMap.mem_toList_iff_getElem?_eq_some]
    exact ⟨hnew, by simpa using hold⟩

theorem name_mem_wentBetween {name : Name} :
    name ∈ (wentBetween before after).map (·.name) ↔ goes before after name = true := by
  rw [mem_map, goes, Option.any_eq_true]
  constructor
  · rintro ⟨went, hwent, rfl⟩
    obtain ⟨hbefore, hnew, _⟩ := (mem_wentBetween before after).mp hwent
    exact ⟨went.info, hbefore, by simpa using hnew⟩
  · rintro ⟨old, hold, hgone⟩
    exact ⟨⟨name, old, none⟩, (mem_wentBetween before after).mpr ⟨hold, by simpa using hgone, rfl⟩, rfl⟩

theorem sorted_wentBetween :
    ((wentBetween before after).map (·.name)).Pairwise fun name j ↦ compare name j = .lt := by
  rw [wentBetween_eq, map_map]
  have hsorted := (ExtTreeMap.ordered_keys_toList (t := before)).sublist (filter_sublist (p := fun e ↦
    !(after[e.1]?).any e.2.sameNode))
  exact pairwise_map.mpr hsorted

theorem nodup_cameBetween : ((cameBetween before after).map (·.name)).Nodup := by
  rw [cameBetween_eq, map_map]
  have hsorted := (ExtTreeMap.ordered_keys_toList (t := after)).sublist (filter_sublist (p := fun e ↦
    !(before[e.1]?).any fun old ↦ old.sameNode e.2))
  refine pairwise_map.mpr (hsorted.imp fun {one j} hlt heq ↦ ?_)
  have hname : one.1 = j.1 := heq
  have hself : compare j.1 j.1 = .eq := ReflCmp.compare_self
  rw [hname, hself] at hlt
  cases hlt

/-- The two halves of a rename do not have one name. -/
theorem key_of_same_name (hwent : went ∈ wentBetween before after)
    (hcame : came ∈ cameBetween before after) (hname : went.name = came.name) {key : Identity × Bool}
    (hkey : went.info.key = some key) : came.info.key ≠ some key := by
  intro hsame
  obtain ⟨hold, hafter, _⟩ := (mem_wentBetween before after).mp hwent
  obtain ⟨hnew, _, _⟩ := (mem_cameBetween before after).mp hcame
  obtain ⟨one, hone, rfl⟩ := Option.map_eq_some_iff.mp hkey
  obtain ⟨j, hj, heq⟩ := Option.map_eq_some_iff.mp hsame
  obtain ⟨rfl, hdir⟩ := Prod.mk.inj heq
  rw [hname, hnew, Option.any_some] at hafter
  exact absurd (Meta.sameNode_iff.mpr ⟨hdir.symm, hone.trans hj.symm⟩) (by simp [hafter])

/-- A name under which nothing came goes or stays as it is. -/
theorem kind_of_not_came {name : Name}
    (hnot : ∀ info, after[name]? = some info → ((before[name]?).any fun old ↦ old.sameNode info) ≠ false) :
    (if goes before after name = true then none else (before[name]?).map (·.directory)) =
      (after[name]?).map (·.directory) := by
  unfold goes
  cases hnew : after[name]? with
  | none => cases before[name]? <;> simp
  | some new =>
    have hstays := hnot new hnew
    cases hold : before[name]? with
    | none => simp [hold] at hstays
    | some old =>
      rw [hold, Option.any_some, ne_eq, Bool.not_eq_false] at hstays
      simp [hstays, (Meta.sameNode_iff.mp hstays).1]

end Listings

/-- What a reader knows of a listing. -/
def listing (entries : Entries) : Listing := entries.map fun _ info ↦ info.directory

@[simp]
theorem get_listing (entries : Entries) (name : Name) :
    (listing entries)[name]? = (entries[name]?).map (·.directory) :=
  ExtTreeMap.getElem?_map

/-- The report of one directory, replayed. -/
theorem Single.replay_iff {id : ℕ} {x later : List Difference}
    (h : Single id watches x later diff) {before after : Entries}
    (hwent : diff.went = wentBetween before after) (hcame : diff.came = cameBetween before after) :
    ((pair (x ++ diff :: later)).flatMap (offersOf (pair (x ++ diff :: later)) watches)).foldl (replay id)
        (listing before) = listing after ↔ NoneOvertaken before after := by
  -- The names one by one.
  have hone : ∀ name,
    ((pair (x ++ diff :: later)).flatMap (offersOf (pair (x ++ diff :: later)) watches)).foldl
        (fate id name) ((before[name]?).map (·.directory)) = (after[name]?).map (·.directory) ↔
      ∀ source, Renamed before after source name → goes before after name = true →
        compare name source = .lt := by
    intro name
    rw [h.foldl_fate]
    by_cases hcomes : ∃ came ∈ diff.came, came.name = name
    · obtain ⟨came, hmem, rfl⟩ := hcomes
      have hnew := ((mem_cameBetween before after).mp (hcame ▸ hmem)).1
      rw [hnew, Option.map_some, h.foldl_of_came (hcame ▸ nodup_cameBetween before after)
        (hwent ▸ sorted_wentBetween before after)
        (fun went hin j hj hname key hkey ↦ key_of_same_name before after (hwent ▸ hin)
          (hcame ▸ hj) hname hkey) hmem]
      simp only [hwent, hcame, filter_wentBetween, filter_cameBetween, name_mem_wentBetween,
        Renamed, forall_exists_index]
    · have hnot : ∀ came ∈ diff.came, came.name ≠ name := by simpa using hcomes
      rw [foldl_of_not_came x _ hnot]
      have hnever : ∀ source, ¬ Renamed before after source name := by
        rintro source ⟨key, hzip⟩
        have hin := mem_reverse.mp (of_mem_zip hzip).2
        rw [← filter_cameBetween, ← hcame] at hin
        obtain ⟨came, hmem, rfl⟩ := mem_map.mp hin
        exact hnot came (mem_filter.mp hmem).1 rfl
      refine iff_of_true ?_ fun source hrenamed ↦ absurd hrenamed (hnever source)
      simp only [hwent, name_mem_wentBetween]
      exact kind_of_not_came before after fun info hinfo hnone ↦ hnot ⟨name, info, false⟩
        (hcame ▸ (mem_cameBetween before after).mpr ⟨hinfo, hnone, rfl⟩) rfl
  constructor
  · intro hreplay source target hrenamed hgoes
    refine (hone target).mp ?_ source hrenamed hgoes
    have hget := congrArg (·[target]?) hreplay
    simpa only [get_foldl_replay, get_listing] using hget
  · intro hnone
    refine ExtTreeMap.ext_getElem? fun name ↦ ?_
    rw [get_foldl_replay, get_listing, get_listing]
    exact (hone name).mpr fun source hrenamed hgoes ↦ hnone source name hrenamed hgoes

end DotnetPal.Desktop
