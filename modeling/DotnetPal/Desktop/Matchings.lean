import DotnetPal.Desktop.Renames

/-!
# Renames as a matching

What a scan has paired after each of its looks matches entries that went with entries that came:
each with one at most, and of the same node. A look adds differences without halves, and pairing
only adds matches.
-/

open Std List Option

namespace DotnetPal.Desktop

/-- The entry that went at a place. -/
def wentAt (diffs : List Difference) (place : ℕ × ℕ) : Option Went := diffs[place.1]?.bind (·.went[place.2]?)

/-- The entry that came at a place. -/
def cameAt (diffs : List Difference) (place : ℕ × ℕ) : Option Came := diffs[place.1]?.bind (·.came[place.2]?)

/-- The places where the other halves of what went came. -/
def halves (diffs : List Difference) : List (ℕ × ℕ) := diffs.flatMap fun diff ↦ diff.went.filterMap (·.half)

structure Matching (diffs : List Difference) : Prop where
  /-- Nothing that came is the half of two entries that went. -/
  once : (halves diffs).Nodup
  same : ∀ source went place, wentAt diffs source = some went → went.half = some place →
    ∃ came key, cameAt diffs place = some came ∧ went.info.key = some key ∧ came.info.key = some key
  marked : ∀ place came, cameAt diffs place = some came → (came.renamed = true ↔ place ∈ halves diffs)

section Matching

variable {ds new : List Difference} {source p : ℕ × ℕ} {went : Went} {came : Came}

theorem wentAt_of_mem {diff : Difference} (hmem : diff ∈ ds) (hwent : went ∈ diff.went) :
    ∃ source, wentAt ds source = some went := by
  obtain ⟨d, hd⟩ := mem_iff_getElem?.mp hmem
  obtain ⟨g, hg⟩ := mem_iff_getElem?.mp hwent
  exact ⟨(d, g), bind_eq_some_iff.mpr ⟨diff, hd, hg⟩⟩

theorem mem_halves : p ∈ halves ds ↔ ∃ source went, wentAt ds source = some went ∧ went.half = some p := by
  constructor
  · intro h
    obtain ⟨diff, hmem, hp⟩ := mem_flatMap.mp h
    obtain ⟨went, hwent, hhalf⟩ := mem_filterMap.mp hp
    obtain ⟨source, hsource⟩ := wentAt_of_mem hmem hwent
    exact ⟨source, went, hsource, hhalf⟩
  · rintro ⟨source, went, hwent, hhalf⟩
    obtain ⟨diff, hd, hg⟩ := bind_eq_some_iff.mp hwent
    exact mem_flatMap.mpr ⟨diff, mem_of_getElem? hd, mem_filterMap.mpr ⟨went, mem_of_getElem? hg, hhalf⟩⟩

theorem Matching.half_of_mem {diff : Difference} (h : Matching ds) (hmem : diff ∈ ds)
    (hwent : went ∈ diff.went) (hhalf : went.half = some p) :
    ∃ target came, ds[p.1]? = some target ∧ target.came[p.2]? = some came := by
  obtain ⟨source, hsource⟩ := wentAt_of_mem hmem hwent
  obtain ⟨came, _, hp, _⟩ := h.same source went p hsource hhalf
  obtain ⟨target, htarget, hcame⟩ := bind_eq_some_iff.mp hp
  exact ⟨target, came, htarget, hcame⟩

theorem matching_nil : Matching [] :=
  ⟨nodup_nil, fun _ _ _ h ↦ by simp [wentAt] at h, fun _ _ h ↦ by simp [cameAt] at h⟩

/-- The half of an entry came in a difference there is. -/
theorem Matching.lt_length (h : Matching ds) (hp : p ∈ halves ds) : p.1 < ds.length := by
  obtain ⟨source, went, hwent, hhalf⟩ := mem_halves.mp hp
  obtain ⟨came, _, hcame, _⟩ := h.same source went p hwent hhalf
  obtain ⟨diff, hd, _⟩ := bind_eq_some_iff.mp hcame
  exact (List.getElem?_eq_some_iff.mp hd).1

theorem Matching.append (h : Matching ds) (hfresh : ∀ diff ∈ new,
    (∀ went ∈ diff.went, went.half = none) ∧ ∀ came ∈ diff.came, came.renamed = false) :
    Matching (ds ++ new) := by
  have hhalves : halves (ds ++ new) = halves ds := by
    have hnone : halves new = [] :=
      flatMap_eq_nil_iff.mpr fun diff hmem ↦ filterMap_eq_nil_iff.mpr (hfresh diff hmem).1
    rw [halves, flatMap_append, ← halves, ← halves, hnone, append_nil]
  refine ⟨hhalves ▸ h.once, fun source went p hwent hhalf ↦ ?_, fun p came hcame ↦ ?_⟩
  · obtain ⟨diff, hd, hg⟩ := bind_eq_some_iff.mp hwent
    rw [getElem?_append] at hd
    split_ifs at hd
    · obtain ⟨came, key, hcame, hkeys⟩ := h.same source went p (bind_eq_some_iff.mpr ⟨diff, hd, hg⟩) hhalf
      obtain ⟨target, htarget, hp⟩ := bind_eq_some_iff.mp hcame
      refine ⟨came, key, bind_eq_some_iff.mpr ⟨target, ?_, hp⟩, hkeys⟩
      rw [List.getElem?_append_left (List.getElem?_eq_some_iff.mp htarget).1, htarget]
    · have hnone := (hfresh diff (mem_of_getElem? hd)).1 went (mem_of_getElem? hg)
      cases hnone.symm.trans hhalf
  · rw [hhalves]
    obtain ⟨target, htarget, hp⟩ := bind_eq_some_iff.mp hcame
    rw [getElem?_append] at htarget
    split_ifs at htarget with hlt
    · exact h.marked p came (bind_eq_some_iff.mpr ⟨target, htarget, hp⟩)
    · rw [(hfresh target (mem_of_getElem? htarget)).2 came (mem_of_getElem? hp)]
      exact iff_of_false Bool.false_ne_true fun hmem ↦ hlt (h.lt_length hmem)

theorem wentAt_pair (ds : List Difference) (source : ℕ × ℕ) :
    wentAt (pair ds) source = wentAt ds source ∨ ∃ old arrival, wentAt ds source = some old ∧
      old.half = none ∧ arrival ∈ arrivals ds ∧ old.info.key = some arrival.1 ∧
      wentAt (pair ds) source = some { old with half := some arrival.2 } := by
  obtain ⟨remaining, hsub, heq⟩ := getElem?_pair ds source.1
  unfold wentAt
  rw [heq]
  cases ds[source.1]? with
  | none => exact .inl rfl
  | some diff =>
    refine (getElem?_pairWent diff.went remaining source.2).imp_right
      fun ⟨old, arrival, hold, hnone, harrival, hrest⟩ ↦ ?_
    exact ⟨old, arrival, hold, hnone, hsub harrival, hrest⟩

theorem cameAt_pair (ds : List Difference) (p : ℕ × ℕ) :
    cameAt (pair ds) p = (cameAt ds p).map fun came ↦ { came with
      renamed := came.renamed || ((arrivals ds).any (·.2 = p) && !(leftOver ds).any (·.2 = p)) } := by
  obtain ⟨_, _, heq⟩ := getElem?_pair ds p.1
  unfold cameAt
  rw [heq]
  cases ds[p.1]? with
  | none => rfl
  | some diff => exact getElem?_mapIdx

/-- No later pass undoes or changes a match. -/
theorem wentAt_pair_of_half (hwent : wentAt ds source = some went) (hhalf : went.half ≠ none) :
    wentAt (pair ds) source = some went := by
  rcases wentAt_pair ds source with heq | ⟨old, _, hold, hnone, _⟩
  · rw [heq, hwent]
  · rw [some.inj (hwent.symm.trans hold)] at hhalf
    exact absurd hnone hhalf

theorem perm_halves (list : List Difference) (waiting : List Arrival) :
    (halves list ++ waiting.map Prod.snd).Perm
      (halves (pairDifferences list waiting).1 ++ (pairDifferences list waiting).2.map Prod.snd) := by
  induction list generalizing waiting with
  | nil => exact List.Perm.refl _
  | cons a rest ih =>
    rw [pairDifferences]
    have ha := perm_pairWent a.went waiting
    have hrest := ih (pairWent a.went waiting).2
    simp only [halves, flatMap_cons, perm_iff_count, count_append] at ha hrest ⊢
    intro p
    have hn := ha p
    have hcounts := hrest p
    omega

theorem halves_pair (ds : List Difference) :
    halves (pair ds) = halves (pairDifferences ds (arrivals ds)).1 := by
  have hwent : (pair ds).map (·.went) = (pairDifferences ds (arrivals ds)).1.map (·.went) := by
    refine ext_getElem? fun d ↦ ?_
    simp only [pair, markRenamed, getElem?_map, getElem?_mapIdx, Option.map_map]
    rfl
  rw [halves, halves, ← flatMap_map, hwent, flatMap_map]

theorem cameAt_of_arrival {arrival : Arrival} (h : arrival ∈ arrivals ds) :
    ∃ came, cameAt ds arrival.2 = some came ∧ came.info.key = some arrival.1 ∧ came.renamed = false := by
  obtain ⟨diff, hd, came, hc, hkey, hrenamed⟩ := mem_arrivals.mp h
  exact ⟨came, bind_eq_some_iff.mpr ⟨diff, hd, hc⟩, hkey, hrenamed⟩

/-- What waits is not matched, so the matches and what is left are apart. -/
theorem Matching.nodup_pair (h : Matching ds) : (halves (pair ds) ++ (leftOver ds).map Prod.snd).Nodup ∧
      ∀ p, p ∈ halves ds ∨ p ∈ (arrivals ds).map Prod.snd ↔
        p ∈ halves (pair ds) ∨ p ∈ (leftOver ds).map Prod.snd := by
  have hperm := perm_halves ds (arrivals ds)
  rw [← halves_pair] at hperm
  refine ⟨hperm.nodup_iff.mp (nodup_append.mpr ⟨h.once, nodup_arrivals ds, ?_⟩), fun p ↦ ?_⟩
  · rintro p hp j hj rfl
    obtain ⟨arrival, harrival, rfl⟩ := mem_map.mp hj
    obtain ⟨came, hcame, _, hrenamed⟩ := cameAt_of_arrival harrival
    simp [(h.marked _ came hcame).mpr hp] at hrenamed
  · simpa [leftOver] using hperm.mem_iff

theorem Matching.pair (h : Matching ds) : Matching (pair ds) := by
  obtain ⟨hnodup, hsplit⟩ := h.nodup_pair
  obtain ⟨honce, _, hapart⟩ := nodup_append.mp hnodup
  have hcame (p : ℕ × ℕ) (came : Came) (h : cameAt ds p = some came) :
      ∃ after, cameAt (Desktop.pair ds) p = some after ∧ after.info = came.info := by
    rw [cameAt_pair, h]
    exact ⟨_, rfl, rfl⟩
  refine ⟨honce, fun source went p hwent hhalf ↦ ?_, fun p after hafter ↦ ?_⟩
  · rcases wentAt_pair ds source with heq | ⟨old, arrival, _, _, harrival, hkey, hnew⟩
    · obtain ⟨came, key, hx, hkeys⟩ := h.same source went p (heq ▸ hwent) hhalf
      obtain ⟨after, hafter, hinfo⟩ := hcame p came hx
      exact ⟨after, key, hafter, hkeys.1, hinfo ▸ hkeys.2⟩
    · obtain rfl := some.inj (hwent.symm.trans hnew)
      obtain rfl := some.inj hhalf
      obtain ⟨came, hx, hcameKey, _⟩ := cameAt_of_arrival harrival
      obtain ⟨after, hafter, hinfo⟩ := hcame _ came hx
      exact ⟨after, arrival.1, hafter, hkey, hinfo ▸ hcameKey⟩
  · rw [cameAt_pair] at hafter
    obtain ⟨came, hx, rfl⟩ := map_eq_some_iff.mp hafter
    have hany (list : List Arrival) : (list.any fun arrival ↦ arrival.2 = p) = true ↔
      p ∈ list.map Prod.snd := by simp
    rw [Bool.or_eq_true, Bool.and_eq_true, Bool.not_eq_true', ← Bool.not_eq_true, hany, hany,
      h.marked p came hx]
    constructor
    · rintro (hold | ⟨hwaited, hleft⟩)
      · obtain ⟨source, went, hwent, hhalf⟩ := mem_halves.mp hold
        exact mem_halves.mpr ⟨source, went, wentAt_pair_of_half hwent (by simp [hhalf]), hhalf⟩
      · exact ((hsplit p).mp (.inr hwaited)).resolve_right hleft
    · exact fun hnew ↦ ((hsplit p).mpr (.inl hnew)).imp_right fun hwaited ↦
        ⟨hwaited, fun hleft ↦ hapart p hnew p hleft rfl⟩

/-- What a look finds different has no halves yet. -/
theorem fresh_compare {s : WatchState} {looks : List (ℕ × Look)} : ∀ diff ∈ (s.compare looks).2,
    (∀ went ∈ diff.went, went.half = none) ∧ ∀ came ∈ diff.came, came.renamed = false := by
  have hone (watch : Watch) (x : Look) : (∀ went ∈ (WatchState.difference watch x).went, went.half = none) ∧
      ∀ came ∈ (WatchState.difference watch x).came, came.renamed = false := by
    simp only [WatchState.difference]
    cases watch.entries with
    | none => exact ⟨fun _ h ↦ absurd h not_mem_nil, fun _ h ↦ absurd h not_mem_nil⟩
    | some old =>
      cases x.entries with
      | none => exact ⟨fun _ h ↦ absurd h not_mem_nil, fun _ h ↦ absurd h not_mem_nil⟩
      | some after =>
        refine ⟨fun went hwent ↦ ?_, fun came hcame ↦ ?_⟩
        · obtain ⟨e, _, he⟩ := mem_filterMap.mp hwent
          obtain ⟨_, ⟨⟩⟩ := ite_none_left_eq_some.mp he
          rfl
        · obtain ⟨e, _, he⟩ := mem_filterMap.mp hcame
          obtain ⟨_, ⟨⟩⟩ := ite_none_left_eq_some.mp he
          rfl
  induction looks generalizing s with
  | nil => exact fun diff hmem ↦ absurd hmem not_mem_nil
  | cons look rest ih =>
    intro diff hmem
    rw [WatchState.compare] at hmem
    rcases mem_append.mp hmem with ha | hlater
    · unfold WatchState.compareOne at ha
      split at ha
      · cases ha
      · exact mem_singleton.mp ha ▸ hone _ _
    · exact ih diff hlater

end Matching

end DotnetPal.Desktop
