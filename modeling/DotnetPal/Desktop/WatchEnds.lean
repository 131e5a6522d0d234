import DotnetPal.Desktop.WatchReports

/-!
# Ends of watches

The consumer removes a watch, or a scan finds its node gone; either way one REMOVED is offered and
nothing of the watch after it. A watch the scan found gone leaves the list at once and its REMOVED
waits for the report, so the invariant speaks of the watches in the list and of the ends a scan
has yet to report.
-/

open Std List

namespace DotnetPal.Desktop

open Programs KeyedList WatchState WatchOffer

/-- The watch of an event, and whether it says that it ended. -/
def WatchOffer.tag (offer : WatchOffer) : ℕ × Bool := (offer.watch, offer.ends)

@[simp]
theorem WatchOffer.tag_ending (watch : ℕ) : (ending watch).tag = (watch, true) :=
  congrArg (Prod.mk watch) (show decide (Watches.removed &&& Watches.removed ≠ 0) = true by decide)

def WatchState.tags (s : WatchState) : List (ℕ × Bool) := s.offers.map tag

/-- Nothing of a watch follows its end. -/
def Closed (tags : List (ℕ × Bool)) : Prop :=
  tags.Pairwise fun first later ↦ first.2 = true → later.1 ≠ first.1

theorem Adds.tags {n : ℕ} {s s' : WatchState} {offers : List WatchOffer} (h : Adds n s s' offers) :
    s'.tags = s.tags ++ offers.map tag := by
  rw [WatchState.tags, h.offers, map_append]
  rfl

section Closed

variable {tags later : List (ℕ × Bool)} {watch : ℕ}

/-- Events of watches that have not ended. -/
theorem Closed.append (h : Closed tags)
    (hlater : ∀ tag ∈ later, tag.2 = false ∧ (tag.1, true) ∉ tags) : Closed (tags ++ later) := by
  refine pairwise_append.mpr ⟨h, ?_, ?_⟩
  · refine pairwise_of_forall_mem_list fun a ha b _ hends ↦ ?_
    simp [(hlater a ha).1] at hends
  · rintro ⟨watch, ends⟩ ha b hb hends rfl
    obtain rfl : ends = true := hends
    exact (hlater b hb).2 ha

/-- The end of a watch that has not ended. -/
theorem Closed.ended (h : Closed tags) (hwatch : (watch, true) ∉ tags) :
    Closed (tags ++ [(watch, true)]) := by
  refine pairwise_append.mpr ⟨h, pairwise_singleton .., ?_⟩
  rintro ⟨x, ends⟩ ha b hb hends heq
  obtain rfl := mem_singleton.mp hb
  obtain rfl : ends = true := hends
  obtain rfl : watch = x := heq
  exact hwatch ha

/-- A watch ends once at most. -/
theorem Closed.count_le (h : Closed tags) (watch : ℕ) : tags.count (watch, true) ≤ 1 := by
  by_contra hmany
  obtain ⟨old, after, heq⟩ := append_of_mem (count_pos_iff.mp (by omega : 0 < tags.count (watch, true)))
  rw [heq] at h hmany
  obtain ⟨_, hcons, hcross⟩ := pairwise_append.mp h
  have hold : (watch, true) ∉ old := fun hmem ↦ hcross _ hmem _ mem_cons_self rfl rfl
  have hnew : (watch, true) ∉ after := fun hmem ↦ (pairwise_cons.mp hcons).1 _ hmem rfl rfl
  rw [count_append, count_cons_self, count_eq_zero_of_not_mem hold, count_eq_zero_of_not_mem hnew] at hmany
  omega

theorem Closed.count_eq (h : Closed tags) (hends : (watch, true) ∈ tags) : tags.count (watch, true) = 1 :=
  Nat.le_antisymm (h.count_le watch) (count_pos_iff.mpr hends)

end Closed

/-! ## The invariant -/

/-- The watches in the list have not ended, and neither have those whose end a scan has
yet to report. -/
structure Sound (s : WatchState) (diffs : List Difference) : Prop where
  distinct : KeyedList.Distinct Watch.id s.watches
  ids : ∀ watch ∈ s.watches, 0 < watch.id ∧ watch.id ≤ s.lastId
  known : ∀ tag ∈ s.tags, tag.1 ≤ s.lastId
  closed : Closed s.tags
  live : ∀ watch ∈ s.watches, (watch.id, true) ∉ s.tags
  unique : ((diffs.filter (·.ended)).map (·.watch)).Nodup
  past : ∀ diff ∈ diffs, diff.watch ≤ s.lastId
  came : ∀ diff ∈ diffs, diff.ended = true → diff.came = []
  pending : ∀ diff ∈ diffs, diff.ended = true →
    (∀ watch ∈ s.watches, watch.id ≠ diff.watch) ∧ (diff.watch, true) ∉ s.tags

variable {s s' : WatchState} {ds : List Difference}

variable (h : Sound s ds)
include h

/-- Only the marks of renames differ. -/
theorem Sound.congr {others : List Difference}
    (hbare : others.map Difference.bare = ds.map Difference.bare) : Sound s others := by
  have hmem : ∀ j ∈ others, ∃ diff ∈ ds, j.watch = diff.watch ∧ j.ended = diff.ended ∧
      (diff.came = [] → j.came = []) := by
    intro j hj
    have hmap : j.bare ∈ ds.map Difference.bare := hbare ▸ mem_map_of_mem hj
    obtain ⟨diff, hdiff, heq⟩ := mem_map.mp hmap
    simp only [Difference.bare, Difference.mk.injEq] at heq
    refine ⟨diff, hdiff, heq.1.symm, heq.2.2.2.2.2.2.symm, fun hnil ↦ ?_⟩
    simpa [hnil] using heq.2.2.2.1
  have hends : ∀ list : List Difference, (list.filter (·.ended)).map (·.watch) =
      (((list.map Difference.bare).filter (·.ended)).map (·.watch)) := by
    intro list
    rw [filter_map, map_map]
    rfl
  refine ⟨h.distinct, h.ids, h.known, h.closed, h.live, ?_, fun j hj ↦ ?_, fun j hj hended ↦ ?_,
    fun j hj hended ↦ ?_⟩
  · rw [hends, hbare, ← hends]
    exact h.unique
  · obtain ⟨diff, hdiff, hwatch, _⟩ := hmem j hj
    exact hwatch ▸ h.past diff hdiff
  · obtain ⟨diff, hdiff, _, hsame, hcame⟩ := hmem j hj
    exact hcame (h.came diff hdiff (hsame ▸ hended))
  · obtain ⟨diff, hdiff, hwatch, hsame, _⟩ := hmem j hj
    rw [hwatch]
    exact h.pending diff hdiff (hsame ▸ hended)

omit h in
/-- Nothing comes where a watch is gone. -/
theorem came_of_gone (watch : Watch) : (difference watch .gone).came = [] := by
  simp only [difference, Look.entries]
  cases watch.entries with
  | none => rfl
  | some old => simp [between, cameBetween]

/-- Watches change, but not their ids. -/
theorem Sound.replace (watch : ℕ) (change : Watch → Watch) (hchange : ∀ old, (change old).id = old.id) :
    Sound { s with watches := KeyedList.replace Watch.id watch change s.watches } ds := by
  have hmem : ∀ j ∈ KeyedList.replace Watch.id watch change s.watches, ∃ old ∈ s.watches, old.id =
    j.id := by
    intro j hj
    rcases (mem_replace h.distinct).mp hj with ⟨hold, _⟩ | ⟨old, hbefore, _, rfl⟩
    · exact ⟨j, hold, rfl⟩
    · exact ⟨old, hbefore, (hchange old).symm⟩
  refine ⟨h.distinct.replace fun old heq ↦ (hchange old).trans heq, fun j hj ↦ ?_, h.known, h.closed,
    fun j hj ↦ ?_, h.unique, h.past, h.came,
    fun diff hdiff hended ↦ ⟨fun j hj ↦ ?_, (h.pending diff hdiff hended).2⟩⟩
  all_goals obtain ⟨old, hbefore, heq⟩ := hmem j hj
  · exact heq ▸ h.ids old hbefore
  · exact heq ▸ h.live old hbefore
  · exact heq ▸ (h.pending diff hdiff hended).1 old hbefore

theorem Sound.compareOne (id : ℕ) (x : Look) :
    Sound (s.compareOne id x).1 (ds ++ (s.compareOne id x).2) := by
  cases hfind : find Watch.id id s.watches with
  | none =>
    simp only [WatchState.compareOne, hfind, append_nil]
    exact h
  | some watch =>
    obtain ⟨hwatch, rfl⟩ := (find_eq_some_iff h.distinct).mp hfind
    have hpast (x : Look) : ∀ diff ∈ ds ++ [WatchState.difference watch x], diff.watch ≤ s.lastId :=
      forall_mem_append.mpr ⟨h.past, forall_mem_singleton.mpr (h.ids watch hwatch).2⟩
    cases x with
    | gone =>
      simp only [WatchState.compareOne, hfind]
      have hmem : ∀ j, j ∈ remove Watch.id watch.id s.watches ↔
          j ∈ s.watches ∧ j.id ≠ watch.id := fun j ↦ mem_remove h.distinct
      refine ⟨h.distinct.remove _, fun j hj ↦ h.ids j ((hmem j).mp hj).1, h.known, h.closed,
        fun j hj ↦ h.live j ((hmem j).mp hj).1, ?_, hpast _,
        forall_mem_append.mpr ⟨h.came, forall_mem_singleton.mpr fun _ ↦ came_of_gone watch⟩,
        forall_mem_append.mpr ⟨fun diff hold hended ↦ ?_, forall_mem_singleton.mpr fun _ ↦ ?_⟩⟩
      · rw [filter_append, map_append]
        refine List.Nodup.append h.unique (by simp [WatchState.difference, Look.isGone]) ?_
        simp only [WatchState.difference, Look.isGone, filter_cons_of_pos, filter_nil, map_cons, map_nil,
          disjoint_singleton, mem_map, mem_filter, not_exists, not_and]
        rintro diff ⟨hdiff, hended⟩ heq
        exact (h.pending diff hdiff hended).1 watch hwatch heq.symm
      · obtain ⟨hdead, htag⟩ := h.pending diff hold hended
        exact ⟨fun j hj ↦ hdead j ((hmem j).mp hj).1, htag⟩
      · exact ⟨fun j hj ↦ ((hmem j).mp hj).2, h.live watch hwatch⟩
    | node own entries =>
      simp only [WatchState.compareOne, hfind]
      have hkept := h.replace watch.id (·.after own entries) fun _ ↦ rfl
      refine ⟨hkept.distinct, hkept.ids, h.known, h.closed, hkept.live, ?_, hpast _,
        forall_mem_append.mpr ⟨h.came, forall_mem_singleton.mpr fun hended ↦ by cases hended⟩,
        forall_mem_append.mpr ⟨hkept.pending, forall_mem_singleton.mpr fun hended ↦ by cases hended⟩⟩
      rw [filter_append, map_append]
      simpa [WatchState.difference, Look.isGone] using h.unique

theorem Sound.compare (looks : List (ℕ × Look)) :
    Sound (s.compare looks).1 (ds ++ (s.compare looks).2) := by
  induction looks generalizing s ds with
  | nil =>
    rw [WatchState.compare, append_nil]
    exact h
  | cons look rest ih =>
    rw [WatchState.compare, ← append_assoc]
    exact ih (h.compareOne look.1 look.2)

omit h in
theorem mem_compareOne_of_ne (hdistinct : KeyedList.Distinct Watch.id s.watches) {j : ℕ}
    (x : Look) {watch : Watch}
    (hne : watch.id ≠ j) : watch ∈ (s.compareOne j x).1.watches ↔ watch ∈ s.watches := by
  cases hfind : find Watch.id j s.watches with
  | none => simp only [WatchState.compareOne, hfind]
  | some known =>
    cases x with
    | gone =>
      simp only [WatchState.compareOne, hfind]
      rw [mem_remove hdistinct]
      exact and_iff_left hne
    | node own entries =>
      simp only [WatchState.compareOne, hfind]
      rw [mem_replace hdistinct]
      constructor
      · rintro (⟨hold, _⟩ | ⟨old, _, hid, rfl⟩)
        · exact hold
        · exact absurd hid hne
      · exact fun hold ↦ .inl ⟨hold, hne⟩

omit h in
/-- The ends that are left to report, one difference after the other. -/
theorem closed_report {watches : List Watch} {all : List Difference}
    (hcame : ∀ diff ∈ all, diff.ended = true →
      diff.came = []) (rest : List Difference) {tags : List (ℕ × Bool)} (hclosed : Closed tags)
    (hlive : ∀ watch ∈ watches, (watch.id, true) ∉ tags)
    (hunique : ((rest.filter (·.ended)).map (·.watch)).Nodup)
    (hpending : ∀ diff ∈ rest, diff.ended = true → (∀ watch ∈ watches, watch.id ≠ diff.watch) ∧
      (diff.watch, true) ∉ tags) :
    Closed (tags ++ (rest.flatMap (offersOf all watches)).map tag) ∧
    (∀ watch ∈ watches, (watch.id, true) ∉ tags ++ (rest.flatMap (offersOf all watches)).map tag) := by
  induction rest generalizing tags with
  | nil => simpa using ⟨hclosed, hlive⟩
  | cons diff rest ih =>
    have hrecipient : ∀ tag ∈ (bodyOffers all watches diff).map WatchOffer.tag, tag.2 = false ∧
      (tag.1, true) ∉ tags := by
      intro tag htag
      obtain ⟨offer, hoffer, rfl⟩ := mem_map.mp htag
      obtain ⟨hends, ⟨watch, hwatch, heq⟩ | ⟨hended, heq⟩⟩ := recipient_of_body hcame hoffer
      · exact ⟨hends, by simpa [tag, ← heq] using hlive watch hwatch⟩
      · refine ⟨hends, ?_⟩
        simpa [tag, heq] using (hpending diff mem_cons_self hended).2
    have hbody := hclosed.append hrecipient
    -- The events of the difference end no watch.
    have hsame : ∀ watch, (watch, true) ∈ tags ++ (bodyOffers all watches diff).map tag →
      (watch, true) ∈ tags := by
      intro watch hwatch
      rcases mem_append.mp hwatch with hold | hnew
      · exact hold
      · cases (hrecipient _ hnew).1
    rw [flatMap_cons, map_append, ← append_assoc]
    by_cases hended : diff.ended = true
    · obtain ⟨hdead, htag⟩ := hpending diff mem_cons_self hended
      rw [filter_cons_of_pos hended, map_cons, nodup_cons] at hunique
      have hoffers : (offersOf all watches diff).map tag =
          (bodyOffers all watches diff).map tag ++ [(diff.watch, true)] := by
        rw [offersOf, if_pos hended, map_append, map_singleton, tag_ending]
      rw [hoffers, ← append_assoc tags]
      refine ih (hbody.ended fun hmem ↦ htag (hsame _ hmem)) (fun watch hwatch hmem ↦ ?_) hunique.2
        fun j hj hends ↦ ⟨(hpending j (mem_cons_of_mem _ hj) hends).1, fun hmem ↦ ?_⟩
      · rcases mem_append.mp hmem with hold | hnow
        · exact hlive watch hwatch (hsame _ hold)
        · exact hdead watch hwatch (congrArg Prod.fst (mem_singleton.mp hnow))
      · rcases mem_append.mp hmem with hold | hnow
        · exact (hpending j (mem_cons_of_mem _ hj) hends).2 (hsame _ hold)
        · refine hunique.1 (mem_map.mpr ⟨j, mem_filter.mpr ⟨hj, hends⟩, ?_⟩)
          exact congrArg Prod.fst (mem_singleton.mp hnow)
    · rw [filter_cons_of_neg hended] at hunique
      rw [offersOf, if_neg hended, append_nil]
      exact ih hbody (fun watch hwatch hmem ↦ hlive watch hwatch (hsame _ hmem)) hunique
        fun j hj hends ↦ ⟨(hpending j (mem_cons_of_mem _ hj) hends).1,
          fun hmem ↦ (hpending j (mem_cons_of_mem _ hj) hends).2 (hsame _ hmem)⟩

theorem Sound.report (hmatching : Matching ds) : Sound (s.report ds) [] ∧
      ∀ diff ∈ ds, diff.ended = true → (diff.watch, true) ∈ (s.report ds).tags := by
  have hadds := adds_report hmatching s
  have htags : (s.report ds).tags = s.tags ++ (ds.flatMap (offersOf ds s.watches)).map WatchOffer.tag := by
    rw [hadds.tags, ← map_plain_told, map_map]
    rfl
  obtain ⟨hclosed, hlive⟩ := closed_report h.came ds h.closed h.live h.unique h.pending
  have hknown : ∀ tag ∈ (ds.flatMap (offersOf ds s.watches)).map WatchOffer.tag, tag.1 ≤ s.lastId := by
    intro tag htag
    obtain ⟨offer, hoffer, rfl⟩ := mem_map.mp htag
    obtain ⟨diff, hdiff, hoffer⟩ := mem_flatMap.mp hoffer
    rcases mem_append.mp hoffer with hbody | hending
    · obtain ⟨_, ⟨watch, hwatch, heq⟩ | ⟨_, heq⟩⟩ := recipient_of_body h.came hbody
      · exact heq.symm.trans_le (h.ids watch hwatch).2
      · exact heq.trans_le (h.past diff hdiff)
    · split_ifs at hending
      · obtain rfl := mem_singleton.mp hending
        exact h.past diff hdiff
      · cases hending
  refine ⟨⟨?_, ?_, ?_, ?_, ?_, nodup_nil, ?_, ?_, ?_⟩, fun diff hdiff hended ↦ ?_⟩
  · rw [hadds.watches]
    exact h.distinct
  · rw [hadds.watches, hadds.lastId]
    exact h.ids
  · rw [htags, hadds.lastId]
    exact fun tag htag ↦ (mem_append.mp htag).elim (h.known tag) (hknown tag)
  · rw [htags]
    exact hclosed
  · rw [htags, hadds.watches]
    exact hlive
  · simp
  · simp
  · simp
  · rw [htags]
    refine mem_append_right _ (mem_map.mpr ⟨WatchOffer.ending diff.watch, ?_, WatchOffer.tag_ending _⟩)
    refine mem_flatMap.mpr ⟨diff, hdiff, mem_append_right _ ?_⟩
    rw [if_pos hended]
    exact mem_singleton_self _

/-! ## The consumer -/

/-- The watches and the events offered are as before. -/
theorem Sound.of_eq (hwatches : s'.watches = s.watches) (hlast : s'.lastId = s.lastId)
    (hoffers : s'.offers = s.offers) : Sound s' ds := by
  have htags : s'.tags = s.tags := by rw [tags, hoffers, tags]
  exact ⟨hwatches ▸
    h.distinct, by rw [hwatches, hlast]; exact h.ids, by rw [htags, hlast]; exact h.known, htags ▸ h.closed,
    by rw [hwatches, htags]; exact h.live, h.unique, by rw [hlast]; exact h.past, h.came,
    by rw [hwatches, htags]; exact h.pending⟩

/-- A new watch has an id no event and no difference has. -/
theorem Sound.grow {watch : Watch} (hid : watch.id = s.lastId + 1) :
    Sound { s with lastId := s.lastId + 1, watches := s.watches ++ [watch] } ds := by
  have hcases : ∀ j ∈ s.watches ++ [watch], j ∈ s.watches ∨ j.id = s.lastId + 1 := by
    intro j hj
    rcases mem_append.mp hj with hold | hnow
    · exact .inl hold
    · exact .inr ((congrArg Watch.id (mem_singleton.mp hnow)).trans hid)
  refine ⟨?_, fun j hj ↦ ?_, fun tag htag ↦ (h.known tag htag).trans (Nat.le_succ _), h.closed,
    fun j hj ↦ ?_, h.unique, fun diff hdiff ↦ (h.past diff hdiff).trans (Nat.le_succ _),
    h.came, fun diff hdiff hended ↦ ⟨fun j hj ↦ ?_, (h.pending diff hdiff hended).2⟩⟩
  · rw [KeyedList.Distinct, map_append, map_singleton]
    refine List.Nodup.append h.distinct (nodup_singleton _) ?_
    simp only [disjoint_singleton, mem_map, not_exists, not_and]
    intro j hj heq
    have hbound := (h.ids j hj).2
    omega
  · rcases hcases j hj with hold | heq
    · exact ⟨(h.ids j hold).1, (h.ids j hold).2.trans (Nat.le_succ _)⟩
    · exact ⟨by omega, heq.le⟩
  · rcases hcases j hj with hold | heq
    · exact h.live j hold
    · intro htag
      have hbound : j.id ≤ s.lastId := h.known _ htag
      omega
  · rcases hcases j hj with hold | heq
    · exact (h.pending diff hdiff hended).1 j hold
    · have hbound := h.past diff hdiff
      omega

/-- A watch leaves the list, and its end is offered. -/
theorem Sound.ended {watch : Watch} (hwatch : watch ∈ s.watches)
    (hwatches : s'.watches = remove Watch.id watch.id s.watches) (hlast : s'.lastId = s.lastId)
    (htags : s'.tags = s.tags ++ [(watch.id, true)]) : Sound s' ds := by
  have hmem : ∀ j, j ∈ s'.watches ↔ j ∈ s.watches ∧ j.id ≠ watch.id := by
    intro j
    rw [hwatches]
    exact mem_remove h.distinct
  have hended : ∀ j, j ≠ watch.id → (j, true) ∉ s.tags → (j, true) ∉ s'.tags := by
    intro j hne htag hmem
    rw [htags] at hmem
    rcases mem_append.mp hmem with hold | hnow
    · exact htag hold
    · exact hne (congrArg Prod.fst (mem_singleton.mp hnow))
  refine ⟨hwatches ▸ h.distinct.remove _, fun j hj ↦ hlast ▸ h.ids j ((hmem j).mp hj).1, fun tag htag ↦ ?_,
    htags ▸ h.closed.ended (h.live watch hwatch), fun j hj ↦ ?_, h.unique, hlast ▸ h.past, h.came,
    fun diff hdiff hends ↦ ?_⟩
  · rw [htags] at htag
    rw [hlast]
    rcases mem_append.mp htag with hold | hnow
    · exact h.known tag hold
    · obtain rfl := mem_singleton.mp hnow
      exact (h.ids watch hwatch).2
  · obtain ⟨hold, hne⟩ := (hmem j).mp hj
    exact hended j.id hne (h.live j hold)
  · obtain ⟨hdead, htag⟩ := h.pending diff hdiff hends
    exact ⟨fun j hj ↦ hdead j ((hmem j).mp hj).1, hended diff.watch (Ne.symm (hdead watch hwatch)) htag⟩

omit h

/-- What a call does to the watches, the ids and the events offered. -/
inductive Called (s s' : WatchState) : WatchState.Call → Prop
  | kept {call : WatchState.Call} : (∀ id, call = .remove id → find Watch.id id s.watches = none) →
      s'.watches = s.watches → s'.lastId = s.lastId → s'.offers = s.offers → Called s s' call
  | replaced {events : UInt32} {own : Meta} {entries : Option Entries} {samePath : ℕ → Bool}
      (id : ℕ) (wanted : UInt32) :
      s'.watches = replace Watch.id id ({ · with events := wanted }) s.watches → s'.lastId = s.lastId →
      s'.offers = s.offers → Called s s' (.add events own entries samePath)
  | grown {events : UInt32} {own : Meta} {entries : Option Entries} {samePath : ℕ → Bool} (watch : Watch) :
      watch.id = s.lastId + 1 → s'.watches = s.watches ++ [watch] → s'.lastId = s.lastId + 1 →
      s'.offers = s.offers → Called s s' (.add events own entries samePath)
  | removed (id : ℕ) (watch : Watch) : find Watch.id id s.watches = some watch →
      s'.watches = remove Watch.id id s.watches → s'.lastId = s.lastId →
      s'.offers = s.offers ++ [ending id] → Called s s' (.remove id)

theorem called (call : WatchState.Call) (s : WatchState) : Called s (s.call call) call := by
  cases call with
  | add events own entries samePath =>
    have hcall {id : ℕ} (h : WatchState.Call.add events own entries samePath = .remove id) :
        find Watch.id id s.watches = none := by cases h
    change Called s (s.add events own entries samePath).2 _
    unfold WatchState.add
    repeat' split
    · exact .kept (fun _ ↦ hcall) rfl rfl rfl
    · exact .kept (fun _ ↦ hcall) rfl rfl rfl
    · exact .replaced _ _ rfl rfl rfl
    · exact .kept (fun _ ↦ hcall) rfl rfl rfl
    · exact .grown _ rfl rfl rfl rfl
  | remove id =>
    cases hfind : find Watch.id id s.watches with
    | none =>
      simp only [WatchState.call, WatchState.remove, hfind]
      exact .kept (fun j heq ↦ WatchState.Call.remove.inj heq ▸ hfind) rfl rfl rfl
    | some watch =>
      have hadds := Adds.push 0 (ending id) { s with watches := remove Watch.id id s.watches }
      rw [offered_ending] at hadds
      simp only [WatchState.call, WatchState.remove, hfind]
      exact .removed id watch hfind hadds.watches hadds.lastId hadds.offers
  | read =>
    change Called s s.read _
    unfold WatchState.read
    split <;> exact .kept (fun _ h ↦ by cases h) rfl rfl rfl
  | close => exact .kept (fun _ h ↦ by cases h) rfl rfl rfl

theorem Sound.call (h : Sound s ds) (call : WatchState.Call) : Sound (s.call call) ds := by
  cases called call s with
  | kept _ hwatches hlast hoffers => exact h.of_eq hwatches hlast hoffers
  | replaced id wanted hwatches hlast hoffers =>
    exact (h.replace id ({ · with events := wanted }) fun _ ↦ rfl).of_eq hwatches hlast hoffers
  | grown watch hid hwatches hlast hoffers => exact (h.grow hid).of_eq hwatches hlast hoffers
  | removed id watch hfind hwatches hlast hoffers =>
    obtain ⟨hwatch, rfl⟩ := (find_eq_some_iff h.distinct).mp hfind
    refine h.ended hwatch hwatches hlast ?_
    rw [tags, hoffers, map_append, map_singleton, tag_ending]
    rfl

/-! ## Runs -/

/-- The differences a scan has yet to report. -/
def Scanner.unreported : Scanner → List Difference
  | .looking _ _ unreported => unreported
  | _ => []

/-- The watches a look asks about. -/
def Scanner.targets : Scanner → List ℕ
  | .looking _ targets _ => targets
  | _ => []

/-- A watcher with what has happened: the ids of new watches, the removes that succeeded, and the
watches that a scan that reported found gone. -/
structure Watcher where
  state : WatchState
  scanner : Scanner
  granted : List ℕ
  removals : List ℕ
  gone : List ℕ

namespace Watcher

inductive Action
  | call (call : WatchState.Call)
  | scan
  | look (found : ℕ → Option Look)

def initial : Watcher := ⟨⟨[], false, [], 0, 0, false, []⟩, .waiting, [], [], []⟩

/-- The new watch of a call, and the watch it removes. -/
def grantedBy (call : WatchState.Call) (s : WatchState) : List ℕ :=
  if (s.call call).lastId = s.lastId then [] else [(s.call call).lastId]

def removedBy (call : WatchState.Call) (s : WatchState) : List ℕ :=
  match call with
  | .remove watch => if (s.remove watch).1 = .ok () then [watch] else []
  | _ => []

/-- The differences a look leads the scan to report. -/
def reported (passes : ℕ) (targets : List ℕ) (diffs : List Difference) (found : ℕ → Option Look)
    (s : WatchState) :
    List Difference :=
  let (_, new) := s.compare (targets.filterMap fun id ↦ (found id).map (id, ·))
  if unpaired ((pair (diffs ++ new)).drop diffs.length) = true ∧ passes ≠ 0 then [] else pair (diffs ++ new)

def next : Action → Watcher → Option Watcher
  | .call call, w =>
    some { w with
      state := w.state.call call
      granted := w.granted ++ grantedBy call w.state
      removals := w.removals ++ removedBy call w.state }
  | .scan, w =>
    match w.scanner with
    | .waiting => some { w with scanner := w.state.beginPass 2 [] }
    | _ => none
  | .look found, w =>
    match w.scanner with
    | .looking passes targets diffs =>
      let (s, scanner) := w.state.endPass passes targets diffs found
      some { w with
        state := s
        scanner := scanner
        gone := w.gone ++ ((reported passes targets diffs found w.state).filter (·.ended)).map (·.watch) }
    | _ => none

def machine : Machine Watcher Action where
  start := initial
  next := next

/-- The invariant of a watcher. -/
structure Steady (w : Watcher) : Prop where
  sound : Sound w.state w.scanner.unreported
  matching : Matching w.scanner.unreported
  granted : w.granted.Pairwise (· < ·) ∧ ∀ id ∈ w.granted, 0 < id ∧ id ≤ w.state.lastId
  removals : w.removals.Nodup ∧ ∀ id ∈ w.removals, (id, true) ∈ w.state.tags
  gone : ∀ id ∈ w.gone, (id, true) ∈ w.state.tags

variable {w after : Watcher}

theorem steady_initial : Steady initial where
  sound := ⟨nodup_nil, by simp [initial], by simp [initial, tags], List.Pairwise.nil, by simp [initial],
    nodup_nil, by simp [initial, Scanner.unreported], by simp [initial, Scanner.unreported],
    by simp [initial, Scanner.unreported]⟩
  matching := matching_nil
  granted := ⟨List.Pairwise.nil, by simp [initial]⟩
  removals := ⟨nodup_nil, by simp [initial]⟩
  gone := by simp [initial]

end Watcher

/-! What a call and a look do to the events offered so far. -/

theorem lastId_call (call : WatchState.Call) (s : WatchState) :
    (s.call call).lastId = s.lastId ∨ (s.call call).lastId = s.lastId + 1 := by
  cases called call s with
  | kept _ _ hlast | replaced _ _ _ hlast | removed _ _ _ _ hlast => exact .inl hlast
  | grown _ _ _ hlast => exact .inr hlast

theorem tags_call (call : WatchState.Call) (s : WatchState) {tag : ℕ × Bool} (htag : tag ∈ s.tags) :
    tag ∈ (s.call call).tags := by
  cases called call s with
  | kept _ _ _ hoffers | replaced _ _ _ _ hoffers | grown _ _ _ _ hoffers => rwa [tags, hoffers]
  | removed _ _ _ _ _ hoffers =>
    rw [tags, hoffers, map_append]
    exact mem_append_left _ htag

/-- A remove that succeeds finds its watch and tells its end. -/
theorem Watcher.mem_removedBy {call : WatchState.Call} {id : ℕ} (h : id ∈ Watcher.removedBy call s) :
    (∃ watch, find Watch.id id s.watches = some watch) ∧ (id, true) ∈ (s.call call).tags := by
  cases call with
  | remove watch =>
    simp only [Watcher.removedBy] at h
    split_ifs at h with hok
    · obtain rfl := mem_singleton.mp h
      cases called (.remove id) s with
      | kept hnone => simp [WatchState.remove, hnone id rfl] at hok
      | removed _ watch hfind _ _ hoffers =>
        refine ⟨⟨watch, hfind⟩, ?_⟩
        rw [tags, hoffers, map_append, map_singleton, tag_ending]
        exact mem_append_right _ (mem_singleton_self _)
    · cases h
  | add | read | close => cases h

theorem offers_compare (looks : List (ℕ × Look)) (s : WatchState) :
    (s.compare looks).1.offers = s.offers ∧ (s.compare looks).1.lastId = s.lastId := by
  induction looks generalizing s with
  | nil => exact ⟨rfl, rfl⟩
  | cons look rest ih =>
    have hone : (s.compareOne look.1 look.2).1.offers = s.offers ∧
      (s.compareOne look.1 look.2).1.lastId = s.lastId := by
      unfold compareOne
      split <;> exact ⟨rfl, rfl⟩
    obtain ⟨hoffers, hlast⟩ := ih (s.compareOne look.1 look.2).1
    exact ⟨hoffers.trans hone.1, hlast.trans hone.2⟩

theorem unreported_beginPass (passes : ℕ) (ds : List Difference) (s : WatchState)
    (h : Sound s ds) (hmatching : Matching ds) :
    Sound s (s.beginPass passes ds).unreported ∧ Matching (s.beginPass passes ds).unreported := by
  unfold beginPass
  split_ifs
  · exact ⟨⟨h.distinct, h.ids, h.known, h.closed, h.live, nodup_nil, by simp [Scanner.unreported],
      by simp [Scanner.unreported], by simp [Scanner.unreported]⟩, matching_nil⟩
  · exact ⟨h, hmatching⟩

namespace Watcher

variable {w after : Watcher}

theorem Steady.call (h : Steady w) (call : WatchState.Call)
    (hnext : next (.call call) w = some after) : Steady after := by
  obtain rfl := (Option.some.inj hnext).symm
  refine ⟨h.sound.call call, h.matching, ⟨?_, fun id hid ↦ ?_⟩, ⟨?_, fun id hid ↦ ?_⟩, fun id hid ↦
    tags_call call _ (h.gone id hid)⟩
  · refine pairwise_append.mpr ⟨h.granted.1, ?_, fun old hold new hnew ↦ ?_⟩
    · unfold grantedBy
      split_ifs
      · exact List.Pairwise.nil
      · exact pairwise_singleton ..
    · have hbound := (h.granted.2 old hold).2
      unfold grantedBy at hnew
      split_ifs at hnew with hsame
      · cases hnew
      · rw [mem_singleton.mp hnew]
        rcases lastId_call call w.state with heq | heq
        · exact absurd heq hsame
        · omega
  · have hlast := lastId_call call w.state
    rcases mem_append.mp hid with hold | hnew
    · have hbound := h.granted.2 id hold
      exact ⟨hbound.1, by simp only; omega⟩
    · unfold grantedBy at hnew
      split_ifs at hnew with hsame
      · cases hnew
      · rw [mem_singleton.mp hnew]
        exact ⟨by omega, le_rfl⟩
  · refine List.Nodup.append h.removals.1 ?_ fun id hold hnew ↦ ?_
    · unfold removedBy
      repeat' split
      all_goals simp
    · obtain ⟨⟨removed, hfind⟩, _⟩ := mem_removedBy hnew
      obtain ⟨hremoved, rfl⟩ := (find_eq_some_iff h.sound.distinct).mp hfind
      exact h.sound.live removed hremoved (h.removals.2 _ hold)
  · exact (mem_append.mp hid).elim (fun hold ↦ tags_call call _ (h.removals.2 id hold)) fun hnew ↦
      (mem_removedBy hnew).2

theorem Steady.look (h : Steady w) {passes : ℕ} {targets : List ℕ}
    (hscanner : w.scanner = .looking passes targets ds) (x : ℕ → Option Look)
    (hnext : next (.look x) w = some after) : Steady after := by
  have hs : Sound w.state ds := by simpa [hscanner, Scanner.unreported] using h.sound
  have hbefore : Matching ds := by simpa [hscanner, Scanner.unreported] using h.matching
  simp only [next, hscanner, Option.some.injEq, reported, endPass] at hnext
  generalize (targets.filterMap fun id ↦ (x id).map (id, ·)) = looks at *
  have hcompared := hs.compare looks
  have hfresh := @fresh_compare w.state looks
  obtain ⟨hoffers, hlast⟩ := offers_compare looks w.state
  generalize w.state.compare looks = compared at *
  obtain ⟨seen, new⟩ := compared
  have hpaired : Sound seen (pair (ds ++ new)) := hcompared.congr (map_bare_pair _)
  have hmatching : Matching (pair (ds ++ new)) := (hbefore.append hfresh).pair
  have htags : seen.tags = w.state.tags := congrArg (map tag) hoffers
  dsimp only at hlast
  subst hnext
  split_ifs with hagain
  · -- Another look follows, and nothing is offered.
    obtain ⟨hsound, hmatched⟩ := unreported_beginPass (passes - 1) _ _ hpaired hmatching
    refine ⟨hsound, hmatched, ?_, ?_, ?_⟩
    · simp only [hlast]
      exact h.granted
    · simp only [htags]
      exact h.removals
    · simp only [htags, filter_nil, map_nil, append_nil]
      exact h.gone
  all_goals
    obtain ⟨hfinal, hended⟩ := hpaired.report hmatching
    have hadds := adds_report hmatching seen
    have hgrow : ∀ tag ∈ w.state.tags, tag ∈ (seen.report (pair (ds ++ new))).tags := by
      intro tag htag
      rw [hadds.tags, htags]
      exact mem_append_left _ htag
    refine ⟨hfinal, matching_nil, ?_, ⟨h.removals.1, fun id hid ↦ hgrow _ (h.removals.2 id hid)⟩,
      fun id hid ↦ ?_⟩
    · simp only [hadds.lastId, hlast]
      exact h.granted
    · rcases mem_append.mp hid with hold | hnew
      · exact hgrow _ (h.gone id hold)
      · obtain ⟨diff, hdiff, rfl⟩ := mem_map.mp hnew
        obtain ⟨hmem, hends⟩ := mem_filter.mp hdiff
        exact hended diff hmem hends

theorem Steady.next {action : Action} (h : Steady w) (hnext : next action w = some after) :
    Steady after := by
  cases action with
  | call call => exact h.call call hnext
  | scan =>
    simp only [Watcher.next] at hnext
    split at hnext
    · next hscanner =>
      cases hnext
      have hs : Sound w.state [] := by simpa [hscanner, Scanner.unreported] using h.sound
      obtain ⟨hbegun, hmatching⟩ := unreported_beginPass 2 _ _ hs matching_nil
      exact ⟨hbegun, hmatching, h.granted, h.removals, h.gone⟩
    · cases hnext
  | look x =>
    cases hscanner : w.scanner with
    | looking passes targets ds => exact h.look hscanner x hnext
    | waiting | returned => simp [Watcher.next, hscanner] at hnext

theorem steady_of_reachable (hreach : machine.runs.Reachable w) : Steady w :=
  Machine.invariant steady_initial (fun _ _ _ _ h hnext ↦ h.next hnext) hreach

/-- A difference says that the watch ended. -/
def EndsIn (id : ℕ) (diffs : List Difference) : Prop := ∃ diff ∈ diffs, diff.watch = id ∧ diff.ended = true

theorem EndsIn.pair {id : ℕ} (h : EndsIn id ds) : EndsIn id (pair ds) := by
  obtain ⟨diff, hdiff, hwatch, hended⟩ := h
  obtain ⟨same, hsame, heq⟩ := mem_map.mp ((map_bare_pair _).symm ▸ mem_map_of_mem hdiff)
  exact ⟨same, hsame, (congrArg Difference.watch heq).trans hwatch,
    (congrArg Difference.ended heq).trans hended⟩

end Watcher

end DotnetPal.Desktop
