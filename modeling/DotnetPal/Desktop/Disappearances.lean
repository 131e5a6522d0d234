import DotnetPal.Desktop.Departures

/-!
# Disappearances

The departures a scan has collected are reported at its end, against the watches as they are then.
Those collected for a watch before it was found gone find no watch any more that wants them, so they
are lost; what the watch still knew when it was found gone is reported before its end.
-/

open Std List

namespace DotnetPal.Desktop

open Programs WatchOffer

/-! ## Departures that are reported -/

/-- Whether an event says of an entry of a watch that it went. -/
def WatchOffer.departs (id : ℕ) (name : Name) (info : Meta) (offer : WatchOffer) : Bool :=
  offer.watch = id && offer.name = name && offer.subject.any info.sameNode &&
    offer.events &&& (Watches.delete ||| Watches.movedFrom) ≠ 0

section Reported

variable {id : ℕ} {name : Name} {info : Meta} {ds : List Difference} {watches : List Watch}
  {diff : Difference}

variable {offer : WatchOffer}

variable (h : offer.events &&& (Watches.delete ||| Watches.movedFrom) = 0)
include h

theorem departs_of_events :
    offer.departs id name info = false := by
  simp [departs, h]

theorem countP_offered_of_events {wanted : UInt32} :
    (offered wanted offer).countP (departs id name info) = 0 := by
  unfold offered
  split_ifs
  · simp [departs_of_events h]
  · rfl

omit h

/-- The event of an entry that went. -/
theorem countP_offered_went (went : Went) {kind : UInt32}
    (hkind : kind = Watches.delete ∨ kind = Watches.movedFrom)
    (hwants : WantsBoth (wantedOf watches diff)) :
    (offered (wantedOf watches diff)
      ⟨diff.watch, kind ||| went.info.mark, 0, went.name, some went.info⟩).countP
      (departs id name info) = if diff.watch = id ∧ went.isEntry name info = true then 1 else 0 := by
  have hwanted : wantedOf watches diff &&& kind ≠ 0 := by
    rcases hkind with rfl | rfl
    · exact hwants.1
    · exact hwants.2
  have hbits : (kind ||| went.info.mark) &&& (Watches.delete ||| Watches.movedFrom) ≠ 0 := by
    intro hzero
    have hkept := ((or_and_eq_zero _ _ _).mp hzero).1
    rcases hkind with rfl | rfl <;> exact absurd hkept (by decide)
  rw [offered, if_pos (wants_of_kind hwanted), countP_singleton]
  simp only [departs, hbits, Went.isEntry, Option.any_some, ne_eq, not_false_eq_true, decide_true,
    Bool.and_true, Bool.and_eq_true, decide_eq_true_eq, and_assoc]

theorem countP_offered_unwanted (hnot : wantedOf watches diff = 0 ∨ diff.watch ≠ id)
    (hwatch : offer.watch = diff.watch) (hevents : offer.events &&& Watches.removed = 0) :
    (offered (wantedOf watches diff) offer).countP (departs id name info) = 0 := by
  rcases hnot with hzero | hj
  · rw [offered, hzero, wants_zero hevents]
    rfl
  · unfold offered
    split_ifs
    · simp [departs, hwatch, hj]
    · rfl

theorem countP_cameOffers (came : Came) :
    (cameOffers watches diff came).countP (departs id name info) = 0 := by
  unfold cameOffers
  split_ifs
  · rfl
  · exact countP_offered_of_events (and_mark_eq_zero _ (by decide) (by decide))

theorem countP_changeOffers (change : Name × UInt32) :
    (changeOffers watches diff change).countP (departs id name info) = 0 := by
  rw [countP_eq_zero]
  intro offer hoffer
  simp only [changeOffers, mem_flatMap, mem_cons, not_mem_nil, or_false] at hoffer
  obtain ⟨kind, hkind, hoffer⟩ := hoffer
  split_ifs at hoffer
  · have hevents :
      (kind ||| (change.2 &&& Watches.directory)) &&& (Watches.delete ||| Watches.movedFrom) = 0 :=
      and_changes_eq_zero _ (by rcases hkind with rfl | rfl <;> decide) (by decide)
    exact countP_eq_zero.mp (countP_offered_of_events hevents) offer hoffer
  · cases hoffer

theorem countP_wentOffers {went : Went} (hplaced : ∀ p, went.half = some p →
      ∃ target came, ds[p.1]? = some target ∧ target.came[p.2]? = some came)
    (hwants : WantsBoth (wantedOf watches diff)) :
    (wentOffers ds watches diff went).countP (departs id name info) =
      if diff.watch = id ∧ went.isEntry name info = true then 1 else 0 := by
  cases hhalf : went.half with
  | none =>
    rw [wentOffers, hhalf]
    exact countP_offered_went went (.inl rfl) hwants
  | some p =>
    obtain ⟨target, came, htarget, hcame⟩ := hplaced p hhalf
    simp only [wentOffers, hhalf, htarget, Option.bind_some, hcame, Option.map_some, countP_append]
    rw [countP_offered_went went (.inr rfl) hwants,
      countP_offered_of_events (and_mark_eq_zero _ (by decide) (by decide)), Nat.add_zero]

theorem countP_wentOffers_unwanted {went : Went} (hnot : wantedOf watches diff = 0 ∨ diff.watch ≠ id) :
    (wentOffers ds watches diff went).countP (departs id name info) = 0 := by
  unfold wentOffers
  split
  · split
    · rw [countP_append, countP_offered_unwanted hnot rfl (and_mark_eq_zero _ (by decide) (by decide)),
        countP_offered_of_events (and_mark_eq_zero _ (by decide) (by decide))]
    · rfl
  · exact countP_offered_unwanted hnot rfl (and_mark_eq_zero _ (by decide) (by decide))

/-- Only what went departs. -/
theorem countP_bodyOffers (ds : List Difference) (watches : List Watch) (diff : Difference) :
    (bodyOffers ds watches diff).countP (departs id name info) = (diff.went.map fun went ↦
        (wentOffers ds watches diff went).countP (departs id name info)).sum := by
  have hzero : ∀ {α : Type} (list : List α) (each : α → List WatchOffer),
      (∀ item, (each item).countP (departs id name info) = 0) →
      (list.flatMap each).countP (departs id name info) = 0 := by
    intro α list each heach
    rw [countP_flatMap]
    exact sum_eq_zero fun n hn ↦ by
      obtain ⟨item, _, rfl⟩ := mem_map.mp hn
      exact heach item
  rw [bodyOffers, countP_append, countP_append, hzero _ _ countP_cameOffers, hzero _ _ countP_changeOffers,
    countP_flatMap, Nat.add_zero]
  rfl

theorem countP_body_of_wants (hmatching : Matching ds) (hmem : diff ∈ ds)
    (hwants : WantsBoth (wantedOf watches diff)) :
    (bodyOffers ds watches diff).countP (departs id name info) = departuresIn id name info diff := by
  have hwent : diff.went.map (fun went ↦
        (wentOffers ds watches diff went).countP (departs id name info)) =
      diff.went.map fun went ↦ if diff.watch = id ∧ went.isEntry name info = true then 1 else 0 :=
    map_congr_left fun went hwent ↦ countP_wentOffers (fun _ ↦ hmatching.half_of_mem hmem hwent) hwants
  rw [countP_bodyOffers, hwent, departuresIn]
  by_cases hid : diff.watch = id
  · simp only [hid, true_and, if_true]
    induction diff.went with
    | nil => rfl
    | cons went rest ih => rw [map_cons, sum_cons, ih, countP_cons, Nat.add_comm]
  · simp [hid]

theorem countP_body_of_unwanted (hnot : wantedOf watches diff = 0 ∨ diff.watch ≠ id) :
    (bodyOffers ds watches diff).countP (departs id name info) = 0 := by
  rw [countP_bodyOffers]
  exact sum_eq_zero fun n hn ↦ by
    obtain ⟨went, _, rfl⟩ := mem_map.mp hn
    exact countP_wentOffers_unwanted hnot

theorem departs_ending (watch : ℕ) : (ending watch).departs id name info = false := by
  simp [ending, departs]

theorem countP_offersOf (ds : List Difference) (watches : List Watch) (diff : Difference) :
    (offersOf ds watches diff).countP (departs id name info) =
      (bodyOffers ds watches diff).countP (departs id name info) := by
  rw [offersOf, countP_append]
  split_ifs
  · simp [departs_ending]
  · rfl

end Reported

/-! ## Whole scans -/

/-- The events offered between two states say of an entry that it went as often as the course does;
where the watch ended, they say so before its end. -/
structure Reports (id : ℕ) (name : Name) (info : Meta) (s s' : WatchState) (now : Course)
    (added : List WatchOffer) : Prop where
  offers : s'.offers.map plain = s.offers.map plain ++ added
  count : added.countP (departs id name info) = now.departures
  ended : ∀ known, now = .ended known → ∃ before after, added = before ++ ending id :: after ∧
    before.countP (departs id name info) = now.departures
  watches : ∀ known, now = .ended known → ∀ watch ∈ s'.watches, watch.id ≠ id
  live : ∀ entries departures, now = .live entries departures → ∃ watch ∈ s'.watches, watch.id = id

section Scans

variable {id : ℕ} {name : Name} {info : Meta} {s middle s' : WatchState} {ds : List Difference} {now : Course}

/-- The report tells what was collected. -/
theorem Follows.report (h : Follows id name info s ds now) (hs : Sound s ds) (hmatching : Matching ds) :
    ∃ added, Reports id name info s (s.report ds) now added := by
  have hadds := WatchState.adds_report hmatching s
  have hoffers : (s.report ds).offers.map plain =
      s.offers.map plain ++ ds.flatMap (offersOf ds s.watches) := by
    rw [hadds.offers, map_append, map_plain_told]
  refine ⟨ds.flatMap (offersOf ds s.watches), ?_⟩
  cases now with
  | live entries departures =>
    obtain ⟨⟨watch, hwatch, hid, _, hwants⟩, hopen, hsum⟩ := h
    refine ⟨hoffers, ?_, (fun known heq ↦ by cases heq), (fun known heq ↦ by cases heq),
      fun _ _ _ ↦ ⟨watch, hadds.watches ▸ hwatch, hid⟩⟩
    have heach : ∀ diff ∈ ds, (offersOf ds s.watches diff).countP
        (departs id name info) = departuresIn id name info diff := by
      intro diff hmem
      rw [countP_offersOf]
      by_cases hsame : diff.watch = id
      · refine countP_body_of_wants hmatching hmem ?_
        have hfind : KeyedList.find Watch.id diff.watch s.watches = some watch :=
          (KeyedList.find_eq_some_iff hs.distinct).mpr ⟨hwatch, hid.trans hsame.symm⟩
        rw [wantedOf, hopen diff hmem hsame, hfind]
        exact hwants
      · rw [countP_body_of_unwanted (.inr hsame), departuresIn, if_neg hsame]
    rw [countP_flatMap, Course.departures, ← hsum]
    exact congrArg sum (map_congr_left heach)
  | ended known =>
    obtain ⟨hdead, diff, hdiff, hid, hended, hwants, hn⟩ := h
    obtain ⟨old, new, hsplit⟩ := append_of_mem hdiff
    -- What was collected for the watch before it ended finds nobody who wants it.
    have hothers : ∀ j ∈ old ++ new, (offersOf ds s.watches j).countP (departs id name info) = 0 := by
      intro j hj
      rw [countP_offersOf]
      refine countP_body_of_unwanted ?_
      by_cases hsame : j.watch = id
      · left
        have hopen : j.ended = false := by
          by_contra hends
          have hunique := hs.unique
          rw [hsplit, filter_append, filter_cons_of_pos hended, map_append, map_cons,
            nodup_middle, nodup_cons, ← map_append, ← filter_append] at hunique
          exact hunique.1 (mem_map.mpr ⟨j, mem_filter.mpr ⟨hj, by simpa using hends⟩, hsame.trans hid.symm⟩)
        have hfind : KeyedList.find Watch.id j.watch s.watches = none :=
          KeyedList.find_eq_none_iff.mpr fun watch hwatch ↦ hsame ▸ hdead watch hwatch
        simp [wantedOf, hopen, hfind]
      · exact .inr hsame
    have hzero : ∀ list : List Difference, (∀ j ∈ list, j ∈ old ++ new) →
        (list.flatMap (offersOf ds s.watches)).countP (departs id name info) = 0 := by
      intro list hlist
      rw [countP_flatMap]
      exact sum_eq_zero fun n hmem ↦ by
        obtain ⟨j, hj, rfl⟩ := mem_map.mp hmem
        exact hothers j (hlist j hj)
    have hbody : (bodyOffers ds s.watches diff).countP (departs id name info) =
        if known then 1 else 0 := by
      rw [countP_body_of_wants hmatching hdiff (by rw [wantedOf, if_pos hended]; exact hwants)]
      exact hn
    have hadded : ds.flatMap (offersOf ds s.watches) =
        (old.flatMap (offersOf ds s.watches) ++ bodyOffers ds s.watches diff) ++
          ending id :: new.flatMap (offersOf ds s.watches) := by
      have hflat : ∀ each : Difference → List WatchOffer,
          ds.flatMap each = old.flatMap each ++ (each diff ++ new.flatMap each) := by
        intro each
        rw [hsplit, flatMap_append, flatMap_cons]
      rw [hflat, offersOf, if_pos hended, hid]
      simp only [append_assoc, singleton_append]
    have ha : (old.flatMap (offersOf ds s.watches) ++ bodyOffers ds s.watches diff).countP
        (departs id name info) = if known then 1 else 0 := by
      rw [countP_append, hzero old fun j ↦ mem_append_left _, hbody, Nat.zero_add]
    refine ⟨hoffers, ?_, fun _ _ ↦ ⟨_, _, hadded, ha⟩, fun _ _ ↦ hadds.watches ▸ hdead,
      fun _ _ heq ↦ by cases heq⟩
    rw [hadded, countP_append, ha, countP_cons, hzero new fun j ↦ mem_append_right _, departs_ending]
    rfl

/-- A call offers no departure. -/
theorem offers_call (id : ℕ) (name : Name) (info : Meta) (call : WatchState.Call) (s : WatchState) :
    ∃ added, (s.call call).offers.map plain = s.offers.map plain ++ added ∧
      added.countP (departs id name info) = 0 := by
  cases called call s with
  | kept _ _ _ hoffers | replaced _ _ _ _ hoffers | grown _ _ _ _ hoffers =>
    exact ⟨[], by rw [hoffers, append_nil], rfl⟩
  | removed watch _ _ _ _ hoffers =>
    exact ⟨[ending watch], by rw [hoffers, map_append]; rfl, by simp [departs_ending]⟩

theorem offers_calls (id : ℕ) (name : Name) (info : Meta) (calls : List WatchState.Call) (s : WatchState) :
    ∃ added, (calls.foldl (fun s call ↦ s.call call) s).offers.map plain =
        s.offers.map plain ++ added ∧ added.countP (departs id name info) = 0 := by
  induction calls generalizing s with
  | nil => exact ⟨[], by simp, rfl⟩
  | cons call rest ih =>
    obtain ⟨a, ha, hnone⟩ := offers_call id name info call s
    obtain ⟨later, hlater, hnever⟩ := ih (s.call call)
    refine ⟨a ++ later, ?_, by rw [countP_append, hnone, hnever]⟩
    rw [foldl_cons, hlater, ha, append_assoc]

/-- Events that are no departures come before. -/
theorem Reports.after {a added : List WatchOffer} (h : Reports id name info middle s' now added)
    (ha : middle.offers.map plain = s.offers.map plain ++ a)
    (hnone : a.countP (departs id name info) = 0) : Reports id name info s s' now (a ++ added) where
  offers := by rw [h.offers, ha, append_assoc]
  count := by rw [countP_append, hnone, h.count, Nat.zero_add]
  ended := by
    intro known hnow
    obtain ⟨before, after, hadded, hcount⟩ := h.ended known hnow
    exact ⟨a ++
      before, after, by rw [hadded, append_assoc], by rw [countP_append, hnone, hcount, Nat.zero_add]⟩
  watches := h.watches
  live := h.live

theorem Follows.scan {passes : ℕ} {looks : List Pass} (h : Follows id name info s ds now)
    (hs : Sound s ds) (hmatching : Matching ds) (hattended : Attended id looks s)
    (hscan : s.scan passes ds looks = some s') :
    ∃ added, Reports id name info s s' ((looks.map (·.found id)).foldl (Course.look name info) now)
      added := by
  induction looks generalizing passes ds s now with
  | nil => cases hscan
  | cons pass rest ih =>
    obtain ⟨hspares, hrest⟩ := hattended
    obtain ⟨hpassed, hsound'⟩ := h.passed hs hspares
    have hmatching' : Matching (s.collected ds pass) := (hmatching.append fresh_compare).pair
    obtain ⟨a, ha, hnone⟩ := offers_calls id name info pass.calls s
    have hseen : (s.passed pass).1.offers.map plain = s.offers.map plain ++ a := by
      rw [WatchState.passed, (offers_compare _ _).1, ha]
    rw [WatchState.scan] at hscan
    split_ifs at hscan with hclosing hagain hlast
    · obtain ⟨added, hadded⟩ := ih hpassed hsound' hmatching' hrest hscan
      exact ⟨_, hadded.after hseen hnone⟩
    · obtain rfl := isEmpty_iff.mp hlast
      cases hscan
      obtain ⟨added, hadded⟩ := hpassed.report hsound' hmatching'
      exact ⟨_, hadded.after hseen hnone⟩

end Scans

/-- The entry is offered exactly once as DELETE or MOVED_FROM of the watch, before REMOVED where
the watch ended. -/
def OfferedOnce (id : ℕ) (name : Name) (info : Meta) (s s' : WatchState) : Prop :=
  ∃ added, s'.offers.map plain = s.offers.map plain ++ added ∧
    added.countP (departs id name info) = 1 ∧
    ((∀ watch ∈ s'.watches, watch.id ≠ id) → ∃ before after, added = before ++ ending id :: after ∧
      before.countP (departs id name info) = 1)

/-- No watch of the id knows the entry. -/
def Vanished (id : ℕ) (name : Name) (info : Meta) (s : WatchState) : Prop :=
  ∀ watch ∈ s.watches, watch.id = id → watch.entries.any (knows name info) = false

namespace Watcher

/-- A look and the calls meanwhile. -/
theorem run_pass {w : Watcher} {passes : ℕ} {targets : List ℕ} {ds : List Difference}
    (h : w.scanner = .looking passes targets ds) (calls : List WatchState.Call) (found : ℕ → Option Look) :
    ∃ new, (∀ later, machine.run (calls.map .call ++ .look found :: later) w = machine.run later new) ∧
      (new.state, new.scanner) =
        (calls.foldl (fun s call ↦ s.call call) w.state).endPass passes targets ds found := by
  induction calls generalizing w with
  | nil =>
    cases w
    cases h
    exact ⟨_, fun _ ↦ rfl, rfl⟩
  | cons call rest ih => exact ih h

/-- No look ends where none began. -/
theorem run_pass_none {w : Watcher} (h : ∀ passes targets ds, w.scanner ≠ .looking passes targets ds)
    (pass : Pass) (later : List Action) : machine.run (pass.actions ++ later) w = none := by
  obtain ⟨calls, found⟩ := pass
  induction calls generalizing w with
  | nil =>
    obtain ⟨state, scanner, _⟩ := w
    cases scanner with
    | looking passes targets ds => exact absurd rfl (h passes targets ds)
    | waiting | returned => rfl
  | cons call rest ih => exact ih h

/-- The looks of a scan and the calls meanwhile are steps of the watcher, and steps that come to a
report are such a scan. -/
theorem run_of_scan {w : Watcher} {passes : ℕ} {ds : List Difference} {looks : List Pass}
    (hscanner : w.scanner = w.state.beginPass passes ds) :
    (∀ s', w.state.scan passes ds looks = some s' →
      ∃ new, machine.run (looks.flatMap Pass.actions) w = some new ∧ new.state = s') ∧
    ∀ new, machine.run (looks.flatMap Pass.actions) w = some new → new.scanner = .waiting →
      w.state.scan passes ds looks = some new.state := by
  induction looks generalizing w passes ds with
  | nil =>
    refine ⟨nofun, fun new hrun hwaiting ↦ ?_⟩
    cases hrun
    rw [hscanner, WatchState.beginPass] at hwaiting
    split_ifs at hwaiting
  | cons pass rest ih =>
    rw [WatchState.scan]
    rw [WatchState.beginPass] at hscanner
    split_ifs at hscanner ⊢ with hclosing hagain hlast
    · refine ⟨nofun, fun new hrun ↦ ?_⟩
      rw [flatMap_cons, run_pass_none (by simp [hscanner])] at hrun
      cases hrun
    all_goals
      obtain ⟨seen, hrun, hend⟩ := run_pass hscanner pass.calls pass.found
      rw [flatMap_cons, Pass.actions, append_assoc, singleton_append, hrun]
    · obtain ⟨hstate, hnext⟩ := Prod.mk.inj (hend.trans (if_pos hagain))
      rw [show (w.state.passed pass).1 = seen.state from hstate.symm]
      exact ih (by rw [hnext, hstate]; rfl)
    · obtain rfl := isEmpty_iff.mp hlast
      obtain ⟨hstate, _⟩ := Prod.mk.inj (hend.trans (if_neg hagain))
      refine ⟨fun s' hs' ↦ ⟨seen, rfl, hstate.trans (Option.some.inj hs')⟩, fun new hnew _ ↦ ?_⟩
      cases hnew
      exact congrArg some hstate.symm
    · obtain ⟨second, others, rfl⟩ := exists_cons_of_ne_nil (mt isEmpty_iff.mpr hlast)
      obtain ⟨_, hnext⟩ := Prod.mk.inj (hend.trans (if_neg hagain))
      refine ⟨nofun, fun new hnew ↦ ?_⟩
      rw [flatMap_cons, run_pass_none (fun _ _ _ ↦ by rw [hnext]; split_ifs <;> nofun)] at hnew
      cases hnew

/-- Every entry a watch knew before a scan and does not know after it is offered exactly once,
before the end of a watch that ended, if and only if it went in exactly one look, or, where the
watch was found gone, was still known to it then. -/
theorem offered_once_iff {w : Watcher} (hreach : machine.runs.Reachable w) (hwaiting : w.scanner = .waiting)
    {watch : Watch} (hwatch : watch ∈ w.state.watches) (hwants : WantsBoth watch.events) {entries : Entries}
    (hentries : watch.entries = some entries) {looks : List Pass}
    (hattended : Attended watch.id looks w.state)
    {s' : WatchState} (hscan : w.state.scan 2 [] looks = some s') :
    ∀ name info, entries[name]? = some info → Vanished watch.id name info s' →
      (OfferedOnce watch.id name info w.state s' ↔
        (course name info entries (looks.map (·.found watch.id))).Once) := by
  intro name info _ _
  have hsound : Sound w.state [] := by
    simpa [hwaiting, Scanner.unreported] using (steady_of_reachable hreach).sound
  have hstart : Follows watch.id name info w.state [] (.live entries 0) :=
    ⟨⟨watch, hwatch, rfl, hentries, hwants⟩, fun diff hmem ↦ absurd hmem not_mem_nil, rfl⟩
  obtain ⟨added, hreports⟩ := hstart.scan hsound matching_nil hattended hscan
  constructor
  · rintro ⟨others, hothers, hcount, _⟩
    obtain rfl : added = others := append_cancel_left (hreports.offers.symm.trans hothers)
    exact hreports.count.symm.trans hcount
  · intro honce
    refine ⟨added, hreports.offers, hreports.count.trans honce, fun hdead ↦ ?_⟩
    cases hcourse : course name info entries (looks.map (·.found watch.id)) with
    | live known departures =>
      obtain ⟨other, hother, hid⟩ := hreports.live _ _ hcourse
      exact absurd hid (hdead other hother)
    | ended known =>
      obtain ⟨before, after, hadded, hbefore⟩ := hreports.ended known hcourse
      exact ⟨before, after, hadded, hbefore.trans honce⟩

/-- A watch of a directory with one entry. -/
def oneEntry (identity : Option Identity) : List Action :=
  [.call (.add (Watches.delete ||| Watches.movedFrom) ⟨true, 0, none, (0, 0, 0), some (1, 1, none)⟩
    (some (ExtTreeMap.insert ∅ [97] ⟨false, 0, none, (0, 0, 0), identity⟩)) fun _ ↦ false)]

/-- The directory is listed. -/
def listed (entries : Entries) : Pass :=
  ⟨[], fun _ ↦ some (.node ⟨true, 0, none, (0, 0, 0), some (1, 1, none)⟩ (some entries))⟩

/-- The directory is found gone. -/
def missing : Pass := ⟨[], fun _ ↦ some .gone⟩

theorem offered_once_iff_oneEntry :
    ∃ w s', machine.runs.Reachable w ∧ w.state.scan 2 [] [listed ∅] = some s' ∧
      OfferedOnce 1 [97] ⟨false, 0, none, (0, 0, 0), none⟩ w.state s' := by
  have hrun := Machine.reachable_of_run (show machine.run (oneEntry none) initial = some _ from rfl)
  refine ⟨_, _, hrun, rfl, (offered_once_iff hrun rfl mem_cons_self (by decide) rfl
    (show Attended _ [listed ∅] _ from ⟨trivial, trivial⟩) rfl [97]
    ⟨false, 0, none, (0, 0, 0), none⟩ (by simp) ?_).mpr (by decide)⟩
  intro watch hwatch _
  obtain rfl := mem_singleton.mp hwatch
  rfl

/-- The entry is gone and may have been renamed; before the second look the consumer adds a watch. -/
def twoLooks : List Pass :=
  [listed ∅, { listed ∅ with
    calls := [.add Watches.modify ⟨false, 0, none, (0, 0, 0), some (1, 3, none)⟩ none fun _ ↦ false] }]

theorem run_of_scan_twoLooks :
    ∃ w s', machine.run (oneEntry (some (1, 2, none)) ++ [.scan]) initial = some w ∧
    w.state.scan 2 [] twoLooks = some s' ∧ s'.watches.length = 2 ∧
    ∃ new, machine.run (twoLooks.flatMap Pass.actions) w = some new ∧ new.state = s' :=
  ⟨_, _, rfl, rfl, rfl, (@run_of_scan _ 2 [] twoLooks rfl).1 _ rfl⟩

/-- A look lists the directory without its entry, and the next one, for the other half of a rename,
finds the directory gone: the entry is never reported. -/
theorem unreported_entry :
    ∃ w s', machine.runs.Reachable w ∧ w.state.scan 2 [] [listed ∅, missing] = some s' ∧
      Attended 1 [listed ∅, missing] w.state ∧
      (∃ watch ∈ w.state.watches, watch.id = 1 ∧ WantsBoth watch.events ∧
        watch.entries.any (knows [97] ⟨false, 0, none, (0, 0, 0), some (1, 2, none)⟩) = true) ∧
      Vanished 1 [97] ⟨false, 0, none, (0, 0, 0), some (1, 2, none)⟩ s' ∧
      ¬ OfferedOnce 1 [97] ⟨false, 0, none, (0, 0, 0), some (1, 2, none)⟩ w.state s' := by
  have hrun :=
    Machine.reachable_of_run (show machine.run (oneEntry (some (1, 2, none))) initial = some _ from rfl)
  refine ⟨_, _, hrun, rfl, ⟨trivial, trivial, trivial⟩, ⟨_, mem_cons_self, rfl, by decide, rfl⟩,
    fun watch hwatch ↦ absurd hwatch not_mem_nil, ?_⟩
  rintro ⟨added, hadded, hcount, _⟩
  obtain rfl : [ending 1] = added := hadded
  exact absurd hcount (by decide)

end Watcher

end DotnetPal.Desktop
