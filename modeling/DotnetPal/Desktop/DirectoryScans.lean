import DotnetPal.Desktop.Disappearances
import DotnetPal.Desktop.Replays

/-!
# Scans of one directory

Where one directory is watched and all looks of a scan list the same, the first look finds all that
differs: a second one, for halves of renames that found no other half, brings nothing to pair. The
report is that of one difference, whatever the looks at watched files find.
-/

open Std List

namespace DotnetPal.Desktop

open Programs KeyedList WatchState

/-- One watched directory, with what it knows and wants; the other watches are of files. -/
structure Alone (id : ℕ) (events : UInt32) (entries : Entries) (s : WatchState) : Prop where
  distinct : KeyedList.Distinct Watch.id s.watches
  watch : ∃ watch ∈ s.watches, watch.id = id ∧ watch.events = events ∧ watch.entries = some entries
  others : ∀ other ∈ s.watches, other.id ≠ id → other.entries = none

section Alone

variable {id : ℕ} {events : UInt32} {entries after : Entries} {s : WatchState}

theorem distinct_compareOne (h : KeyedList.Distinct Watch.id s.watches) (j : ℕ) (x : Look) :
    KeyedList.Distinct Watch.id (s.compareOne j x).1.watches := by
  unfold compareOne
  split
  · exact h
  · cases x with
    | gone => exact h.remove _
    | node own listed => exact h.replace fun _ heq ↦ heq

theorem mem_compareOne (h : KeyedList.Distinct Watch.id s.watches) {j : ℕ} {x : Look} {watch : Watch}
    (hmem : watch ∈ (s.compareOne j x).1.watches) :
    ∃ old ∈ s.watches, old.id = watch.id ∧ (old.entries = none → watch.entries = none) := by
  unfold compareOne at hmem
  split at hmem
  · exact ⟨watch, hmem, rfl, id⟩
  · cases x with
    | gone => exact ⟨watch, ((mem_remove h).mp hmem).1, rfl, id⟩
    | node own listed =>
      rcases (mem_replace h).mp hmem with ⟨hold, _⟩ | ⟨old, hbefore, _, rfl⟩
      · exact ⟨watch, hold, rfl, id⟩
      · exact ⟨old, hbefore, rfl, fun hnone ↦ by simp [Watch.after, hnone]⟩

theorem Alone.others_compareOne (h : Alone id events entries s) {j : ℕ} {x : Look} :
    ∀ file ∈ (s.compareOne j x).1.watches, file.id ≠ id → file.entries = none := by
  intro file hfile hne
  obtain ⟨old, hold, hid, hnone⟩ := mem_compareOne h.distinct hfile
  exact hnone (h.others old hold (hid ▸ hne))

/-- A look at a file. -/
theorem Alone.compareOther (h : Alone id events entries s) {j : ℕ} (hne : j ≠ id) (x : Look) :
    Alone id events entries (s.compareOne j x).1 ∧ ∀ diff ∈ (s.compareOne j x).2, Idle diff := by
  obtain ⟨watch, hwatch, hid, hrest⟩ := h.watch
  refine ⟨⟨distinct_compareOne h.distinct j x, ⟨watch, ?_, hid, hrest⟩, h.others_compareOne⟩,
    fun diff hmem ↦ ?_⟩
  · exact (mem_compareOne_of_ne h.distinct x fun heq ↦ hne (heq.symm.trans hid)).mpr hwatch
  · cases hfind : find Watch.id j s.watches with
    | none => simp [compareOne, hfind] at hmem
    | some file =>
      obtain ⟨hfile, rfl⟩ := (find_eq_some_iff h.distinct).mp hfind
      simp only [compareOne, hfind, mem_singleton] at hmem
      rw [hmem]
      simp [Idle, difference, h.others file hfile hne, between]

/-- What one listing finds different from the one before. -/
structure Listed (id : ℕ) (before after : Entries) (diff : Difference) : Prop where
  watch : diff.watch = id
  ended : diff.ended = false
  went : diff.went = wentBetween before after
  came : diff.came = cameBetween before after

variable (h : Alone id events entries s)
include h

/-- A look at the directory. -/
theorem Alone.compareSelf (own : Meta) (after : Entries) :
    Alone id events after (s.compareOne id (.node own (some after))).1 ∧
      ∃ diff, (s.compareOne id (.node own (some after))).2 = [diff] ∧ Listed id entries after diff := by
  have hdistinct := distinct_compareOne h.distinct id (.node own (some after))
  have hothers : ∀ file ∈ (s.compareOne id (.node own (some after))).1.watches, file.id ≠ id →
    file.entries = none :=
    h.others_compareOne
  obtain ⟨watch, hwatch, rfl, hevents, hentries⟩ := h.watch
  have hfind : find Watch.id watch.id s.watches = some watch :=
    (find_eq_some_iff h.distinct).mpr ⟨hwatch, rfl⟩
  simp only [compareOne, hfind] at hdistinct hothers ⊢
  refine ⟨⟨hdistinct,
    ⟨watch.after own (some after), ?_, rfl, hevents, by simp [Watch.after, hentries]⟩, hothers⟩,
    _, rfl, rfl, rfl, ?_, ?_⟩
  · exact (mem_replace h.distinct).mpr (.inr ⟨watch, hwatch, rfl, rfl⟩)
  · simp [difference, hentries, between, Look.entries]
  · simp [difference, hentries, between, Look.entries]

variable {looks : List (ℕ × Look)}

/-- Looks at files only. -/
theorem Alone.compareOthers (hnone : ∀ look ∈ looks, look.1 ≠ id) :
    Alone id events entries (s.compare looks).1 ∧ ∀ diff ∈ (s.compare looks).2, Idle diff := by
  induction looks generalizing s with
  | nil => exact ⟨h, fun diff hmem ↦ absurd hmem not_mem_nil⟩
  | cons look rest ih =>
    obtain ⟨hstate, hidle⟩ := h.compareOther (hnone look mem_cons_self) look.2
    obtain ⟨hfinal, hidles⟩ := ih hstate fun j hj ↦ hnone j (mem_cons_of_mem _ hj)
    exact ⟨hfinal, fun diff hmem ↦ (mem_append.mp hmem).elim (hidle diff) (hidles diff)⟩

/-- A look at everything. -/
theorem Alone.compare (hnodup : (looks.map Prod.fst).Nodup) {own : Meta}
    (hmem : (id, Look.node own (some after)) ∈ looks) :
    Alone id events after (s.compare looks).1 ∧ ∃ a diff later, (s.compare looks).2 = a ++ diff :: later ∧
      (∀ j ∈ a ++ later, Idle j) ∧ Listed id entries after diff := by
  induction looks generalizing s with
  | nil => cases hmem
  | cons look rest ih =>
    obtain ⟨hfresh, hrest⟩ := nodup_cons.mp hnodup
    rcases mem_cons.mp hmem with rfl | hlater
    · obtain ⟨hstate, diff, hnew, hlisted⟩ := h.compareSelf own after
      obtain ⟨hfinal, hidle⟩ := hstate.compareOthers fun j hj heq ↦ hfresh (mem_map.mpr ⟨j, hj, heq⟩)
      refine ⟨hfinal, [], diff, _, ?_, hidle, hlisted⟩
      simp only [WatchState.compare, hnew, nil_append, singleton_append]
    · have hne : look.1 ≠ id := fun heq ↦ hfresh (mem_map.mpr ⟨_, hlater, heq.symm⟩)
      obtain ⟨hstate, hidle⟩ := h.compareOther hne look.2
      obtain ⟨hfinal, a, diff, later, hnew, hidles, hlisted⟩ := ih hstate hrest hlater
      refine ⟨hfinal, (s.compareOne look.1 look.2).2 ++ a, diff, later, ?_, fun j hj ↦ ?_, hlisted⟩
      · simp only [WatchState.compare, hnew, append_assoc]
      · rw [append_assoc, mem_append] at hj
        exact hj.elim (hidle j) (hidles j)

/-- A look of a scan during which the consumer does not call. -/
theorem Alone.passed {pass : Pass} (hcalls : pass.calls = []) {own : Meta}
    (hx : pass.found id = some (.node own (some after))) :
    Alone id events after (s.passed pass).1 ∧ ∃ a diff later, (s.passed pass).2 = a ++ diff :: later ∧
      (∀ j ∈ a ++ later, Idle j) ∧ Listed id entries after diff := by
  obtain ⟨watch, hwatch, hid, _⟩ := h.watch
  have hmem : (id, Look.node own (some after)) ∈ (s.watches.map Watch.id).filterMap fun id ↦
    (pass.found id).map (id, ·) :=
    mem_filterMap.mpr ⟨id, mem_map.mpr ⟨watch, hwatch, hid⟩, by rw [hx, Option.map_some]⟩
  rw [WatchState.passed, hcalls]
  exact h.compare (nodup_looks pass.found h.distinct) hmem

omit h

variable {diff : Difference}

/-- Nothing differs between two equal listings. -/
theorem Listed.idle (h : Listed id after after diff) : Idle diff := by
  have hself : ∀ info : Meta, info.sameNode info = true := fun info ↦ Meta.sameNode_iff.mpr ⟨rfl, rfl⟩
  constructor
  · rw [h.went]
    refine eq_nil_iff_forall_not_mem.mpr fun went hwent ↦ ?_
    obtain ⟨hinfo, hgone, _⟩ := (mem_wentBetween after after).mp hwent
    rw [hinfo, Option.any_some, hself] at hgone
    cases hgone
  · rw [h.came]
    refine eq_nil_iff_forall_not_mem.mpr fun came hcame ↦ ?_
    obtain ⟨hinfo, hnew, _⟩ := (mem_cameBetween after after).mp hcame
    rw [hinfo, Option.any_some, hself] at hnew
    cases hnew

theorem Listed.single {a later : List Difference} {watches : List Watch}
    (h : Listed id entries after diff) (hidle : ∀ j ∈ a ++ later, Idle j) (hwants : WantsAll events)
    (hwanted : wantedOf watches diff = events) : Single id watches a later diff where
  idle := hidle
  watch := h.watch
  wanted := hwanted ▸ hwants
  fresh := fun _ hwent ↦ ((mem_wentBetween entries after).mp (h.went ▸ hwent)).2.2
  new := fun _ hcame ↦ ((mem_cameBetween entries after).mp (h.came ▸ hcame)).2.2

theorem Alone.wantedOf_eq (h : Alone id events entries s) (hwatch : diff.watch = id)
    (hended : diff.ended = false) : wantedOf s.watches diff = events := by
  obtain ⟨watch, hmem, hid, hevents, _⟩ := h.watch
  have hfind : find Watch.id diff.watch s.watches = some watch :=
    (find_eq_some_iff h.distinct).mpr ⟨hmem, hid.trans hwatch.symm⟩
  simp [wantedOf, hended, hfind, hevents]

end Alone

theorem queue_compare (looks : List (ℕ × Look)) (s : WatchState) : (s.compare looks).1.queue = s.queue := by
  induction looks generalizing s with
  | nil => rfl
  | cons look rest ih =>
    have hone : (s.compareOne look.1 look.2).1.queue = s.queue := by
      unfold compareOne
      split <;> rfl
    exact (ih _).trans hone

/-- What a report puts in the queue, replayed. -/
theorem foldl_replay_report {seen : WatchState} {diffs : List Difference}
    (hmatching : Matching diffs) (id : ℕ)
    (known : Listing) (hlost : (seen.report diffs).lost = false) :
    ((seen.report diffs).queue.drop seen.queue.length).foldl (replay id) known =
      (diffs.flatMap (offersOf diffs seen.watches)).foldl (replay id) known := by
  rw [((adds_report hmatching seen).queue hlost).2, drop_left, ← map_plain_told, foldl_map]
  rfl

namespace Watcher

/-- The events of a scan that finds one directory changed and nothing calls meanwhile, replayed on
what its watch knew, give what all the looks found if and only if no rename in it replaces an
entry told later. -/
theorem replays_iff {w : Watcher} (hreach : machine.runs.Reachable w) {watch : Watch}
    (hwatch : watch ∈ w.state.watches) (hwants : WantsAll watch.events) {before : Entries}
    (hentries : watch.entries = some before)
    (hothers : ∀ other ∈ w.state.watches, other.id ≠ watch.id → other.entries = none) {looks : List Pass}
    (hquiet : ∀ pass ∈ looks, pass.calls = []) {after : Entries}
    (hfound : ∀ pass ∈ looks, ∃ own, pass.found watch.id = some (.node own (some after))) {s' : WatchState}
    (hscan : w.state.scan 2 [] looks = some s') (hlost : s'.lost = false) :
    (s'.queue.drop w.state.queue.length).foldl (replay watch.id) (listing before) = listing after ↔
      NoneOvertaken before after := by
  have halone : Alone watch.id watch.events before w.state :=
    ⟨(steady_of_reachable hreach).sound.distinct, ⟨watch, hwatch, rfl, rfl, hentries⟩, hothers⟩
  cases looks with
  | nil => cases hscan
  | cons pass rest =>
    obtain ⟨own, hlook⟩ := hfound pass mem_cons_self
    obtain ⟨hseen, x, diff, later, hnew, hidle, hlisted⟩ := halone.passed (hquiet pass mem_cons_self) hlook
    have hcollected : w.state.collected [] pass = pair (x ++ diff :: later) := by
      rw [collected, hnew, nil_append]
    have hmatching : Matching (pair (x ++ diff :: later)) :=
      hcollected ▸ (matching_nil.append fresh_compare).pair
    have hqueue : ∀ s : WatchState, ∀ pass : Pass, pass.calls = [] → (s.passed pass).1.queue = s.queue := by
      intro s pass hcalls
      rw [passed, queue_compare, hcalls, foldl_nil]
    rw [scan, hcollected] at hscan
    split_ifs at hscan with hclosing hagain hlast
    · -- A second look finds the same and pairs nothing more.
      cases rest with
      | nil => cases hscan
      | cons second rest =>
        have hmem : second ∈ pass :: second :: rest := mem_cons_of_mem _ mem_cons_self
        obtain ⟨again, hagain⟩ := hfound second hmem
        obtain ⟨hlater, more, same, others, hsecond, hidles, hsame⟩ :=
          hseen.passed (hquiet second hmem) hagain
        have hallIdle : ∀ other ∈ ((w.state.passed pass).1.passed second).2, Idle other := by
          intro other hother
          rw [hsecond, mem_append, mem_cons] at hother
          rcases hother with hfirst | rfl | hlast
          · exact hidles other (mem_append_left _ hfirst)
          · exact hsame.idle
          · exact hidles other (mem_append_right _ hlast)
        generalize hnext : ((w.state.passed pass).1.passed second).2 = found at *
        have hwide : ∀ other ∈ x ++ (later ++ found), Idle other := by
          intro other hother
          rw [← append_assoc, mem_append] at hother
          exact hother.elim (hidle other) (hallIdle other)
        have hwanted := hlater.wantedOf_eq hlisted.watch hlisted.ended
        have hsingle := hlisted.single hwide hwants hwanted
        have hpaired : pair (x ++ diff :: later) ++ found = pair (x ++ diff :: (later ++ found)) := by
          rw [(hlisted.single hidle hwants hwanted).pair_eq, hsingle.pair_eq, append_assoc, cons_append]
        have hcollected' : (w.state.passed pass).1.collected (pair (x ++ diff :: later)) second =
            pair (x ++ diff :: (later ++ found)) := by
          rw [collected, hnext, hpaired]
          exact (settled_pair _).pair_eq
        have hpairs : unpaired
          ((pair (x ++ diff :: (later ++ found))).drop (pair (x ++ diff :: later)).length) = false := by
          rw [← hpaired, drop_left]
          refine any_eq_false.mpr fun other hother ↦ ?_
          simp [(hallIdle other hother).1, (hallIdle other hother).2]
        rw [scan, hcollected'] at hscan
        split_ifs at hscan with hclosed hmore hend
        · exact absurd hmore.1 (by simp [hpairs])
        · cases hscan
          rw [← hqueue w.state pass (hquiet pass mem_cons_self), ← hqueue _ second (hquiet second hmem),
            foldl_replay_report (hcollected' ▸ (hmatching.append fresh_compare).pair) _ _ hlost]
          exact hsingle.replay_iff hlisted.went hlisted.came
    · cases hscan
      have hsingle := hlisted.single hidle hwants (hseen.wantedOf_eq hlisted.watch hlisted.ended)
      rw [← hqueue w.state pass (hquiet pass mem_cons_self), foldl_replay_report hmatching _ _ hlost]
      exact hsingle.replay_iff hlisted.went hlisted.came

/-- A watch of a directory that wants every kind a replay needs. -/
def watching (entries : Entries) : List Action :=
  [.call (.add (Watches.create ||| Watches.delete ||| Watches.movedFrom ||| Watches.movedTo)
    ⟨true, 0, none, (0, 0, 0), some (1, 1, none)⟩ (some entries) fun _ ↦ false)]

/-- A file. -/
def file (inode : ℕ) : Meta := ⟨false, 0, none, (0, 0, 0), some (1, inode, none)⟩

theorem replays_iff_renamed : ∃ w s', machine.runs.Reachable w ∧
      w.state.scan 2 [] [listed (ExtTreeMap.insert ∅ [98] (file 2))] = some s' ∧
      (s'.queue.drop w.state.queue.length).foldl (replay 1) (listing (ExtTreeMap.insert ∅ [97] (file 2))) =
        listing (ExtTreeMap.insert ∅ [98] (file 2)) := by
  have hrun := Machine.reachable_of_run
    (show machine.run (watching (ExtTreeMap.insert ∅ [97] (file 2))) initial = some _ from rfl)
  have hone : ∀ pass ∈ [listed (ExtTreeMap.insert ∅ [98] (file 2))], pass =
    listed (ExtTreeMap.insert ∅ [98] (file 2)) :=
    fun pass hpass ↦ mem_singleton.mp hpass
  refine ⟨_, _, hrun, rfl, (replays_iff hrun mem_cons_self (by decide) rfl (fun other hother hne ↦ ?_)
    (fun pass hpass ↦ by rw [hone pass hpass]; rfl)
    (fun pass hpass ↦ ⟨⟨true, 0, none, (0, 0, 0), some (1, 1, none)⟩, by rw [hone pass hpass]; rfl⟩)
      rfl (by decide)).mpr ?_⟩
  · exact absurd (congrArg Watch.id (mem_singleton.mp hother)) hne
  · rintro source target ⟨key, hzip⟩ hgoes
    have htarget := mem_reverse.mp (of_mem_zip hzip).2
    obtain ⟨entry, hentry, rfl⟩ := mem_map.mp htarget
    have hlast : entry ∈ [([98], file 2)] := (mem_filter.mp hentry).1
    obtain rfl := mem_singleton.mp hlast
    exact absurd hgoes (by decide)

/-- The file `a` is renamed to `b`, over another file: MOVED_FROM `a`, MOVED_TO `b` and then DELETE
`b`, though `b` is there. -/
theorem overtaken_rename : ∃ w s', machine.runs.Reachable w ∧
      (∃ watch ∈ w.state.watches, watch.id = 1 ∧ WantsAll watch.events ∧
        watch.entries = some (ExtTreeMap.insert (ExtTreeMap.insert ∅ [97] (file 2)) [98] (file 3))) ∧
      w.state.watches.length = 1 ∧
      w.state.scan 2 []
        [listed (ExtTreeMap.insert ∅ [98] (file 2)), listed (ExtTreeMap.insert ∅ [98] (file 2))] = some s' ∧
      s'.lost = false ∧
      (s'.queue.drop w.state.queue.length).foldl (replay 1)
          (listing (ExtTreeMap.insert (ExtTreeMap.insert ∅ [97] (file 2)) [98] (file 3))) ≠
        listing (ExtTreeMap.insert ∅ [98] (file 2)) := by
  have hrun := Machine.reachable_of_run
    (show machine.run (watching
      (ExtTreeMap.insert (ExtTreeMap.insert ∅ [97] (file 2)) [98] (file 3))) initial = some _ from rfl)
  refine ⟨_, _, hrun, ⟨_, mem_cons_self, rfl, by decide, rfl⟩, rfl, rfl, by decide, fun hsame ↦ ?_⟩
  exact absurd (congrArg (fun listing : Listing ↦ listing[([98] : Name)]?) hsame) (by decide)

end Watcher

end DotnetPal.Desktop
