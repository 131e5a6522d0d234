import DotnetPal.Desktop.WatchEnds

/-!
# What becomes of an entry during a scan

A scan follows one entry of one watch through its looks: each look that lists the directory without
the entry makes one departure, and a look that finds the watch gone makes the last one. The course
of the entry follows from the looks at its watch alone; the differences the scan collects say the
same, whatever the consumer calls meanwhile.
-/

open Std

namespace DotnetPal

open KeyedList

/-- Entries that a predicate of one key holds of are one at most. -/
theorem OrderedMap.countP_toList {κ ν : Type} {cmp : κ → κ → Ordering} [TransCmp cmp] [LawfulEqCmp cmp]
    (map : ExtTreeMap κ ν cmp) (key : κ) {holds : κ × ν → Bool} (hkey : ∀ e, holds e = true → e.1 = key) :
    map.toList.countP holds = if (map[key]?).any (fun v ↦ holds (key, v)) then 1 else 0 := by
  have hothers : ∀ others : ExtTreeMap κ ν cmp, others[key]? = none → others.toList.countP holds = 0 := by
    intro others hnone
    rw [List.countP_eq_zero]
    rintro ⟨j, v⟩ hmem hholds
    obtain rfl := hkey _ hholds
    rw [ExtTreeMap.mem_toList_iff_getElem?_eq_some] at hmem
    simp [hnone] at hmem
  cases hv : map[key]? with
  | none => simpa using hothers map hv
  | some v =>
    rw [(OrderedMap.toList_perm_cons_erase map hv).countP_eq, List.countP_cons, hothers _ (by simp)]
    simp

namespace Desktop

open Programs

/-! ## Scans -/

/-- One look of a scan: what the consumer calls while the file system is read, and what
is found there. -/
structure Pass where
  calls : List WatchState.Call
  found : ℕ → Option Look

namespace WatchState

/-- The state once a look is compared, and the new differences. -/
def passed (pass : Pass) (s : WatchState) : WatchState × List Difference :=
  (pass.calls.foldl (fun s call ↦ s.call call) s).compare
    ((s.watches.map Watch.id).filterMap fun id ↦ (pass.found id).map (id, ·))

/-- The differences collected after a look. -/
def collected (diffs : List Difference) (pass : Pass) (s : WatchState) : List Difference :=
  pair (diffs ++ (s.passed pass).2)

/-- A scan that reports after exactly these looks. -/
def scan : ℕ → List Difference → List Pass → WatchState → Option WatchState
  | _, _, [], _ => none
  | passes, diffs, pass :: rest, s =>
    if s.closing then none
    else if unpaired ((s.collected diffs pass).drop diffs.length) = true ∧ passes ≠ 0 then
      scan (passes - 1) (s.collected diffs pass) rest (s.passed pass).1
    else if rest.isEmpty then some ((s.passed pass).1.report (s.collected diffs pass)) else none

end WatchState

/-- The steps of a scan. -/
def Pass.actions (pass : Pass) : List Watcher.Action := pass.calls.map .call ++ [.look pass.found]

/-! ## One entry -/

/-- Whether a listing has the node under the name. -/
def knows (name : Name) (info : Meta) (entries : Entries) : Bool := (entries[name]?).any info.sameNode

def Went.isEntry (name : Name) (info : Meta) (went : Went) : Bool :=
  went.name = name && info.sameNode went.info

theorem Meta.sameNode_iff {x later : Meta} :
    x.sameNode later = true ↔ x.directory = later.directory ∧ x.identity = later.identity := by
  simp [Meta.sameNode]

theorem Meta.any_sameNode {x later : Meta} (h : x.sameNode later = true) (j : Option Meta) :
    j.any later.sameNode = j.any x.sameNode := by
  obtain ⟨hdir, hidentity⟩ := Meta.sameNode_iff.mp h
  congr 1
  funext third
  simp [Meta.sameNode, hdir, hidentity]

/-- An entry goes once from a listing that has it to one that has not. -/
theorem countP_wentBetween (name : Name) (info : Meta) (before new : Entries) :
    (WatchState.wentBetween before new).countP (Went.isEntry name info) =
      if knows name info before = true ∧ knows name info new = false then 1 else 0 := by
  have hsplit : (WatchState.wentBetween before new).countP (Went.isEntry name info) =
    before.toList.countP fun e ↦
      e.1 = name && info.sameNode e.2 && !(new[e.1]?).any e.2.sameNode := by
    rw [WatchState.wentBetween, List.countP_filterMap]
    congr 1
    funext ⟨j, old⟩
    simp only
    split_ifs with hkept
    · simp [hkept]
    · simp [hkept, Went.isEntry]
  rw [hsplit, OrderedMap.countP_toList before name (fun e he ↦ by simp at he; exact he.1.1)]
  congr 1
  rw [eq_iff_iff, knows, knows]
  cases before[name]? with
  | none => simp
  | some old =>
    by_cases hsame : info.sameNode old = true
    · simp [hsame, Meta.any_sameNode hsame]
    · simp [hsame]

/-- What a scan has found out about an entry: the listing its watch knows now, with how often the
entry went from one; or that the watch is gone, and whether it knew the entry then. -/
inductive Course
  | live (entries : Entries) (departures : ℕ)
  | ended (known : Bool)

namespace Course

def look (name : Name) (info : Meta) : Course → Option Look → Course
  | .live known departures, some (.node _ (some after)) =>
    .live after (departures + if knows name info known = true ∧ knows name info after = false then 1 else 0)
  | .live known _, some .gone => .ended (knows name info known)
  | course, _ => course

/-- The departures that are reported. -/
def departures : Course → ℕ
  | .live _ departures => departures
  | .ended known => if known then 1 else 0

/-- The entry went in exactly one look, or was there to go when the watch was found gone. -/
def Once (course : Course) : Prop := course.departures = 1

instance (course : Course) : Decidable course.Once := inferInstanceAs (Decidable (_ = _))

@[simp]
theorem look_none (name : Name) (info : Meta) (course : Course) : course.look name info none = course := by
  cases course <;> rfl

end Course

/-- What a scan finds out about an entry in the looks at its watch. -/
def course (name : Name) (info : Meta) (entries : Entries) (looks : List (Option Look)) : Course :=
  looks.foldl (Course.look name info) (.live entries 0)

/-! ## Departures that are collected -/

/-- Both kinds of events that say an entry went. -/
def WantsBoth (events : UInt32) : Prop := events &&& Watches.delete ≠ 0 ∧ events &&& Watches.movedFrom ≠ 0

instance (events : UInt32) : Decidable (WantsBoth events) := inferInstanceAs (Decidable (_ ∧ _))

section Collected

variable (id : ℕ) (name : Name) (info : Meta)

def departuresIn (diff : Difference) : ℕ :=
  if diff.watch = id then diff.went.countP (Went.isEntry name info) else 0

theorem departuresIn_bare (diff : Difference) :
    departuresIn id name info diff.bare = departuresIn id name info diff := by
  simp only [departuresIn, Difference.bare, List.countP_map]
  rfl

/-- The watches and the differences say what the course does. -/
def Follows (s : WatchState) (diffs : List Difference) : Course → Prop
  | .live entries departures =>
    (∃ watch ∈ s.watches, watch.id = id ∧ watch.entries = some entries ∧ WantsBoth watch.events) ∧
    (∀ diff ∈ diffs, diff.watch = id → diff.ended = false) ∧
    (diffs.map (departuresIn id name info)).sum = departures
  | .ended known =>
    (∀ watch ∈ s.watches, watch.id ≠ id) ∧
    ∃ diff ∈ diffs, diff.watch = id ∧ diff.ended = true ∧ WantsBoth diff.wanted ∧
      departuresIn id name info diff = if known then 1 else 0

end Collected

section Follows

variable {id : ℕ} {name : Name} {info : Meta} {s s' : WatchState} {ds : List Difference} {now : Course}

variable (h : Follows id name info s ds now)
include h

theorem Follows.congr {others : List Difference}
    (hbare : others.map Difference.bare = ds.map Difference.bare) : Follows id name info s others now := by
  cases now with
  | live entries departures =>
    obtain ⟨hwatch, hopen, hsum⟩ := h
    refine ⟨hwatch, fun j hj hid ↦ ?_, ?_⟩
    · obtain ⟨diff, hdiff, heq⟩ := List.mem_map.mp (hbare ▸ List.mem_map_of_mem hj)
      have hwatch : diff.bare.watch = j.bare.watch := congrArg _ heq
      have hended : diff.bare.ended = j.bare.ended := congrArg _ heq
      exact hended ▸ hopen diff hdiff (hwatch.trans hid)
    · have hsame : ∀ list : List Difference, list.map (departuresIn id name info) =
          (list.map Difference.bare).map (departuresIn id name info) := by
        intro list
        rw [List.map_map]
        exact List.map_congr_left fun diff _ ↦ (departuresIn_bare id name info diff).symm
      rw [hsame, hbare, ← hsame]
      exact hsum
  | ended known =>
    obtain ⟨hdead, diff, hdiff, hid, hended, hwants, hn⟩ := h
    obtain ⟨j, hj, heq⟩ := List.mem_map.mp (hbare.symm ▸ List.mem_map_of_mem hdiff)
    refine ⟨hdead, j, hj, (congrArg Difference.watch heq).trans hid,
      (congrArg Difference.ended heq).trans hended, ?_, ?_⟩
    · exact (congrArg Difference.wanted heq).symm ▸ hwants
    · rw [← departuresIn_bare, heq, departuresIn_bare]
      exact hn

/-! A look at another watch. -/

omit h in
theorem watch_of_mem_compareOne (hdistinct : KeyedList.Distinct Watch.id s.watches) {j : ℕ} {x : Look}
    {diff : Difference} (hmem : diff ∈ (s.compareOne j x).2) : diff.watch = j := by
  cases hfind : find Watch.id j s.watches with
  | none => simp [WatchState.compareOne, hfind] at hmem
  | some known =>
    simp only [WatchState.compareOne, hfind, List.mem_singleton] at hmem
    rw [hmem]
    exact ((find_eq_some_iff hdistinct).mp hfind).2

theorem Follows.compareOther (hdistinct : KeyedList.Distinct Watch.id s.watches)
    {j : ℕ} (hne : j ≠ id) (x : Look) :
    Follows id name info (s.compareOne j x).1 (ds ++ (s.compareOne j x).2) now := by
  have hnew : ∀ diff ∈ (s.compareOne j x).2, diff.watch ≠ id :=
    fun diff hmem heq ↦ hne ((watch_of_mem_compareOne hdistinct hmem).symm.trans heq)
  cases now with
  | live entries departures =>
    obtain ⟨⟨watch, hwatch, hid, hrest⟩, hopen, hsum⟩ := h
    refine ⟨⟨watch,
      (mem_compareOne_of_ne hdistinct x fun heq ↦ hne (heq.symm.trans hid)).mpr hwatch, hid, hrest⟩,
      fun diff hmem heq ↦ ?_, ?_⟩
    · exact (List.mem_append.mp hmem).elim (fun hold ↦ hopen diff hold heq) fun hnow ↦
        absurd heq (hnew diff hnow)
    · have hzero : ((s.compareOne j x).2.map (departuresIn id name info)).sum = 0 :=
        List.sum_eq_zero fun n hn ↦ by
          obtain ⟨diff, hmem, rfl⟩ := List.mem_map.mp hn
          exact if_neg (hnew diff hmem)
      rw [List.map_append, List.sum_append, hzero, hsum, Nat.add_zero]
  | ended known =>
    obtain ⟨hdead, diff, hdiff, hrest⟩ := h
    refine ⟨fun watch hwatch heq ↦ ?_, diff, List.mem_append_left _ hdiff, hrest⟩
    exact hdead watch ((mem_compareOne_of_ne hdistinct x fun hj ↦ hne (hj.symm.trans heq)).mp hwatch) heq

/-! A look at the watch itself. -/

theorem Follows.compareSelf (hs : Sound s ds) (x : Look) :
    Follows id name info (s.compareOne id x).1 (ds ++ (s.compareOne id x).2)
      (now.look name info (some x)) := by
  cases now with
  | ended known =>
    have hfind : find Watch.id id s.watches = none := find_eq_none_iff.mpr h.1
    simp only [WatchState.compareOne, hfind, List.append_nil]
    exact h
  | live entries departures =>
    obtain ⟨⟨watch, hwatch, rfl, hentries, hwants⟩, hopen, hsum⟩ := h
    have hfind : find Watch.id watch.id s.watches = some watch :=
      (find_eq_some_iff hs.distinct).mpr ⟨hwatch, rfl⟩
    simp only [WatchState.compareOne, hfind]
    cases x with
    | gone =>
      refine ⟨fun j hj ↦ ((mem_remove hs.distinct).mp hj).2,
        WatchState.difference watch .gone, List.mem_append_right _ (List.mem_singleton_self _), rfl,
          rfl, hwants, ?_⟩
      have hempty : knows name info ∅ = false := by simp [knows]
      have hn := countP_wentBetween name info entries ∅
      rw [hempty] at hn
      simpa [departuresIn, WatchState.difference, Look.entries, hentries, WatchState.between] using hn
    | node own listed =>
      have hopen' : ∀ diff ∈ ds ++ [WatchState.difference watch (.node own listed)],
          diff.watch = watch.id → diff.ended = false := by
        intro diff hmem heq
        rcases List.mem_append.mp hmem with hold | hnow
        · exact hopen diff hold heq
        · rw [List.mem_singleton.mp hnow]
          rfl
      have hmem : watch.after own listed ∈ replace Watch.id watch.id (·.after own listed) s.watches :=
        (mem_replace hs.distinct).mpr (.inr ⟨watch, hwatch, rfl, rfl⟩)
      cases listed with
      | none =>
        refine ⟨⟨_, hmem, rfl, by simp [Watch.after, hentries], hwants⟩, hopen', ?_⟩
        rw [List.map_append, List.sum_append, hsum]
        simp [departuresIn, WatchState.difference, Look.entries, hentries, WatchState.between]
      | some new =>
        refine ⟨⟨_, hmem, rfl, by simp [Watch.after, hentries], hwants⟩, hopen', ?_⟩
        rw [List.map_append, List.sum_append, hsum, ← countP_wentBetween]
        simp [departuresIn, WatchState.difference, Look.entries, hentries, WatchState.between]

theorem Follows.compare (hs : Sound s ds) {looks : List (ℕ × Look)} (hnodup : (looks.map Prod.fst).Nodup) :
    Follows id name info (s.compare looks).1 (ds ++ (s.compare looks).2)
      (now.look name info ((find Prod.fst id looks).map Prod.snd)) := by
  induction looks generalizing s ds now with
  | nil =>
    rw [WatchState.compare, List.append_nil]
    simpa [find] using h
  | cons look rest ih =>
    obtain ⟨hfresh, hrest⟩ := List.nodup_cons.mp hnodup
    rw [WatchState.compare, ← List.append_assoc]
    have hsound' := hs.compareOne look.1 look.2
    by_cases hid : look.1 = id
    · subst hid
      -- No later look is at this watch again.
      have hnone : find Prod.fst look.1 rest = none :=
        find_eq_none_iff.mpr fun j hj heq ↦ hfresh (List.mem_map.mpr ⟨j, hj, heq⟩)
      have hself := ih (h.compareSelf hs look.2) hsound' hrest
      rw [hnone, Option.map_none, Course.look_none] at hself
      simpa [find] using hself
    · have hj := ih (h.compareOther hs.distinct hid look.2) hsound' hrest
      simpa [find, hid] using hj

omit h

/-- The looks at a list of watches, and the one at a watch of the list. -/
theorem find_looks {targets : List ℕ} (x : ℕ → Option Look) (hmem : id ∈ targets) :
    (find Prod.fst id (targets.filterMap fun id ↦ (x id).map (id, ·))).map Prod.snd = x id := by
  induction targets with
  | nil => cases hmem
  | cons target rest ih =>
    by_cases hid : target = id
    · subst hid
      cases hx : x target with
      | some look => simp [find, hx]
      | none =>
        have hnone : find Prod.fst target (rest.filterMap fun id ↦ (x id).map (id, ·)) = none := by
          refine find_eq_none_iff.mpr fun look hlook heq ↦ ?_
          obtain ⟨j, _, hj⟩ := List.mem_filterMap.mp hlook
          obtain ⟨seen, hseen, rfl⟩ := Option.map_eq_some_iff.mp hj
          obtain rfl : j = target := heq
          cases hseen.symm.trans hx
        simp [hx, hnone]
    · have hrest := ih ((List.mem_cons.mp hmem).resolve_left fun heq ↦ hid heq.symm)
      cases hx : x target with
      | none => simpa [hx] using hrest
      | some look => simpa [hx, find, hid] using hrest

theorem nodup_looks {targets : List ℕ} (x : ℕ → Option Look) (h : targets.Nodup) :
    ((targets.filterMap fun id ↦ (x id).map (id, ·)).map Prod.fst).Nodup := by
  rw [List.map_filterMap]
  refine h.filterMap fun a b target ha hb ↦ ?_
  simp only [Option.map_map, Option.mem_def, Option.map_eq_some_iff, Function.comp_apply] at ha hb
  obtain ⟨_, _, rfl⟩ := ha
  obtain ⟨_, _, rfl⟩ := hb
  rfl

end Follows

/-! ## The consumer during a scan -/

/-- A call leaves a watch in the list, and wanting both kinds. -/
def Spares (id : ℕ) (call : WatchState.Call) (s : WatchState) : Prop :=
  ∀ watch ∈ s.watches, watch.id = id → ∃ after ∈ (s.call call).watches, after.id = id ∧ WantsBoth after.events

def SparesAll (id : ℕ) : List WatchState.Call → WatchState → Prop
  | [], _ => True
  | call :: rest, s => Spares id call s ∧ SparesAll id rest (s.call call)

/-- The consumer does not remove a watch during a scan, nor ask it for less. -/
def Attended (id : ℕ) : List Pass → WatchState → Prop
  | [], _ => True
  | pass :: rest, s => SparesAll id pass.calls s ∧ Attended id rest (s.passed pass).1

section Calls

variable {id : ℕ} {name : Name} {info : Meta} {s : WatchState} {ds : List Difference} {now : Course}

/-- Only a look changes what an old watch knows. -/
theorem entries_call (hs : Sound s ds) (call : WatchState.Call) {new : Watch}
    (hafter : new ∈ (s.call call).watches) (hold : new.id ≤ s.lastId) :
    ∃ watch ∈ s.watches, watch.id = new.id ∧ watch.entries = new.entries := by
  cases called call s with
  | kept _ hwatches => exact ⟨new, hwatches ▸ hafter, rfl, rfl⟩
  | replaced _ _ hwatches =>
    rw [hwatches] at hafter
    rcases (mem_replace hs.distinct).mp hafter with ⟨hmem, _⟩ | ⟨old, hbefore, _, rfl⟩
    · exact ⟨new, hmem, rfl, rfl⟩
    · exact ⟨old, hbefore, rfl, rfl⟩
  | grown watch hid hwatches =>
    rw [hwatches] at hafter
    rcases List.mem_append.mp hafter with hmem | hnew
    · exact ⟨new, hmem, rfl, rfl⟩
    · rw [List.mem_singleton.mp hnew, hid] at hold
      exact absurd hold (Nat.not_succ_le_self _)
  | removed _ _ _ hwatches =>
    rw [hwatches] at hafter
    exact ⟨new, ((mem_remove hs.distinct).mp hafter).1, rfl, rfl⟩

variable (h : Follows id name info s ds now)
include h

theorem Follows.call (hs : Sound s ds) {call : WatchState.Call}
    (hspares : Spares id call s) : Follows id name info (s.call call) ds now := by
  cases now with
  | live entries departures =>
    obtain ⟨⟨watch, hwatch, hid, hentries, _⟩, hrest⟩ := h
    obtain ⟨new, hnew, hsame, hwants⟩ := hspares watch hwatch hid
    obtain ⟨old, hold, hbeforeId, hknown⟩ := entries_call hs call hnew
      (by rw [hsame, ← hid]; exact (hs.ids watch hwatch).2)
    obtain rfl : old = watch := hs.distinct.eq hold hwatch (hbeforeId.trans (hsame.trans hid.symm))
    exact ⟨⟨new, hnew, hsame, hknown.symm.trans hentries, hwants⟩, hrest⟩
  | ended known =>
    obtain ⟨hdead, diff, hdiff, hid, hrest⟩ := h
    refine ⟨fun new hnew heq ↦ ?_, diff, hdiff, hid, hrest⟩
    obtain ⟨old, hold, hbeforeId, _⟩ := entries_call hs call hnew
      (by rw [heq, ← hid]; exact hs.past diff hdiff)
    exact hdead old hold (hbeforeId.trans heq)

theorem Follows.calls (hs : Sound s ds) {calls : List WatchState.Call}
    (hspares : SparesAll id calls s) :
    Follows id name info (calls.foldl (fun s call ↦ s.call call) s) ds now ∧
      Sound (calls.foldl (fun s call ↦ s.call call) s) ds := by
  induction calls generalizing s with
  | nil => exact ⟨h, hs⟩
  | cons call rest ih => exact ih (h.call hs hspares.1) (hs.call call) hspares.2

/-- One look of a scan, with the calls meanwhile. -/
theorem Follows.passed (hs : Sound s ds) {pass : Pass} (hspares : SparesAll id pass.calls s) :
    Follows id name info (s.passed pass).1 (s.collected ds pass) (now.look name info (pass.found id)) ∧
      Sound (s.passed pass).1 (s.collected ds pass) := by
  obtain ⟨hcalled, hsound'⟩ := h.calls hs hspares
  have hcompared := hcalled.compare hsound' (nodup_looks pass.found hs.distinct)
  have hlook : now.look name info ((find Prod.fst id
      ((s.watches.map Watch.id).filterMap fun id ↦ (pass.found id).map (id, ·))).map Prod.snd) =
        now.look name info (pass.found id) := by
    cases now with
    | ended known => rfl
    | live entries departures =>
      obtain ⟨watch, hwatch, hid, _⟩ := h.1
      rw [find_looks pass.found (List.mem_map.mpr ⟨watch, hwatch, hid⟩)]
  rw [hlook] at hcompared
  exact ⟨hcompared.congr (map_bare_pair _), (hsound'.compare _).congr (map_bare_pair _)⟩

end Calls

end Desktop

end DotnetPal
