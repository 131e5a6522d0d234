import DotnetPal.Foundations.Machines
import DotnetPal.Port
import Mathlib.Logic.Function.Basic

/-!
# Child processes of System.Native

Every child that was started has a record in a list under the table lock and a watcher thread that
waits for its end, records the exit code, lets the registered callback run and then lets the record
go. The code is collected by the process id. The record goes when the code was collected and the
watcher is through with it, by whichever of the two comes second; a start that fails behind the
spawn ends the child and takes its record back. Records are numbered in the order of the starts. A
step is what a thread does between two points where another may come in.
-/

open List Option Function

namespace DotnetPal.Native

open Programs

/-- Where the start of a child is. -/
inductive StartPhase
  /-- No child has this number yet. -/
  | unborn
  /-- Spawned, before its record is in the list. -/
  | ready
  /-- In the list, before its watcher is made; and after it could not be. -/
  | listed
  | unlucky
  | watched
  /-- Failed, before the child is ended; and after. -/
  | failed
  | ended
  deriving DecidableEq

/-- Where the watcher thread of a child is. -/
inductive WatcherPhase
  | absent
  /-- In the boundary's wait. -/
  | waiting
  /-- The code is recorded, and the callback runs. -/
  | calling
  | gone
  deriving DecidableEq

/-- The record of a child, with the handle of its process. -/
structure Child where
  pid : ℕ
  exitCode : ℤ
  exited : Bool
  reaped : Bool
  watcherDone : Bool
  start : StartPhase
  watcher : WatcherPhase
  /-- How many threads are about to dispose of it, and how often its handle was released. -/
  doomed : ℕ
  released : ℕ
  /-- How often a start that failed ended the child. -/
  terminated : ℕ
  /-- The codes the watcher recorded, and those the collecting calls returned. -/
  recorded : List ℤ
  collected : List ℤ

namespace Child

def unborn : Child := ⟨0, 0, false, false, false, .unborn, .absent, 0, 0, 0, [], []⟩

/-- A record after the spawn. -/
def spawned (pid : ℕ) (ok : Bool) : Child :=
  ⟨pid, 0, false, false, false, if ok then .ready else .failed, .absent, 0, 0, 0, [], []⟩

/-- The code of a wait that failed is the conventional "unknown". -/
def ends (code : Option ℤ) (c : Child) : Child :=
  { c with
    exitCode := code.getD 255
    exited := true
    watcher := .calling
    recorded := c.recorded ++ [code.getD 255] }

/-- Collected AND let go by its watcher. -/
def finished (c : Child) : Bool := c.reaped && c.watcherDone

def reap (c : Child) : Child :=
  { c with reaped := true, collected := c.collected ++ [c.exitCode] }

def letGo (c : Child) : Child := { c with watcherDone := true, watcher := .gone }

/-- The watcher is made, or cannot be. -/
def created (ok : Bool) (c : Child) : Child :=
  if ok then { c with start := .watched, watcher := .waiting } else { c with start := .unlucky }

/-- The watcher could not be made. -/
def withdrawn (c : Child) : Child := { c with reaped := true, watcherDone := true, start := .failed }

/-- Ends a child whose start failed. -/
def terminate (c : Child) : Child :=
  { c with start := .ended, terminated := c.terminated + 1, doomed := c.doomed + 1 }

def doom (c : Child) : Child := { c with doomed := c.doomed + 1 }

def disposed (c : Child) : Child := { c with doomed := c.doomed - 1, released := c.released + 1 }

end Child

structure Children where
  /-- The list, newest first. -/
  list : List ℕ
  records : ℕ → Child
  fresh : ℕ

namespace Children

def modify (id : ℕ) (change : Child → Child) (w : Children) : Children :=
  { w with records := update w.records id (change (w.records id)) }

/-- `detach_if_finished`, for the thread that disposes of what it returns. -/
def detachIfFinished (id : ℕ) (w : Children) : Children :=
  if (w.records id).finished then { w with list := w.list.erase id }.modify id Child.doom else w

/-- What a call that collects finds in the list: a child, or what it returns without one. -/
inductive Search
  | found (id : ℕ)
  | missing (result : ℤ)

/-- The loop of `WaitPidExitedNoHang`. -/
def search (records : ℕ → Child) (pid : ℤ) : List ℕ → ℤ → Search
  | [], result => .missing result
  | id :: rest, result =>
    if (records id).reaped ∨ (pid ≠ -1 ∧ (records id).pid ≠ pid) then search records pid rest result
    else if (records id).exited then .found id
    else if pid ≠ -1 then .missing 0
    else search records pid rest 0

/-- What `WaitPidExitedNoHang` answers: an id and a code, or 0 for a child that runs. -/
def waitPidAnswer (pid : ℤ) (w : Children) : Except Errno (ℕ × Option ℤ) :=
  match search w.records pid w.list (-1) with
  | .found id => .ok ((w.records id).pid, some (w.records id).exitCode)
  | .missing result => if result < 0 then .error .echild else .ok (0, none)

def waitPid (pid : ℤ) (w : Children) : Children :=
  match search w.records pid w.list (-1) with
  | .found id => (w.modify id Child.reap).detachIfFinished id
  | .missing _ => w

/-- `WaitIdAnyExitedNoHangNoWait`. -/
def waitIdAny (w : Children) : ℕ :=
  match w.list.find? fun id ↦ !(w.records id).reaped && (w.records id).exited with
  | some id => (w.records id).pid
  | none => 0

/-- The signals `Kill` knows: 0, SIGHUP, SIGINT, SIGQUIT, SIGKILL and SIGTERM. -/
def signals : List ℕ := [0, 1, 2, 3, 9, 15]

/-- The child `Kill` finds. -/
def target (pid : ℤ) (w : Children) : Option ℕ :=
  w.list.find? fun id ↦ decide ((w.records id).pid = pid) && !(w.records id).reaped

/-- The child `Kill` calls the boundary's terminate on. -/
def terminates (pid : ℤ) (signal : ℕ) (w : Children) : Option ℕ :=
  if signal ∈ signals ∧ signal ≠ 0 then (w.target pid).filter fun id ↦ !(w.records id).exited else none

/-- What `Kill` answers, where terminate answers `status`. -/
def killAnswer (pid : ℤ) (signal : ℕ) (status : Except Error Unit) (w : Children) : Except Errno Unit :=
  if signal ∉ signals then .error .enotsup
  else
    match w.target pid with
    | none => .error .eperm
    | some id =>
      if (w.records id).exited then .error .esrch
      else if signal = 0 then .ok ()
      else
        match status with
        | .ok () => .ok ()
        | .error error => .error (if error = .notFound then .esrch else snErrno error)

inductive Action
  /-- `descriptors`: whether all descriptors of the pipes could be made. -/
  | spawn (pid : ℕ) (descriptors : Bool)
  | list (id : ℕ)
  | create (id : ℕ) (ok : Bool)
  | withdraw (id : ℕ)
  /-- Ends a child whose start failed. -/
  | terminate (id : ℕ)
  /-- The boundary's wait returns, with a code or an error. -/
  | record (id : ℕ) (code : Option ℤ)
  | finish (id : ℕ)
  | waitPid (pid : ℤ)
  | waitIdAny
  | kill (pid : ℤ) (signal : ℕ)
  | dispose (id : ℕ)

def int32Max : ℕ := 2147483647

/-- A child whose code was not collected. -/
def Uncollected (c : Child) : Prop :=
  c.reaped = false ∧ c.start ∈ [StartPhase.ready, .listed, .unlucky, .watched]

instance (c : Child) : Decidable (Uncollected c) := inferInstanceAs (Decidable (_ ∧ _))

def next : Action → Children → Option Children
  | .spawn pid descriptors, w =>
    -- The system gives no two children the same id before the code of the first is collected.
    if ∀ id < w.fresh, Uncollected (w.records id) → (w.records id).pid ≠ pid then
      some { w with
        records := update w.records w.fresh (Child.spawned pid (decide (pid ≤ int32Max) && descriptors))
        fresh := w.fresh + 1 }
    else none
  | .list id, w =>
    if (w.records id).start = .ready then
      some ({ w with list := id :: w.list }.modify id fun c ↦ { c with start := .listed })
    else none
  | .create id ok, w =>
    if (w.records id).start = .listed then some (w.modify id (Child.created ok)) else none
  | .withdraw id, w =>
    -- The record is finished now, so that the detaching takes it out of the list.
    if (w.records id).start = .unlucky then
      some ({ w with list := w.list.erase id }.modify id Child.withdrawn)
    else none
  | .terminate id, w =>
    if (w.records id).start = .failed then some (w.modify id Child.terminate) else none
  | .record id code, w =>
    if (w.records id).watcher = .waiting then some (w.modify id (Child.ends code)) else none
  | .finish id, w =>
    if (w.records id).watcher = .calling then some ((w.modify id Child.letGo).detachIfFinished id) else none
  | .waitPid pid, w => some (w.waitPid pid)
  | .waitIdAny, w => some w
  | .kill _ _, w => some w
  | .dispose id, w =>
    if 0 < (w.records id).doomed then some (w.modify id Child.disposed) else none

def initial : Children := ⟨[], fun _ ↦ .unborn, 0⟩

def machine : Machine Children Action := ⟨initial, next⟩

/-! ## Invariants -/

end Children

/-- A record nothing has happened to. -/
structure Child.Untouched (c : Child) : Prop where
  exited : c.exited = false
  watcher : c.watcher = .absent
  recorded : c.recorded = []
  collected : c.collected = []

/-- A record that no call has collected and no thread disposes of. -/
structure Child.Pristine (c : Child) : Prop extends c.Untouched where
  reaped : c.reaped = false
  watcherDone : c.watcherDone = false
  doomed : c.doomed = 0
  released : c.released = 0
  terminated : c.terminated = 0

/-- What a watcher and the collecting calls have left in a record. -/
structure Child.Consistent (c : Child) : Prop where
  watcher : c.watcher ≠ .absent
  exited : c.exited = decide (c.watcher ≠ .waiting)
  watcherDone : c.watcherDone = decide (c.watcher = .gone)
  reaped : c.reaped = true → c.exited = true
  recorded : c.recorded = if c.exited then [c.exitCode] else []
  collected : c.collected = if c.reaped then [c.exitCode] else []
  terminated : c.terminated = 0

/-- A record with a watcher: in the list until it is finished, and then disposed of once. -/
structure Child.Watched (c : Child) (listed : Prop) : Prop extends c.Consistent where
  listed : listed ↔ c.finished = false
  disposals : c.doomed + c.released = c.finished.toNat

/-- What holds of a record, by where its start is and whether the list has it. -/
def Child.Sound (c : Child) (listed : Prop) : Prop :=
  match c.start with
  | .unborn | .ready => c.Pristine ∧ ¬ listed
  | .listed | .unlucky => c.Pristine ∧ listed
  | .watched => c.Watched listed
  | .failed => c.Untouched ∧ c.doomed = 0 ∧ c.released = 0 ∧ c.terminated = 0 ∧ ¬ listed
  | .ended => c.Untouched ∧ c.doomed + c.released = 1 ∧ c.terminated = 1 ∧ ¬ listed

variable {c : Child} {listed : Prop}

theorem Child.sound_watched (hstart : c.start = .watched) (h : c.Watched listed) : c.Sound listed := by
  unfold Child.Sound
  simpa [hstart] using h

/-- A record nobody has collected and nobody disposes of. -/
theorem Child.Sound.idle (h : c.Sound listed) (hstart : c.start ≠ .ended)
    (hfinished : c.start = .watched → c.finished = false) : c.doomed = 0 ∧ c.released = 0 := by
  unfold Child.Sound at h
  cases hcase : c.start with
  | unborn | ready | listed | unlucky =>
    simp only [hcase] at h
    exact ⟨h.1.doomed, h.1.released⟩
  | watched =>
    simp only [hcase] at h
    have hdisposals := h.disposals
    rw [hfinished hcase, Bool.toNat_false] at hdisposals
    omega
  | failed =>
    simp only [hcase] at h
    exact ⟨h.2.1, h.2.2.1⟩
  | ended => exact absurd hcase hstart

theorem Child.Sound.idle_of_listed (h : c.Sound listed) (hlisted : listed) :
    (c.doomed = 0 ∧ c.released = 0) ∧ c.start ∈ [StartPhase.listed, .unlucky, .watched] := by
  have hstart : c.start ∈ [StartPhase.listed, .unlucky, .watched] := by
    unfold Child.Sound at h
    cases hcase : c.start with
    | listed | unlucky | watched => simp
    | unborn | ready =>
      simp only [hcase] at h
      exact absurd hlisted h.2
    | failed =>
      simp only [hcase] at h
      exact absurd hlisted h.2.2.2.2
    | ended =>
      simp only [hcase] at h
      exact absurd hlisted h.2.2.2
  refine ⟨h.idle (by rintro heq; simp [heq] at hstart) fun hwatched ↦ ?_, hstart⟩
  unfold Child.Sound at h
  simp only [hwatched] at h
  exact h.listed.mp hlisted

/-- How often a record is or was disposed of. -/
theorem Child.Sound.disposals (h : c.Sound listed) : c.doomed + c.released =
      if (c.collected ≠ [] ∧ c.watcher = .gone) ∨ c.start = .ended then 1 else 0 := by
  unfold Child.Sound at h
  cases hcase : c.start with
  | unborn | ready | listed | unlucky =>
    simp only [hcase] at h
    simp [h.1.doomed, h.1.released, h.1.collected]
  | watched =>
    simp only [hcase] at h
    rw [h.disposals, h.collected]
    have hdone := h.watcherDone
    by_cases hreaped : c.reaped = true <;> by_cases hgone : c.watcher = .gone <;>
      simp [Child.finished, hreaped, hgone, hdone]
  | failed =>
    simp only [hcase] at h
    simp [h.2.1, h.2.2.1, h.1.collected]
  | ended =>
    simp only [hcase] at h
    simp [h.2.1]

theorem Child.Sound.collected (h : c.Sound listed) :
    c.collected = [] ∨ ∃ code, c.collected = [code] ∧ c.recorded = [code] := by
  unfold Child.Sound at h
  cases hcase : c.start with
  | unborn | ready | listed | unlucky =>
    simp only [hcase] at h
    exact .inl h.1.collected
  | watched =>
    simp only [hcase] at h
    rw [h.collected, h.recorded]
    by_cases hreaped : c.reaped = true
    · exact .inr ⟨c.exitCode, if_pos hreaped, if_pos (h.reaped hreaped)⟩
    · exact .inl (if_neg hreaped)
  | failed | ended =>
    simp only [hcase] at h
    exact .inl h.1.collected

theorem Child.Sound.terminated (h : c.Sound listed) : c.terminated = if c.start = .ended then 1 else 0 := by
  unfold Child.Sound at h
  cases hcase : c.start with
  | unborn | ready | listed | unlucky =>
    simp only [hcase] at h
    simpa using h.1.terminated
  | watched =>
    simp only [hcase] at h
    simpa using h.terminated
  | failed =>
    simp only [hcase] at h
    simpa using h.2.2.2.1
  | ended =>
    simp only [hcase] at h
    simpa using h.2.2.1

namespace Children

structure Sound (w : Children) : Prop where
  nodup : w.list.Nodup
  unborn : ∀ id, w.fresh ≤ id → (w.records id).start = .unborn
  child : ∀ id, (w.records id).Sound (id ∈ w.list)
  distinct : ∀ first second, Uncollected (w.records first) → Uncollected (w.records second) →
    (w.records first).pid = (w.records second).pid → first = second

variable {w w' : Children} {id : ℕ}

theorem sound_initial : Sound initial where
  nodup := nodup_nil
  unborn _ _ := rfl
  child _ := ⟨⟨⟨rfl, rfl, rfl, rfl⟩, rfl, rfl, rfl, rfl, rfl⟩, by simp [initial]⟩
  distinct _ _ h := by simp [Uncollected, initial, Child.unborn] at h

variable (h : Sound w)
include h

/-- A step that changes one record, and its place in the list. -/
theorem Sound.update (c : Child) (hnodup : w'.list.Nodup)
    (hlist : ∀ j, j ≠ id → (j ∈ w'.list ↔ j ∈ w.list))
    (hrecords : w'.records = update w.records id c) (hfresh : w'.fresh = w.fresh)
    (hborn : (w.records id).start ≠ .unborn) (hchild : c.Sound (id ∈ w'.list))
    (hpid : c.pid = (w.records id).pid) (huncollected : Uncollected c → Uncollected (w.records id)) :
    Sound w' := by
  have hself : w'.records id = c := by rw [hrecords, update_self]
  have hrest : ∀ j, j ≠ id → w'.records j = w.records j := fun j hj ↦ by
    rw [hrecords, update_of_ne hj]
  have hold : ∀ j, Uncollected (w'.records j) → Uncollected (w.records j) ∧
      (w'.records j).pid = (w.records j).pid := by
    intro j hj
    by_cases heq : j = id
    · subst heq
      rw [hself] at hj ⊢
      exact ⟨huncollected hj, hpid⟩
    · rw [hrest j heq] at hj ⊢
      exact ⟨hj, rfl⟩
  refine ⟨hnodup, fun j hj ↦ ?_, fun j ↦ ?_, fun a b ha hb heq ↦ ?_⟩
  · have hne : j ≠ id := fun heq ↦ hborn (h.unborn id (hfresh ▸ heq ▸ hj))
    rw [hrest j hne]
    exact h.unborn j (hfresh ▸ hj)
  · by_cases heq : j = id
    · subst heq
      rwa [hself]
    · rw [hrest j heq, hlist j heq]
      exact h.child j
  · obtain ⟨hone, hpidOne⟩ := hold a ha
    obtain ⟨htwo, hpidTwo⟩ := hold b hb
    exact h.distinct a b hone htwo (hpidOne.symm.trans (heq.trans hpidTwo))

/-- Something has happened only to a record with a watcher. -/
theorem Sound.watched (id : ℕ) (htouched : ¬ (w.records id).Untouched) :
    (w.records id).start = .watched ∧ (w.records id).Watched (id ∈ w.list) := by
  have hchild := h.child id
  unfold Child.Sound at hchild
  cases hstart : (w.records id).start with
  | watched => exact ⟨rfl, by simpa [hstart] using hchild⟩
  | unborn | ready | listed | unlucky =>
    simp only [hstart] at hchild
    exact absurd hchild.1.toUntouched htouched
  | failed | ended =>
    simp only [hstart] at hchild
    exact absurd hchild.1 htouched

/-- A record in the list changes and is taken out if it is finished now. -/
theorem Sound.detach {change : Child → Child} (hchange : change (w.records id) = c)
    (hlisted : id ∈ w.list) (hstart : (w.records id).start = .watched) (hkept : c.start = .watched)
    (hpid : c.pid = (w.records id).pid) (hreaped : c.reaped = false → (w.records id).reaped = false)
    (hconsistent : c.Consistent) (hdoomed : c.doomed = 0) (hreleased : c.released = 0) :
    Sound ((w.modify id change).detachIfFinished id) := by
  have hrecords : (w.modify id change).records = Function.update w.records id c := by rw [modify, hchange]
  have huncollected : Uncollected c → Uncollected (w.records id) := fun hchild ↦
    ⟨hreaped hchild.1, by simp [hstart]⟩
  have hborn : (w.records id).start ≠ .unborn := by simp [hstart]
  unfold detachIfFinished
  rw [hrecords, update_self]
  by_cases hfinished : c.finished = true
  · rw [if_pos hfinished]
    have hdisposals : c.doom.doomed + c.doom.released = c.finished.toNat := by
      simp [hfinished, Child.doom, hdoomed, hreleased]
    have hgone : id ∉ w.list.erase id := fun hmem ↦ (h.nodup.mem_erase_iff.mp hmem).1 rfl
    refine h.update c.doom (h.nodup.erase id) (fun j hj ↦ mem_erase_of_ne hj) ?_ rfl hborn
      (Child.sound_watched hkept { hconsistent with
        listed := iff_of_false hgone (ne_of_eq_of_ne hfinished (by decide))
        disposals := hdisposals }) hpid huncollected
    funext j
    by_cases hj : j = id
    · subst hj
      simp [modify, hchange]
    · simp [modify, hj]
  · rw [if_neg hfinished]
    rw [Bool.not_eq_true] at hfinished
    refine h.update c h.nodup (fun _ _ ↦ Iff.rfl) hrecords rfl hborn
      (Child.sound_watched hkept ⟨hconsistent, iff_of_true hlisted hfinished, ?_⟩) hpid huncollected
    rw [hfinished, hdoomed, hreleased]
    rfl

theorem Sound.spawn {pid : ℕ} {ok : Bool}
    (hdistinct : ∀ id < w.fresh, Uncollected (w.records id) → (w.records id).pid ≠ pid) :
    Sound { w with
      records := Function.update w.records w.fresh (Child.spawned pid ok)
      fresh := w.fresh + 1 } := by
  have hunlisted : w.fresh ∉ w.list := by
    have hchild := h.child w.fresh
    unfold Child.Sound at hchild
    rw [h.unborn w.fresh le_rfl] at hchild
    exact hchild.2
  have hborn : ∀ x, Uncollected (w.records x) → x < w.fresh := by
    intro x hx
    by_contra hnew
    simp [Uncollected, h.unborn x (Nat.le_of_not_lt hnew)] at hx
  refine ⟨h.nodup, fun x hx ↦ ?_, fun x ↦ ?_, fun a b ha hb heq ↦ ?_⟩
  · have hne : x ≠ w.fresh := Nat.ne_of_gt hx
    simp only [update_of_ne hne]
    exact h.unborn x (Nat.le_of_succ_le hx)
  · by_cases hx : x = w.fresh
    · subst hx
      simp only [update_self]
      cases ok with
      | true => exact ⟨⟨⟨rfl, rfl, rfl, rfl⟩, rfl, rfl, rfl, rfl, rfl⟩, hunlisted⟩
      | false => exact ⟨⟨rfl, rfl, rfl, rfl⟩, rfl, rfl, rfl, hunlisted⟩
    · simp only [update_of_ne hx]
      exact h.child x
  · by_cases hone : a = w.fresh
    · by_cases htwo : b = w.fresh
      · rw [hone, htwo]
      · simp only [hone, update_self, update_of_ne htwo] at hb heq
        exact absurd heq.symm (hdistinct b (hborn b hb) hb)
    · simp only [update_of_ne hone] at ha heq
      by_cases htwo : b = w.fresh
      · simp only [htwo, update_self] at heq
        exact absurd heq (hdistinct a (hborn a ha) ha)
      · simp only [update_of_ne htwo] at hb heq
        exact h.distinct a b ha hb heq

theorem Sound.list (hstart : (w.records id).start = .ready) :
    Sound ({ w with list := id :: w.list }.modify id fun c ↦ { c with start := .listed }) := by
  have hchild := h.child id
  unfold Child.Sound at hchild
  rw [hstart] at hchild
  obtain ⟨hpristine, hunlisted⟩ := hchild
  refine h.update { w.records id with start := .listed } (nodup_cons.mpr ⟨hunlisted, h.nodup⟩)
    (fun j hj ↦ ?_) rfl rfl (by simp [hstart]) ⟨?_, mem_cons_self⟩ rfl fun huncollected ↦ ?_
  · exact mem_cons.trans (or_iff_right hj)
  · exact { hpristine with }
  · exact ⟨huncollected.1, by simp [hstart]⟩

theorem Sound.create {ok : Bool} (hstart : (w.records id).start = .listed) :
    Sound (w.modify id (Child.created ok)) := by
  have hchild := h.child id
  unfold Child.Sound at hchild
  rw [hstart] at hchild
  obtain ⟨hpristine, hlisted⟩ := hchild
  have huncollected : Uncollected (w.records id) := ⟨hpristine.reaped, by simp [hstart]⟩
  refine h.update _ h.nodup (fun _ _ ↦ Iff.rfl) rfl rfl (by simp [hstart]) ?_ ?_ fun _ ↦ huncollected
  · cases ok with
    | true =>
      have hfinished : (w.records id).finished = false := by simp [Child.finished, hpristine.reaped]
      refine Child.sound_watched rfl ⟨⟨by simp [Child.created],
        by simp [Child.created, hpristine.exited], by simp [Child.created, hpristine.watcherDone],
        ?_, ?_, ?_, ?_⟩, iff_of_true hlisted hfinished, ?_⟩
      · simp [Child.created, hpristine.reaped]
      · simp [Child.created, hpristine.exited, hpristine.recorded]
      · simp [Child.created, hpristine.reaped, hpristine.collected]
      · exact hpristine.terminated
      · simp [Child.created, Child.finished, hpristine.doomed, hpristine.released, hpristine.reaped]
    | false =>
      exact ⟨{ hpristine with }, hlisted⟩
  · cases ok <;> rfl

theorem Sound.withdraw (hstart : (w.records id).start = .unlucky) :
    Sound ({ w with list := w.list.erase id }.modify id Child.withdrawn) := by
  have hchild := h.child id
  unfold Child.Sound at hchild
  rw [hstart] at hchild
  obtain ⟨hpristine, _⟩ := hchild
  refine h.update (w.records id).withdrawn (h.nodup.erase id) (fun j hj ↦ mem_erase_of_ne hj) rfl rfl
    (by simp [hstart]) ?_ rfl fun huncollected ↦ by simp [Uncollected, Child.withdrawn] at huncollected
  exact ⟨{ hpristine with }, hpristine.doomed, hpristine.released, hpristine.terminated, fun hmem ↦
    (h.nodup.mem_erase_iff.mp hmem).1 rfl⟩

theorem Sound.terminate (hstart : (w.records id).start = .failed) :
    Sound (w.modify id Child.terminate) := by
  have hchild := h.child id
  unfold Child.Sound at hchild
  rw [hstart] at hchild
  obtain ⟨huntouched, hdoomed, hreleased, hterminated, hunlisted⟩ := hchild
  refine h.update (w.records id).terminate h.nodup (fun _ _ ↦ Iff.rfl) rfl rfl (by simp [hstart])
    ⟨{ huntouched with }, ?_, ?_, hunlisted⟩ rfl
    fun huncollected ↦ by simp [Uncollected, Child.terminate] at huncollected
  · simp [Child.terminate, hdoomed, hreleased]
  · simp [Child.terminate, hterminated]

theorem Sound.record {code : Option ℤ} (hwatcher : (w.records id).watcher = .waiting) :
    Sound (w.modify id (Child.ends code)) := by
  obtain ⟨hstart, hwatched⟩ := h.watched id fun huntouched ↦ by simp [huntouched.watcher] at hwatcher
  have hexited : (w.records id).exited = false := by simpa [hwatcher] using hwatched.exited
  have hreaped : (w.records id).reaped = false := by
    rw [← Bool.not_eq_true]
    intro hreaped
    simpa [hexited] using hwatched.reaped hreaped
  refine h.update ((w.records id).ends code) h.nodup (fun _ _ ↦ Iff.rfl) rfl rfl (by simp [hstart])
    (Child.sound_watched hstart
      ⟨⟨by simp [Child.ends], by simp [Child.ends], ?_, fun _ ↦ rfl, ?_, ?_, hwatched.terminated⟩,
      hwatched.listed, hwatched.disposals⟩) rfl fun huncollected ↦ huncollected
  · simpa [Child.ends, hwatcher] using hwatched.watcherDone
  · simp [Child.ends, hwatched.recorded, hexited]
  · simp [Child.ends, hwatched.collected, hreaped]

theorem Sound.finish (hwatcher : (w.records id).watcher = .calling) :
    Sound ((w.modify id Child.letGo).detachIfFinished id) := by
  obtain ⟨hstart, hwatched⟩ := h.watched id fun huntouched ↦ by simp [huntouched.watcher] at hwatcher
  have hdone : (w.records id).watcherDone = false := by simpa [hwatcher] using hwatched.watcherDone
  have hexited : (w.records id).exited = true := by simpa [hwatcher] using hwatched.exited
  have hfinished : (w.records id).finished = false := by simp [Child.finished, hdone]
  obtain ⟨hdoomed, hreleased⟩ := (h.child id).idle (by simp [hstart]) fun _ ↦ hfinished
  exact h.detach rfl (hwatched.listed.mpr hfinished) hstart hstart rfl
    (fun hreaped ↦ hreaped) { hwatched with
      watcher := by
        simp [Child.letGo], exited := by simp [Child.letGo, hexited], watcherDone := by simp [Child.letGo] }
    hdoomed hreleased

theorem Sound.dispose (hdoomed : 0 < (w.records id).doomed) : Sound (w.modify id Child.disposed) := by
  have hchild := h.child id
  have hborn : (w.records id).start ≠ .unborn := by
    intro hstart
    unfold Child.Sound at hchild
    rw [hstart] at hchild
    have hzero := hchild.1.doomed
    omega
  refine h.update (w.records id).disposed h.nodup (fun _ _ ↦ Iff.rfl) rfl rfl hborn ?_ rfl
    fun huncollected ↦ huncollected
  have hsum : (w.records id).disposed.doomed + (w.records id).disposed.released =
      (w.records id).doomed + (w.records id).released := by
    simp only [Child.disposed]
    omega
  by_cases hwatched : (w.records id).start = .watched
  · have hold : (w.records id).Watched (id ∈ w.list) := by
      unfold Child.Sound at hchild
      rwa [hwatched] at hchild
    exact Child.sound_watched hwatched { hold with disposals := hsum.trans hold.disposals }
  · have hended : (w.records id).start = .ended := by
      by_contra hne
      have hzero := (hchild.idle hne fun heq ↦ absurd heq hwatched).1
      omega
    unfold Child.Sound at hchild
    rw [hended] at hchild
    obtain ⟨huntouched, hone, hterminated, hunlisted⟩ := hchild
    unfold Child.Sound
    rw [show (w.records id).disposed.start = .ended from hended]
    exact ⟨{ huntouched with }, hsum.trans hone, hterminated, hunlisted⟩

/-! ## Collecting -/

omit h in
theorem search_found {records : ℕ → Child} {pid result : ℤ} {list : List ℕ}
    (h : search records pid list result = .found id) :
    id ∈ list ∧ (records id).reaped = false ∧ (records id).exited = true := by
  induction list generalizing result with
  | nil => cases h
  | cons head rest ih =>
    simp only [search] at h
    split_ifs at h with hskip hexited hany
    · exact (ih h).imp_left (mem_cons_of_mem _)
    · cases h
      exact ⟨mem_cons_self, by simpa using fun hreaped ↦ hskip (.inl hreaped), hexited⟩
    · exact (ih h).imp_left (mem_cons_of_mem _)

omit h in
/-- The one uncollected child with an id is found, wherever it is in the list. -/
theorem search_eq_found {records : ℕ → Child} {pid result : ℤ} {list : List ℕ} (hmem : id ∈ list)
    (hreaped : (records id).reaped = false) (hexited : (records id).exited = true)
    (hpid : (records id).pid = pid) (hany : pid ≠ -1)
    (hdistinct : ∀ j ∈ list, (records j).reaped = false → (records j).pid = pid → j = id) :
    search records pid list result = .found id := by
  induction list generalizing result with
  | nil => cases hmem
  | cons head rest ih =>
    simp only [search]
    by_cases hskip : (records head).reaped = true ∨ (pid ≠ -1 ∧ ((records head).pid : ℤ) ≠ pid)
    · rw [if_pos hskip]
      have hne : id ≠ head := by
        rintro rfl
        rcases hskip with hreap | ⟨_, hj⟩
        · simp [hreaped] at hreap
        · exact hj hpid
      exact ih (mem_of_ne_of_mem hne hmem) fun j hj ↦ hdistinct j (mem_cons_of_mem _ hj)
    · rw [not_or, not_and_or, not_ne_iff, not_ne_iff, Bool.not_eq_true] at hskip
      obtain rfl := hdistinct head mem_cons_self hskip.1 (hskip.2.resolve_left hany)
      rw [if_neg, if_pos hexited]
      simp [hreaped, hpid]

theorem Sound.waitPid {pid : ℤ} : Sound (w.waitPid pid) := by
  unfold Children.waitPid
  cases hsearch : search w.records pid w.list (-1) with
  | missing result => exact h
  | found id =>
    obtain ⟨hlisted, hreaped, hexited⟩ := search_found hsearch
    obtain ⟨hstart, hwatched⟩ := h.watched id fun huntouched ↦ by simp [huntouched.exited] at hexited
    have hfinished := hwatched.listed.mp hlisted
    obtain ⟨hdoomed, hreleased⟩ := (h.child id).idle (by simp [hstart]) fun _ ↦ hfinished
    exact h.detach rfl hlisted hstart hstart rfl (fun heq ↦ by simp [Child.reap] at heq)
      { hwatched with
        reaped := fun _ ↦ hexited
        collected := by simp [Child.reap, hwatched.collected, hreaped] }
      hdoomed hreleased

theorem Sound.next {action : Action} (hnext : next action w = some w') : Sound w' := by
  cases action with
  | spawn pid descriptors =>
    obtain ⟨hdistinct, ⟨⟩⟩ := ite_none_right_eq_some.mp hnext
    exact h.spawn hdistinct
  | list id =>
    obtain ⟨hstart, ⟨⟩⟩ := ite_none_right_eq_some.mp hnext
    exact h.list hstart
  | create id ok =>
    obtain ⟨hstart, ⟨⟩⟩ := ite_none_right_eq_some.mp hnext
    exact h.create hstart
  | withdraw id =>
    obtain ⟨hstart, ⟨⟩⟩ := ite_none_right_eq_some.mp hnext
    exact h.withdraw hstart
  | terminate id =>
    obtain ⟨hstart, ⟨⟩⟩ := ite_none_right_eq_some.mp hnext
    exact h.terminate hstart
  | record id code =>
    obtain ⟨hwatcher, ⟨⟩⟩ := ite_none_right_eq_some.mp hnext
    exact h.record hwatcher
  | finish id =>
    obtain ⟨hwatcher, ⟨⟩⟩ := ite_none_right_eq_some.mp hnext
    exact h.finish hwatcher
  | waitPid pid =>
    cases hnext
    exact h.waitPid
  | waitIdAny | kill =>
    cases hnext
    exact h
  | dispose id =>
    obtain ⟨hdoomed, ⟨⟩⟩ := ite_none_right_eq_some.mp hnext
    exact h.dispose hdoomed

omit h in
theorem sound_of_reachable (h : machine.runs.Reachable w) : Sound w :=
  Machine.invariant sound_initial (fun _ _ _ _ hs hnext ↦ hs.next hnext) h

omit h in
theorem collected_waitPid {pid : ℤ} (hsearch : search w.records pid w.list (-1) = .found id) (j : ℕ) :
    ((w.waitPid pid).records j).collected =
      if j = id then (w.records id).collected ++ [(w.records id).exitCode]
        else (w.records j).collected := by
  simp only [Children.waitPid, hsearch, detachIfFinished]
  by_cases hj : j = id
  · subst hj
    rw [if_pos rfl]
    split_ifs <;> simp [modify, Child.reap, Child.doom]
  · rw [if_neg hj]
    split_ifs <;> simp [modify, hj]

/-- A call that names the child collects its code. -/
theorem Sound.collects {code : ℤ} (hcode : code ∈ (w.records id).recorded)
    (hcollected : (w.records id).collected = []) :
    w.waitPidAnswer (w.records id).pid = .ok ((w.records id).pid, some code) ∧
      ((w.waitPid (w.records id).pid).records id).collected = [code] := by
  obtain ⟨hstart, hwatched⟩ := h.watched id fun huntouched ↦ by simp [huntouched.recorded] at hcode
  have hexited : (w.records id).exited = true ∧ (w.records id).exitCode = code := by
    rw [hwatched.recorded] at hcode
    by_cases hexited : (w.records id).exited = true
    · rw [if_pos hexited, mem_singleton] at hcode
      exact ⟨hexited, hcode.symm⟩
    · simp [hexited] at hcode
  have hreaped : (w.records id).reaped = false := by
    rw [← Bool.not_eq_true]
    intro hreaped
    simp [hwatched.collected, hreaped] at hcollected
  have hx : search w.records (w.records id).pid w.list (-1) = .found id := by
    refine search_eq_found (hwatched.listed.mpr (by simp [Child.finished, hreaped])) hreaped
      hexited.1 rfl (by omega)
      fun j hj hunreaped hpid ↦ ?_
    have hotherStart := ((h.child j).idle_of_listed hj).2
    refine h.distinct j id ⟨hunreaped, ?_⟩ ⟨hreaped, by simp [hstart]⟩ (by exact_mod_cast hpid)
    exact mem_cons_of_mem _ hotherStart
  constructor
  · simp only [waitPidAnswer, hx, hexited.2]
  · rw [collected_waitPid hx, if_pos rfl, hcollected, hexited.2]
    rfl

/-- An answer with a code is the one that collects it, and any other answer changes nothing. -/
theorem Sound.answers (asked : ℤ) :
    (∀ pid code, w.waitPidAnswer asked = .ok (pid, some code) → ∃ id ∈ w.list, (w.records id).pid = pid ∧
      (w.records id).recorded = [code] ∧ (w.records id).collected = [] ∧
      ∀ j, ((w.waitPid asked).records j).collected = if j = id then [code] else (w.records j).collected) ∧
    ((∀ pid code, w.waitPidAnswer asked ≠ .ok (pid, some code)) → w.waitPid asked = w) := by
  cases hsearch : search w.records asked w.list (-1) with
  | missing result =>
    refine ⟨fun pid code hanswer ↦ ?_, fun _ ↦ by rw [Children.waitPid, hsearch]⟩
    simp only [waitPidAnswer, hsearch] at hanswer
    split_ifs at hanswer
    cases hanswer
  | found id =>
    have hanswer : w.waitPidAnswer asked = .ok ((w.records id).pid, some (w.records id).exitCode) := by
      rw [waitPidAnswer, hsearch]
    refine ⟨fun pid code hcode ↦ ?_, fun hother ↦ absurd hanswer (hother _ _)⟩
    obtain ⟨rfl, rfl⟩ : (w.records id).pid = pid ∧ (w.records id).exitCode = code := by
      simpa [hanswer] using hcode
    obtain ⟨hlisted, hreaped, hexited⟩ := search_found hsearch
    have hwatched := (h.watched id fun huntouched ↦ by simp [huntouched.exited] at hexited).2
    have hcollected : (w.records id).collected = [] := by simp [hwatched.collected, hreaped]
    refine ⟨id, hlisted, rfl, by simp [hwatched.recorded, hexited], hcollected, fun j ↦ ?_⟩
    rw [collected_waitPid hsearch, hcollected]
    rfl

theorem Sound.terminates {pid : ℤ} {signal : ℕ} (hkill : w.terminates pid signal = some id) :
    (w.records id).exited = false ∧ (w.records id).doomed = 0 ∧ (w.records id).released = 0 := by
  obtain ⟨_, hfilter⟩ := ite_none_right_eq_some.mp hkill
  obtain ⟨htarget, hexited⟩ := filter_eq_some_iff.mp hfilter
  have hlisted : id ∈ w.list := mem_of_find?_eq_some htarget
  exact ⟨by simpa using hexited, ((h.child id).idle_of_listed hlisted).1⟩

omit h

/-- In every interleaving, where the system gives no two uncollected children the same id: the list
has no record twice and none that was or is being disposed of; a code is collected at most once and
is the one the watcher recorded; a call that names the id of a child whose code is recorded and not
collected returns it; a call that returns a code collects it, from a listed child whose code was not
collected, and no other call collects any; a record is disposed of, and its handle released, once,
after its code was collected and its watcher is through or after its start failed; `Kill` calls
terminate only on a child that is not recorded as ended and whose handle is in use, and a start that
failed does so once, before it releases the handle. -/
theorem children_of_reachable (hreach : machine.runs.Reachable w) : w.list.Nodup ∧
    (∀ id ∈ w.list, (w.records id).doomed = 0 ∧ (w.records id).released = 0) ∧
    (∀ id, (w.records id).collected = [] ∨ ∃ code, (w.records id).collected = [code] ∧
      (w.records id).recorded = [code]) ∧
    (∀ id code, code ∈ (w.records id).recorded → (w.records id).collected = [] →
      w.waitPidAnswer (w.records id).pid = .ok ((w.records id).pid, some code) ∧
      ((w.waitPid (w.records id).pid).records id).collected = [code]) ∧
    (∀ asked,
      (∀ pid code, w.waitPidAnswer asked = .ok (pid, some code) → ∃ id ∈ w.list, (w.records id).pid = pid ∧
        (w.records id).recorded = [code] ∧ (w.records id).collected = [] ∧
        ∀ j, ((w.waitPid asked).records j).collected = if j = id then [code] else (w.records j).collected) ∧
      ((∀ pid code, w.waitPidAnswer asked ≠ .ok (pid, some code)) → w.waitPid asked = w)) ∧
    (∀ id, (w.records id).doomed + (w.records id).released =
      if ((w.records id).collected ≠ [] ∧ (w.records id).watcher = .gone) ∨ (w.records id).start = .ended
      then 1 else 0) ∧
    (∀ pid signal id, w.terminates pid signal = some id →
      (w.records id).exited = false ∧ (w.records id).doomed = 0 ∧ (w.records id).released = 0) ∧
    (∀ id, (w.records id).terminated = if (w.records id).start = .ended then 1 else 0) ∧
    (∀ id, (w.records id).start = .failed → (w.records id).exited = false ∧
      (w.records id).released = 0) := by
  have h := sound_of_reachable hreach
  refine ⟨h.nodup, fun id hid ↦ ((h.child id).idle_of_listed hid).1, fun id ↦ (h.child id).collected,
    fun id code hcode hcollected ↦ h.collects hcode hcollected, h.answers, fun id ↦ (h.child id).disposals,
    fun pid signal id hkill ↦ h.terminates hkill, fun id ↦ (h.child id).terminated, fun id hfailed ↦ ?_⟩
  have hchild := h.child id
  unfold Child.Sound at hchild
  rw [hfailed] at hchild
  exact ⟨hchild.1.exited, hchild.2.2.1⟩

/-- A child that is collected by the callback of its watcher, and one whose watcher cannot be made. -/
def twoStarts : List Action :=
  [.spawn 7 true, .list 0, .create 0 true, .spawn 8 true, .list 1, .create 1 false,
    .record 0 (some 3), .waitPid 7, .withdraw 1, .finish 0, .dispose 0, .terminate 1, .dispose 1]

theorem children_of_reachable_twoStarts :
    (∃ w, machine.run (twoStarts.take 7) machine.start = some w ∧
      w.waitPidAnswer 7 = .ok (7, some 3) ∧ ((w.waitPid 7).records 0).collected = [3]) ∧
    ∃ w, machine.run twoStarts machine.start = some w ∧ w.list = [] ∧
      ((w.records 0).collected = [] ∨ ∃ code, (w.records 0).collected = [code] ∧
        (w.records 0).recorded = [code]) := by
  have hrecorded : ∃ w, machine.run (twoStarts.take 7) machine.start = some w ∧
      (w.records 0).pid = 7 ∧ (w.records 0).recorded = [3] ∧ (w.records 0).collected = [] :=
    ⟨_, rfl, rfl, rfl, rfl⟩
  have hrun : ∃ w, machine.run twoStarts machine.start = some w ∧ w.list = [] := ⟨_, rfl, rfl⟩
  obtain ⟨v, hbefore, hpid, hcode, hnone⟩ := hrecorded
  obtain ⟨w, hworld, hlist⟩ := hrun
  refine ⟨⟨v, hbefore, ?_⟩, w, hworld, hlist, ?_⟩
  · have hanswer := (children_of_reachable (Machine.reachable_of_run hbefore)).2.2.2.1 0 3
      (hcode ▸ mem_singleton_self 3) hnone
    rwa [hpid] at hanswer
  · exact (children_of_reachable (Machine.reachable_of_run hworld)).2.2.1 0

end Children

end DotnetPal.Native
