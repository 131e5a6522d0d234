import DotnetPal.Foundations.Machines
import DotnetPal.Foundations.OrderedMap

/-!
# Starting the reader of a pipe

The first use of a pipe that must not block makes a record for a reader thread, publishes it under
the table lock and then makes the thread; where the thread cannot be made the record is withdrawn
and freed. Every other use looks at the record under the lock and goes on with what it saw. A call
pins the pipe while it runs, and the reader thread has a pin of its own. A step is what a thread
does between two points where another may come in.
-/

open Std Option Function

namespace DotnetPal.Native

open Programs OrderedMap

/-- What a call wants of `sn_pipe_watch`: to read, to observe readiness, or to switch to
non-blocking mode. -/
inductive Use
  | read
  | observe
  | switch
  deriving DecidableEq

/-- Where a call is. Records are numbers. -/
inductive Stage
  /-- A Read before its first look at the record. -/
  | loading
  /-- A Read that saw no record, before its first and its second look at the mode. -/
  | firstMode
  | secondMode
  /-- In `sn_pipe_watch`: before the first lock, before the memory is asked for, before
  the second lock. -/
  | entering (use : Use)
  | making (use : Use)
  | made (use : Use) (record : ℕ)
  /-- Published, before the thread is made; and after it could not be. -/
  | published (use : Use) (record : ℕ)
  | failing (use : Use) (record : ℕ)
  /-- Before the record is freed. -/
  | releasing (use : Use) (record : ℕ) (answer : Bool)
  | returned (use : Use) (answer : Bool)
  /-- A Read before its second look at the record. -/
  | resuming
  /-- A Read in its loop, with a record or without. -/
  | serving (record : ℕ)
  | lost
  /-- A Read in the boundary's own `pipe_read`. -/
  | direct
  | leaving
  deriving DecidableEq

namespace Stage

def first : Use → Stage
  | .read => .loading
  | use => .entering use

/-- The call can end. -/
def ends : Stage → Bool
  | .serving _ | .direct | .leaving => true
  | _ => false

/-- The record the call made and has not freed. -/
def own? : Stage → Option ℕ
  | .made _ r | .published _ r | .failing _ r | .releasing _ r _ => some r
  | _ => none

/-- One, between the publication of a record and the making of its thread or the withdrawal. -/
def pending : Stage → ℕ
  | .published _ _ | .failing _ _ => 1
  | _ => 0

theorem pending_made (use : Use) (r : ℕ) : (made use r).pending = 0 := rfl

theorem pending_published (use : Use) (r : ℕ) : (published use r).pending = 1 := rfl

theorem pending_failing (use : Use) (r : ℕ) : (failing use r).pending = 1 := rfl

theorem pending_releasing (use : Use) (r : ℕ) (answer : Bool) : (releasing use r answer).pending = 0 := rfl

/-- The next step looks at the record the pipe names. -/
def looks : Stage → Bool
  | .loading | .entering _ | .made _ _ => true
  | _ => false

end Stage

/-- A reader thread: made, running on the record the pipe named when it began, or gone. -/
inductive ReaderThread
  | created
  | running (record : Option ℕ)
  | finished
  deriving DecidableEq

def ReaderThread.active : ReaderThread → ℕ
  | .finished => 0
  | _ => 1

/-- What the threads share. -/
structure Shared where
  reader : Option ℕ
  nonblocking : Bool
  references : ℕ
  descriptors : ℕ
  /-- The pins taken for reader threads. -/
  pins : ℕ
  /-- The reader threads, by the record they were made for. -/
  threads : ExtTreeMap ℕ ReaderThread
  freed : ℕ → Bool
  fresh : ℕ
  destroyed : Bool

structure PipeStart where
  shared : Shared
  calls : ExtTreeMap ℕ Stage

namespace PipeStart

/-- The next step of a call. `ok` is whether the boundary can make what is asked of it. -/
def turn (ok : Bool) (shared : Shared) : Stage → Option (Stage × Shared)
  | .loading =>
    match shared.reader with
    | some r => some (.serving r, shared)
    | none => some (.firstMode, shared)
  | .firstMode => some (if shared.nonblocking then .entering .read else .secondMode, shared)
  | .secondMode => some (if shared.nonblocking then .resuming else .direct, shared)
  | .entering use => some (if shared.reader.isSome then .returned use true else .making use, shared)
  | .making use =>
    if ok then some (.made use shared.fresh, { shared with fresh := shared.fresh + 1 })
    else some (.returned use false, shared)
  | .made use r =>
    if shared.reader.isSome then some (.releasing use r true, shared)
    else some (.published use r,
      { shared with reader := some r, references := shared.references + 1, pins := shared.pins + 1 })
  | .published use r =>
    if ok then some (.returned use true, { shared with threads := shared.threads.insert r .created })
    else some (.failing use r, shared)
  | .failing use r =>
    some (.releasing use r false,
      { shared with reader := none, references := shared.references - 1, pins := shared.pins - 1 })
  | .releasing use r answer =>
    some (.returned use answer, { shared with freed := update shared.freed r true })
  | .returned .read true => some (.secondMode, shared)
  | .returned .switch true => some (.leaving, { shared with nonblocking := true })
  | .returned _ _ => some (.leaving, shared)
  | .resuming =>
    match shared.reader with
    | some r => some (.serving r, shared)
    | none => some (.lost, shared)
  | .serving _ | .lost | .direct | .leaving => none

/-- A reference goes; with the last one `sn_pipe_destroy` frees the record. -/
def letGo (shared : Shared) : Shared :=
  let left := { shared with references := shared.references - 1 }
  if left.references = 0 then
    { left with
      destroyed := true
      reader := none
      freed := match shared.reader with
        | some r => update shared.freed r true
        | none => shared.freed }
  else left

inductive Action
  | start (call : ℕ) (use : Use)
  | turn (call : ℕ) (ok : Bool)
  | leave (call : ℕ)
  | run (record : ℕ)
  | stop (record : ℕ)
  | dup
  | close
  /-- Back to blocking mode. -/
  | unswitch

def next : Action → PipeStart → Option PipeStart
  | .start call use, w =>
    if w.calls[call]? = none ∧ 0 < w.shared.descriptors then
      some ⟨{ w.shared with references := w.shared.references + 1 }, w.calls.insert call (Stage.first use)⟩
    else none
  | .turn call ok, w =>
    w.calls[call]?.bind fun stage ↦
      (turn ok w.shared stage).map fun (after, shared) ↦ ⟨shared, w.calls.insert call after⟩
  | .leave call, w =>
    w.calls[call]?.bind fun stage ↦
      if stage.ends then some ⟨letGo w.shared, w.calls.erase call⟩ else none
  | .run r, w =>
    if w.shared.threads[r]? = some .created then
      some { w with
        shared := { w.shared with threads := w.shared.threads.insert r (.running w.shared.reader) } }
    else none
  | .stop r, w =>
    match w.shared.threads[r]? with
    | some (.running _) =>
      some { w with
        shared := letGo { w.shared with
          threads := w.shared.threads.insert r .finished
          pins := w.shared.pins - 1 } }
    | _ => none
  | .dup, w =>
    if 0 < w.shared.descriptors then
      some { w with
        shared := { w.shared with
          references := w.shared.references + 1
          descriptors := w.shared.descriptors + 1 } }
    else none
  | .close, w =>
    if 0 < w.shared.descriptors then
      some { w with shared := letGo { w.shared with descriptors := w.shared.descriptors - 1 } }
    else none
  | .unswitch, w =>
    if 0 < w.shared.descriptors then some { w with shared := { w.shared with nonblocking := false } }
    else none

/-- A pipe with one descriptor. -/
def initial : PipeStart where
  shared :=
    { reader := none, nonblocking := false, references := 1, descriptors := 1, pins := 0, threads := ∅
      freed := fun _ ↦ false, fresh := 0, destroyed := false }
  calls := ∅

def machine : Machine PipeStart Action := ⟨initial, next⟩

/-! ## Invariants -/

/-- The pipe names the record, and its thread was made. -/
def Started (shared : Shared) (r : ℕ) : Prop := shared.reader = some r ∧ r ∈ shared.threads

/-- What a call relies on. -/
def Backed (shared : Shared) : Stage → Prop
  | .returned _ true | .resuming | .releasing _ _ true => ∃ r, Started shared r
  | .serving r => Started shared r
  | .published _ r | .failing _ r => shared.reader = some r
  | .lost => False
  | _ => True

/-- With references that nothing accounts for. -/
structure Sound (extra : ℕ) (w : PipeStart) : Prop where
  backed : ∀ (call : ℕ) (stage : Stage), w.calls[call]? = some stage → Backed w.shared stage
  owns : ∀ (call : ℕ) (stage : Stage) (r : ℕ), w.calls[call]? = some stage → stage.own? = some r →
    r < w.shared.fresh ∧ w.shared.freed r = false ∧ r ∉ w.shared.threads
  unique : ∀ (first second : ℕ) (one two : Stage) (r : ℕ), w.calls[first]? = some one →
    w.calls[second]? = some two → one.own? = some r → two.own? = some r → first = second
  named : ∀ r, w.shared.reader = some r → r < w.shared.fresh ∧
    w.shared.freed r = false ∧ (r ∈ w.shared.threads ∨
      ∃ (call : ℕ) (stage : Stage), w.calls[call]? = some stage ∧ stage.own? = some r ∧ stage.pending = 1)
  threads : ∀ (r : ℕ) (thread : ReaderThread), w.shared.threads[r]? = some thread →
    r < w.shared.fresh ∧ (w.shared.destroyed = false → w.shared.reader = some r) ∧
    ∀ seen, thread = .running seen → seen = some r
  unused : ∀ r, w.shared.fresh ≤ r → w.shared.freed r = false
  mode : w.shared.destroyed = false → w.shared.nonblocking = true → ∃ r, Started w.shared r
  references : w.shared.references =
    w.shared.descriptors + total (fun _ _ ↦ 1) w.calls + w.shared.pins + extra
  pins : w.shared.pins = total (fun _ thread ↦ thread.active) w.shared.threads +
    total (fun _ stage ↦ stage.pending) w.calls
  gone : w.shared.destroyed = true → w.shared.references = 0

variable {w : PipeStart} {shared : Shared} {calls : ExtTreeMap ℕ Stage} {call r extra : ℕ} {g after : Stage}
  {use : Use}

theorem sound_initial : Sound 0 initial where
  backed _ _ h := by simp [initial] at h
  owns _ _ _ h := by simp [initial] at h
  unique _ _ _ _ _ h := by simp [initial] at h
  named _ h := by simp [initial] at h
  threads _ _ h := by simp [initial] at h
  unused _ _ := rfl
  mode _ h := by simp [initial] at h
  references := by simp [initial]
  pins := by simp [initial]
  gone h := by simp [initial] at h

/-- A call that has no thread yet for the record the pipe names: no other call relies on one. -/
theorem Sound.not_started (h : Sound extra w) (hcall : w.calls[call]? = some g)
    (hown : g.own? = some r) (hreader : w.shared.reader = some r) (x : ℕ) :
    ¬ Started w.shared x := by
  rintro ⟨hx, hthread⟩
  have hsame : r = x := some.inj (hreader.symm.trans hx)
  exact (h.owns call g r hcall hown).2.2 (hsame ▸ hthread)

/-- While the pipe lives, only the record it names has a thread. -/
theorem Sound.reader_of_mem (h : Sound extra w) (hlive : w.shared.destroyed = false)
    (hmem : r ∈ w.shared.threads) : w.shared.reader = some r := by
  obtain ⟨t, hthread⟩ := isSome_iff_exists.mp (ExtTreeMap.mem_iff_isSome_getElem?.mp hmem)
  exact (h.threads r t hthread).2.1 hlive

/-- With a call under way the pipe is not destroyed. -/
theorem Sound.live (h : Sound extra w) (hcall : w.calls[call]? = some g) : w.shared.destroyed = false := by
  rw [← Bool.not_eq_true]
  intro hgone
  have hreferences := h.references
  rw [h.gone hgone] at hreferences
  have hn := weight_le_total (fun _ _ ↦ 1) w.calls hcall
  omega

/-- The last reference goes when no call runs and no thread is left. -/
theorem Sound.letGo (h : Sound 1 ⟨shared, calls⟩) : Sound 0 ⟨letGo shared, calls⟩ := by
  have hreferences := h.references
  have hpins := h.pins
  simp only at hreferences hpins
  unfold PipeStart.letGo
  by_cases hlast : shared.references - 1 = 0
  · have hcalls : ∀ (call : ℕ) (g : Stage), calls[call]? ≠ some g := fun call g hcall ↦ by
      have hn := weight_le_total (fun _ _ ↦ 1) calls hcall
      omega
    rw [if_pos hlast]
    refine ⟨fun call g hcall ↦ absurd hcall (hcalls call g),
      fun call g _ hcall ↦ absurd hcall (hcalls call g),
      fun a _ one _ _ ha ↦ absurd ha (hcalls a one), fun _ hnone ↦ by simp at hnone,
      fun r t hthread ↦ ?_, fun r hrecord ↦ ?_, fun hlive ↦ by simp at hlive, by simp only; omega,
      by simpa using hpins, fun _ ↦ hlast⟩
    · obtain ⟨hfresh, _, hseen⟩ := h.threads r t hthread
      exact ⟨hfresh, fun hlive ↦ by simp at hlive, hseen⟩
    · have hunused := h.unused r hrecord
      cases hreader : shared.reader with
      | none => exact hunused
      | some named =>
        have hne : r ≠ named := fun heq ↦ by
          have hfresh := (h.named named hreader).1
          simp only at hfresh hrecord
          omega
        simpa [hne] using hunused
  · rw [if_neg hlast]
    refine { h with references := by simp only; omega, gone := fun hgone ↦ ?_ }
    have hzero := h.gone hgone
    simp only at hzero
    omega

/-! ## Steps of a call -/

/-- What the pipe's record has to be where a call moves on: the thread was made, or a call is
about to make it. -/
def Followed (w' : Shared) (calls : ExtTreeMap ℕ Stage) (r : ℕ) : Prop :=
  r < w'.fresh ∧ w'.freed r = false ∧ (r ∈ w'.threads ∨
    ∃ (call : ℕ) (stage : Stage), calls[call]? = some stage ∧ stage.own? = some r ∧ stage.pending = 1)

variable {w' : Shared}

variable (h : Sound extra w)
include h

variable (hcall : w.calls[call]? = some g)
include hcall

/-- A call moves on. It keeps the record it made, or drops it, or has a new one; the records of the
other calls stay theirs. -/
theorem Sound.move (hafter : Backed w' after)
    (hothers : ∀ (j : ℕ) (seen : Stage), j ≠ call → w.calls[j]? = some seen → Backed w' seen)
    (hown : ∀ r, after.own? = some r → (g.own? = some r ∨ w.shared.fresh ≤ r) ∧
      r < w'.fresh ∧ w'.freed r = false ∧ r ∉ w'.threads)
    (hkept : ∀ r, g.own? ≠ some r → r < w.shared.fresh → w.shared.freed r = false →
      r ∉ w.shared.threads → r < w'.fresh ∧ w'.freed r = false ∧ r ∉ w'.threads)
    (hnamed : ∀ r, w'.reader = some r → Followed w' (w.calls.insert call after) r)
    (hthreads : ∀ (r : ℕ) (t : ReaderThread), w'.threads[r]? = some t →
      r < w'.fresh ∧ w'.reader = some r ∧ ∀ seen, t = .running seen → seen = some r)
    (hunused : ∀ r, w'.fresh ≤ r → w'.freed r = false)
    (hmode : w'.nonblocking = true → ∃ r, Started w' r)
    (hreferences : w'.references = w'.descriptors + total (fun _ _ ↦ 1) w.calls + w'.pins + extra)
    (hpins : w'.pins + g.pending = total (fun _ t ↦ t.active) w'.threads +
      total (fun _ g ↦ g.pending) w.calls + after.pending)
    (hlive : w'.destroyed = false) : Sound extra ⟨w', w.calls.insert call after⟩ where
  backed x seen hx := by
    rcases insert_cases hx with ⟨_, rfl⟩ | ⟨hne, hx⟩
    · exact hafter
    · exact hothers x seen hne.symm hx
  owns x seen r hx hrecord := by
    rcases insert_cases hx with ⟨_, rfl⟩ | ⟨hne, hx⟩
    · exact (hown r hrecord).2
    · obtain ⟨hfresh, hfreed, hthread⟩ := h.owns x seen r hx hrecord
      exact hkept r (fun hmine ↦ hne (h.unique call x g seen r hcall hx hmine hrecord)) hfresh hfreed
        hthread
  unique a b one two r ha hb hone htwo := by
    have hold : ∀ (x : ℕ) (seen : Stage), x ≠ call → w.calls[x]? = some seen → seen.own? = some r →
        after.own? ≠ some r := by
      intro x seen hne hx hseen hmine
      rcases (hown r hmine).1 with hbefore | hnew
      · exact hne (h.unique x call seen g r hx hcall hseen hbefore)
      · exact absurd (h.owns x seen r hx hseen).1 (Nat.not_lt.mpr hnew)
    rcases insert_cases ha with ⟨hcallOne, rfl⟩ | ⟨hneOne, hwasOne⟩
    · rcases insert_cases hb with ⟨hcallTwo, _⟩ | ⟨hneTwo, hwasTwo⟩
      · rw [← hcallOne, hcallTwo]
      · exact absurd hone (hold b two hneTwo.symm hwasTwo htwo)
    · rcases insert_cases hb with ⟨_, rfl⟩ | ⟨_, hwasTwo⟩
      · exact absurd htwo (hold a one hneOne.symm hwasOne hone)
      · exact h.unique a b one two r hwasOne hwasTwo hone htwo
  named := hnamed
  threads r t hthread := by
    obtain ⟨hfresh, hreader, hseen⟩ := hthreads r t hthread
    exact ⟨hfresh, fun _ ↦ hreader, hseen⟩
  unused := hunused
  mode _ := hmode
  references := by
    have hn := total_insert_add (fun _ _ ↦ 1) w.calls after hcall
    simp only at hn ⊢
    omega
  pins := by
    have hmove := total_insert_add (fun _ g ↦ g.pending) w.calls after hcall
    simp only at hmove ⊢
    omega
  gone hgone := by simp [hlive] at hgone

omit hcall in
/-- The record the pipe names is still followed when a call moves on without leaving
             the stages that follow it. -/
theorem Sound.followed (after : Stage) (hcall : w.calls[call]? = some g)
    (hreader : w.shared.reader = some r)
    (hstill : g.own? = some r → g.pending = 1 → after.own? = some r ∧ after.pending = 1) :
    Followed w.shared (w.calls.insert call after) r := by
  obtain ⟨hfresh, hfreed, hthread | ⟨x, seen, hx, hown, hpending⟩⟩ := h.named r hreader
  · exact ⟨hfresh, hfreed, .inl hthread⟩
  · refine ⟨hfresh, hfreed, .inr ?_⟩
    by_cases hsame : x = call
    · subst hsame
      obtain rfl : g = seen := some.inj (hcall.symm.trans hx)
      exact ⟨x, after, ExtTreeMap.getElem?_insert_self, hstill hown hpending⟩
    · exact ⟨x, seen, by rwa [get_insert, if_neg (Ne.symm hsame)], hown, hpending⟩

/-- A step that changes nothing the threads share. -/
theorem Sound.stay (hnew : Backed w.shared after)
    (hown : after.own? = none ∨ after.own? = g.own?) (hpending : after.pending = g.pending)
    (hstill : g.pending = 1 → after.own? = g.own?) :
    Sound extra ⟨w.shared, w.calls.insert call after⟩ := by
  have hlive := h.live hcall
  refine h.move hcall hnew (fun j seen _ hj ↦ h.backed j seen hj) (fun r hrecord ↦ ?_)
    (fun _ _ hfresh hfreed hthread ↦ ⟨hfresh, hfreed, hthread⟩) (fun r hreader ↦ ?_) (fun r t hthread ↦ ?_)
    h.unused (h.mode hlive) h.references ?_ hlive
  · rcases hown with hnone | hsame
    · simp [hnone] at hrecord
    · rw [hsame] at hrecord
      exact ⟨.inl hrecord, h.owns call g r hcall hrecord⟩
  · exact h.followed after hcall hreader fun hmine hone ↦ ⟨(hstill hone).trans hmine, hpending.trans hone⟩
  · obtain ⟨hfresh, hreader, hseen⟩ := h.threads r t hthread
    exact ⟨hfresh, hreader hlive, hseen⟩
  · have hpins := h.pins
    omega

/-- A step that changes nothing the threads share, to a stage without a record. -/
theorem Sound.pass (hnew : Backed w.shared after)
    (hown : after.own? = none) (hpending : g.pending = 0) :
    Sound extra ⟨w.shared, w.calls.insert call after⟩ := by
  refine h.stay hcall hnew (.inl hown) ?_ fun hone ↦ by simp [hpending] at hone
  rw [hpending]
  cases after <;> first | rfl | cases hown

omit hcall

omit h in
/-- What a call relies on, where the record stays and no thread goes. -/
theorem Backed.mono {seen : Stage} (h : Backed shared seen) (hreader : w'.reader = shared.reader)
    (hthreads : ∀ r, r ∈ shared.threads → r ∈ w'.threads) : Backed w' seen := by
  have hstarted : ∀ r, Started shared r → Started w' r := fun r ⟨hnamed, hmem⟩ ↦
    ⟨hreader.trans hnamed, hthreads r hmem⟩
  cases seen with
  | returned use answer | releasing use r answer =>
    cases answer with
    | true => exact h.imp hstarted
    | false => trivial
  | resuming => exact h.imp hstarted
  | serving r => exact hstarted r h
  | published use r | failing use r => exact hreader.trans h
  | lost => exact h
  | loading | firstMode | secondMode | entering | making | made | direct | leaving => trivial

/-- The threads there are, while a call runs. -/
theorem Sound.thread (hcall : w.calls[call]? = some g) {t : ReaderThread}
    (hthread : w.shared.threads[r]? = some t) :
    r < w.shared.fresh ∧ w.shared.reader = some r ∧ ∀ seen, t = .running seen → seen = some r := by
  obtain ⟨hfresh, hreader, hseen⟩ := h.threads r t hthread
  exact ⟨hfresh, hreader (h.live hcall), hseen⟩

theorem Sound.make (hcall : w.calls[call]? = some (.making use)) :
    Sound extra
      ⟨{ w.shared with fresh := w.shared.fresh + 1 }, w.calls.insert call (.made use w.shared.fresh)⟩ := by
  have hlive := h.live hcall
  have hnew : w.shared.fresh ∉ w.shared.threads := fun hmem ↦ by
    obtain ⟨t, hthread⟩ := isSome_iff_exists.mp (ExtTreeMap.mem_iff_isSome_getElem?.mp hmem)
    exact (h.threads _ t hthread).1.ne rfl
  have hlt : ∀ r, r < w.shared.fresh → r < w.shared.fresh + 1 := fun _ hlt ↦ Nat.lt_succ_of_lt hlt
  refine h.move hcall trivial (fun j seen _ hj ↦ (h.backed j seen hj).mono rfl fun _ hmem ↦ hmem)
    (fun r hrecord ↦ ?_) (fun r _ hfresh hfreed hthread ↦ ⟨hlt r hfresh, hfreed, hthread⟩)
    (fun r hreader ↦ ?_) (fun r t hthread ↦ ?_)
    (fun r hrecord ↦ h.unused r (Nat.le_of_succ_le hrecord)) (h.mode hlive) h.references h.pins hlive
  · obtain rfl : w.shared.fresh = r := some.inj hrecord
    exact ⟨.inr le_rfl, Nat.lt_succ_self _, h.unused _ le_rfl, hnew⟩
  · obtain ⟨hfresh, hrest⟩ := h.followed (.made use w.shared.fresh) hcall hreader fun hmine ↦ by
      simp [Stage.own?] at hmine
    exact ⟨hlt r hfresh, hrest⟩
  · obtain ⟨hfresh, hrest⟩ := h.thread hcall hthread
    exact ⟨hlt r hfresh, hrest⟩

omit h in
/-- A call that relies on no thread and has no record out relies on nothing. -/
theorem Backed.of_not_started {seen : Stage} (h : Backed shared seen)
    (hnone : ∀ x, ¬ Started shared x) (hpending : seen.pending = 0) : Backed w' seen := by
  cases seen with
  | returned use answer | releasing use r answer =>
    cases answer with
    | true => exact absurd h.choose_spec (hnone _)
    | false => trivial
  | resuming => exact absurd h.choose_spec (hnone _)
  | serving r => exact absurd h (hnone r)
  | published | failing => simp [Stage.pending] at hpending
  | lost => exact h
  | loading | firstMode | secondMode | entering | making | made | direct | leaving => trivial

omit h in
/-- A call with a record out has the one the pipe names. -/
theorem own?_of_pending {seen : Stage} (h : Backed shared seen) (hpending : seen.pending ≠ 0) :
    seen.own? = shared.reader := by
  cases seen with
  | published use r | failing use r => exact h.symm
  | _ => exact absurd rfl hpending

theorem Sound.publish (hcall : w.calls[call]? = some (.made use r)) (hnone : w.shared.reader = none) :
    Sound extra ⟨{ w.shared with
      reader := some r, references := w.shared.references + 1, pins := w.shared.pins + 1 },
      w.calls.insert call (.published use r)⟩ := by
  have hlive := h.live hcall
  obtain ⟨hfresh, hfreed, hthread⟩ := h.owns call _ r hcall rfl
  -- The pipe named no record, so there is no thread and no call that relies on one.
  have hempty : ∀ x, x ∉ w.shared.threads := fun x hmem ↦ by
    simpa [hnone] using h.reader_of_mem hlive hmem
  have hunstarted : ∀ x, ¬ Started w.shared x := fun x hstarted ↦ hempty x hstarted.2
  refine h.move hcall rfl (fun j seen _ hj ↦ ?_) (fun x hx ↦ ?_)
    (fun _ _ hfresh hfreed hthread ↦ ⟨hfresh, hfreed, hthread⟩) (fun x hx ↦ ?_) (fun x t hthread ↦ ?_)
    h.unused (fun hmode ↦ ?_) ?_ ?_ hlive
  · have hbacked := h.backed j seen hj
    refine hbacked.of_not_started hunstarted ?_
    by_contra hpending
    have hown := own?_of_pending hbacked hpending
    cases seen <;> simp [Stage.pending, Stage.own?, hnone] at hpending hown
  · exact ⟨.inl hx, h.owns call _ x hcall hx⟩
  · obtain rfl : r = x := some.inj hx
    exact ⟨hfresh, hfreed, .inr ⟨call, _, ExtTreeMap.getElem?_insert_self, rfl, rfl⟩⟩
  · exact absurd (ExtTreeMap.mem_iff_isSome_getElem?.mpr (by simp [hthread])) (hempty x)
  · exact absurd (h.mode hlive hmode).choose_spec (hunstarted _)
  · have hreferences := h.references
    simp only
    omega
  · have hpins := h.pins
    simp only [Stage.pending_made, Stage.pending_published]
    omega

/-- The thread is made. -/
theorem Sound.create (hcall : w.calls[call]? = some (.published use r)) :
    Sound extra ⟨{ w.shared with threads := w.shared.threads.insert r .created },
      w.calls.insert call (.returned use true)⟩ := by
  have hlive := h.live hcall
  have hreader : w.shared.reader = some r := h.backed call _ hcall
  obtain ⟨hfresh, hfreed, hthread⟩ := h.owns call _ r hcall rfl
  have hgrows : ∀ x, x ∈ w.shared.threads → x ∈ w.shared.threads.insert r .created :=
    fun x hmem ↦ ExtTreeMap.mem_insert.mpr (.inr hmem)
  have hstarted : Started { w.shared with threads := w.shared.threads.insert r .created } r :=
    ⟨hreader, ExtTreeMap.mem_insert_self⟩
  refine h.move hcall ⟨r, hstarted⟩ (fun j seen _ hj ↦ (h.backed j seen hj).mono rfl hgrows)
    (fun x hx ↦ by simp [Stage.own?] at hx) (fun x hne hfresh hfreed hthread ↦ ⟨hfresh, hfreed, ?_⟩)
    (fun x hx ↦ ?_) (fun x t hthread ↦ ?_) h.unused (fun _ ↦ ⟨r, hstarted⟩) h.references ?_ hlive
  · rw [ExtTreeMap.mem_insert]
    rintro (hsame | hmem)
    · exact hne (congrArg some (LawfulEqCmp.eq_of_compare hsame))
    · exact hthread hmem
  · obtain rfl : r = x := some.inj (hreader.symm.trans hx)
    exact ⟨hfresh, hfreed, .inl ExtTreeMap.mem_insert_self⟩
  · rcases insert_cases hthread with ⟨rfl, rfl⟩ | ⟨_, hthread⟩
    · exact ⟨hfresh, hreader, fun seen heq ↦ by simp at heq⟩
    · exact h.thread hcall hthread
  · have hpins := h.pins
    have hnone : w.shared.threads[r]? = none := by
      rwa [ExtTreeMap.mem_iff_isSome_getElem?, not_isSome_iff_eq_none] at hthread
    have hmade := total_insert_new (fun _ t ↦ t.active) w.shared.threads ReaderThread.created hnone
    change w.shared.pins + 1 = _ + _ + 0
    rw [hmade]
    change w.shared.pins + 1 = _ + 1 + _ + 0
    omega

/-- The thread could not be made, and the record is withdrawn. -/
theorem Sound.withdraw (hcall : w.calls[call]? = some (.failing use r)) : Sound extra ⟨{ w.shared with
      reader := none, references := w.shared.references - 1, pins := w.shared.pins - 1 },
      w.calls.insert call (.releasing use r false)⟩ := by
  have hlive := h.live hcall
  have hreader : w.shared.reader = some r := h.backed call _ hcall
  have hunstarted := h.not_started hcall rfl hreader
  have hempty : ∀ x, x ∉ w.shared.threads := fun x hmem ↦
    hunstarted x ⟨h.reader_of_mem hlive hmem, hmem⟩
  have hpending : 1 ≤ _ := weight_le_total (fun _ g ↦ g.pending) w.calls hcall
  have hpins := h.pins
  refine h.move hcall trivial (fun j seen hne hj ↦ ?_) (fun x hx ↦ ?_)
    (fun _ _ hfresh hfreed hthread ↦ ⟨hfresh, hfreed, hthread⟩) (fun x hx ↦ by simp at hx)
    (fun x t hthread ↦ ?_) h.unused (fun hmode ↦ ?_) ?_ ?_ hlive
  · have hbacked := h.backed j seen hj
    refine hbacked.of_not_started hunstarted ?_
    by_contra hout
    exact hne (h.unique j call seen _ r hj hcall ((own?_of_pending hbacked hout).trans hreader) rfl)
  · exact ⟨.inl hx, h.owns call _ x hcall hx⟩
  · exact absurd (ExtTreeMap.mem_iff_isSome_getElem?.mpr (by simp [hthread])) (hempty x)
  · exact absurd (h.mode hlive hmode).choose_spec (hunstarted _)
  · have hreferences := h.references
    simp only
    omega
  · simp only [Stage.pending_failing, Stage.pending_releasing]
    omega

/-- A record that no other thread has seen is freed. -/
theorem Sound.release {answer : Bool} (hcall : w.calls[call]? = some (.releasing use r answer)) :
    Sound extra ⟨{ w.shared with freed := update w.shared.freed r true },
      w.calls.insert call (.returned use answer)⟩ := by
  have hlive := h.live hcall
  obtain ⟨hfresh, _, hthread⟩ := h.owns call _ r hcall rfl
  have hbacked := h.backed call _ hcall
  have hnamed : w.shared.reader ≠ some r := by
    intro hreader
    obtain ⟨_, _, hmem | ⟨x, seen, hx, hown, hpending⟩⟩ := h.named r hreader
    · exact hthread hmem
    · obtain rfl := h.unique x call seen _ r hx hcall hown rfl
      obtain rfl : Stage.releasing use r answer = seen := some.inj (hcall.symm.trans hx)
      simp [Stage.pending] at hpending
  have hkept : ∀ x, x ≠ r → w.shared.freed x = false →
      update w.shared.freed r true x = false := fun x hne hfreed ↦ by
    rw [update_of_ne hne, hfreed]
  refine h.move hcall ?_ (fun j seen _ hj ↦ (h.backed j seen hj).mono rfl fun _ hmem ↦ hmem)
    (fun x hx ↦ by simp [Stage.own?] at hx) (fun x hne hfresh hfreed hthread ↦ ⟨hfresh, ?_, hthread⟩)
    (fun x hx ↦ ?_) (fun x t hthread ↦ h.thread hcall hthread) (fun x hx ↦ ?_) (h.mode hlive)
    h.references h.pins hlive
  · cases answer with
    | true => exact hbacked
    | false => trivial
  · exact hkept x (fun heq ↦ hne (congrArg some heq.symm)) hfreed
  · obtain ⟨hlt, hfreed, hrest⟩ := h.followed (.returned use answer) hcall hx fun _ hpending ↦ by
      simp [Stage.pending] at hpending
    exact ⟨hlt, hkept x (fun heq ↦ hnamed (heq ▸ hx)) hfreed, hrest⟩
  · have hne : x ≠ r := fun heq ↦ by
      simp only at hx
      omega
    exact hkept x hne (h.unused x hx)

theorem Sound.switch (hcall : w.calls[call]? = some (.returned .switch true)) :
    Sound extra ⟨{ w.shared with nonblocking := true }, w.calls.insert call .leaving⟩ := by
  have hbacked : ∃ r, Started w.shared r := h.backed call _ hcall
  refine h.move hcall trivial (fun j seen _ hj ↦ (h.backed j seen hj).mono rfl fun _ hmem ↦ hmem)
    (fun x hx ↦ by simp [Stage.own?] at hx) (fun _ _ hfresh hfreed hthread ↦ ⟨hfresh, hfreed, hthread⟩)
    (fun x hx ↦ h.followed .leaving hcall hx fun hmine ↦ by simp [Stage.own?] at hmine)
    (fun x t hthread ↦ h.thread hcall hthread) h.unused (fun _ ↦ hbacked) h.references h.pins (h.live hcall)

omit h

/-! ## Runs -/

/-- No record is out without a thread. -/
def Settled (w : PipeStart) : Prop :=
  ∀ (call : ℕ) (stage : Stage), w.calls[call]? = some stage → stage.pending = 0

/-- No call looks at the record between its publication and the making of its thread or
its withdrawal. -/
def Undisturbed : Action → PipeStart → Prop
  | .turn call _, w => ∀ stage : Stage, w.calls[call]? = some stage → stage.looks = true → w.Settled
  | _, _ => True

theorem Sound.started (h : Sound extra w) (hsettled : w.Settled) (hreader : w.shared.reader = some r) :
    Started w.shared r := by
  obtain ⟨_, _, hmem | ⟨call, g, hcall, _, hpending⟩⟩ := h.named r hreader
  · exact ⟨hreader, hmem⟩
  · exact absurd hpending (by simp [hsettled call g hcall])

theorem Sound.turn {ok : Bool} (h : Sound extra w) (hcall : w.calls[call]? = some g)
    (hallowed : g.looks = true → w.Settled) (hturn : turn ok w.shared g = some (after, w')) :
    Sound extra ⟨w', w.calls.insert call after⟩ := by
  have hlive := h.live hcall
  have hbacked := h.backed call g hcall
  have hstarted : g.looks = true → w.shared.reader.isSome = true → ∃ r, Started w.shared r := by
    intro hlooks hsome
    obtain ⟨r, hreader⟩ := isSome_iff_exists.mp hsome
    exact ⟨r, h.started (hallowed hlooks) hreader⟩
  cases g with
  | loading =>
    simp only [PipeStart.turn] at hturn
    split at hturn <;> cases hturn
    · exact h.pass hcall (h.started (hallowed rfl) ‹_›) rfl rfl
    · exact h.pass hcall trivial rfl rfl
  | firstMode =>
    cases hturn
    split <;> exact h.pass hcall trivial rfl rfl
  | secondMode =>
    cases hturn
    split
    · -- The mode is switched only once a record has its thread.
      exact h.pass hcall (h.mode hlive ‹_›) rfl rfl
    · exact h.pass hcall trivial rfl rfl
  | entering use =>
    cases hturn
    split
    · exact h.pass hcall (hstarted rfl ‹_›) rfl rfl
    · exact h.pass hcall trivial rfl rfl
  | making use =>
    cases ok <;> cases hturn
    · exact h.pass hcall trivial rfl rfl
    · exact h.make hcall
  | made use r =>
    simp only [PipeStart.turn] at hturn
    split at hturn <;> cases hturn
    · exact h.stay hcall (hstarted rfl ‹_›) (.inr rfl) rfl (fun _ ↦ rfl)
    · exact h.publish hcall (not_isSome_iff_eq_none.mp ‹_›)
  | published use r =>
    cases ok <;> cases hturn
    · exact h.stay hcall hbacked (.inr rfl) rfl (fun _ ↦ rfl)
    · exact h.create hcall
  | failing use r =>
    cases hturn
    exact h.withdraw hcall
  | releasing use r answer =>
    cases hturn
    exact h.release hcall
  | returned use answer =>
    cases answer with
    | true =>
      cases use with
      | read | observe =>
        cases hturn
        exact h.pass hcall trivial rfl rfl
      | switch =>
        cases hturn
        exact h.switch hcall
    | false => cases use <;> cases hturn <;> exact h.pass hcall trivial rfl rfl
  | resuming =>
    obtain ⟨r, hreader, hmem⟩ := hbacked
    simp only [PipeStart.turn, hreader] at hturn
    cases hturn
    exact h.pass hcall ⟨hreader, hmem⟩ rfl rfl
  | serving | lost | direct | leaving => cases hturn

/-- A call ends: one reference nobody accounts for is left to let go. -/
theorem Sound.erase (h : Sound 0 w) (hcall : w.calls[call]? = some g) (hends : g.ends = true) :
    Sound 1 ⟨w.shared, w.calls.erase call⟩ := by
  have hn : _ + 1 = _ := total_erase_add (fun _ _ ↦ 1) w.calls hcall
  have hout := total_erase_add (fun _ g ↦ g.pending) w.calls hcall
  have hpending : g.pending = 0 ∧ g.own? = none := by
    cases g <;> first | exact ⟨rfl, rfl⟩ | cases hends
  rw [hpending.1] at hout
  have hget : ∀ {found : ℕ} {seen : Stage}, (w.calls.erase call)[found]? = some seen →
    w.calls[found]? = some seen :=
    fun hfound ↦ (get_of_erase hfound).2
  refine ⟨fun _ _ hfound ↦ h.backed _ _ (hget hfound), fun _ _ _ hfound ↦ h.owns _ _ _ (hget hfound),
    fun _ _ _ _ _ hfirst hsecond ↦ h.unique _ _ _ _ _ (hget hfirst) (hget hsecond),
      fun r hreader ↦ ?_, h.threads,
    h.unused, h.mode, ?_, ?_, h.gone⟩
  · obtain ⟨hfresh, hfreed, hrest⟩ := h.named r hreader
    refine ⟨hfresh, hfreed, hrest.imp_right ?_⟩
    rintro ⟨found, seen, hfound, hown, hone⟩
    refine ⟨found, seen, ?_, hown, hone⟩
    rw [get_erase, if_neg ?_]
    · exact hfound
    · rintro rfl
      obtain rfl : g = seen := some.inj (hcall.symm.trans hfound)
      simp [hpending.1] at hone
  · have hreferences := h.references
    simp only at hreferences ⊢
    omega
  · have hpins := h.pins
    simp only at hpins ⊢
    omega

theorem Sound.start (h : Sound 0 w) (hnew : w.calls[call]? = none) (hopen : 0 < w.shared.descriptors) :
    Sound 0 ⟨{ w.shared with references := w.shared.references + 1 },
      w.calls.insert call (Stage.first use)⟩ := by
  have ha : (Stage.first use).own? = none ∧ (Stage.first use).pending = 0 ∧
    Backed w.shared (Stage.first use) := by
    cases use <;> exact ⟨rfl, rfl, trivial⟩
  obtain ⟨hown, hpending, hbacked⟩ := ha
  have hreferences := h.references
  refine ⟨fun x seen hx ↦ ?_, fun x seen r hx hrecord ↦ ?_,
    fun a b one two r ha hb hone htwo ↦ ?_, fun r hreader ↦ ?_, h.threads, h.unused, h.mode,
    ?_, ?_, fun hgone ↦ ?_⟩
  · rcases insert_cases hx with ⟨_, rfl⟩ | ⟨_, hold⟩
    · exact hbacked.mono rfl fun _ hmem ↦ hmem
    · exact (h.backed x seen hold).mono rfl fun _ hmem ↦ hmem
  · rcases insert_cases hx with ⟨_, rfl⟩ | ⟨_, hold⟩
    · simp [hown] at hrecord
    · exact h.owns x seen r hold hrecord
  · rcases insert_cases ha with ⟨_, rfl⟩ | ⟨_, holdOne⟩
    · simp [hown] at hone
    · rcases insert_cases hb with ⟨_, rfl⟩ | ⟨_, holdTwo⟩
      · simp [hown] at htwo
      · exact h.unique a b one two r holdOne holdTwo hone htwo
  · obtain ⟨hfresh, hfreed, hrest⟩ := h.named r hreader
    refine ⟨hfresh, hfreed, hrest.imp_right ?_⟩
    rintro ⟨x, seen, hx, hrest⟩
    refine ⟨x, seen, ?_, hrest⟩
    rw [get_insert, if_neg ?_]
    · exact hx
    · rintro rfl
      simp [hnew] at hx
  · have hn := total_insert_new (fun _ _ ↦ 1) w.calls (Stage.first use) hnew
    simp only at hn ⊢
    omega
  · have hpins := h.pins
    have hout := total_insert_new (fun _ g ↦ g.pending) w.calls (Stage.first use) hnew
    simp only at hout ⊢
    omega
  · have hzero := h.gone hgone
    omega

/-- A step that only changes references and descriptors, which stay in use. -/
theorem Sound.count (h : Sound 0 w) {references descriptors : ℕ} (hopen : 0 < w.shared.descriptors)
    (hreferences : references + w.shared.descriptors = w.shared.references + descriptors + extra) :
    Sound extra
      { w with shared := { w.shared with references := references, descriptors := descriptors } } := by
  have hold := h.references
  refine { h with
    backed := fun call g hcall ↦ (h.backed call g hcall).mono rfl fun _ hmem ↦ hmem
    references := by simp only; omega
    gone := fun hgone ↦ ?_ }
  have hzero := h.gone hgone
  omega

/-- A reader thread begins, or ends. -/
theorem Sound.thread_step {old : ReaderThread} {pins : ℕ} (h : Sound 0 w) (after : ReaderThread)
    (hthread : w.shared.threads[r]? = some old)
    (hseen : ∀ seen, after = .running seen → seen = some r)
    (hpins : pins + old.active = w.shared.pins + after.active) (hextra : pins + extra = w.shared.pins) :
    Sound extra { w with
      shared := { w.shared with threads := w.shared.threads.insert r after, pins := pins } } := by
  have hmem : ∀ x, x ∈ w.shared.threads.insert r after ↔ x ∈ w.shared.threads := by
    intro x
    rw [ExtTreeMap.mem_insert]
    refine ⟨?_, .inr⟩
    rintro (hsame | hmem)
    · rw [← LawfulEqCmp.eq_of_compare hsame, ExtTreeMap.mem_iff_isSome_getElem?, hthread]
      rfl
    · exact hmem
  refine ⟨fun call g hcall ↦ (h.backed call g hcall).mono rfl fun x ↦ (hmem x).mpr,
    fun call g x hcall hown ↦ ?_, h.unique, fun x hreader ↦ ?_, fun x t hx ↦ ?_, h.unused,
    fun hlive hmode ↦ ?_, ?_, ?_, h.gone⟩
  · obtain ⟨hfresh, hfreed, hnone⟩ := h.owns call g x hcall hown
    exact ⟨hfresh, hfreed, fun hin ↦ hnone ((hmem x).mp hin)⟩
  · obtain ⟨hfresh, hfreed, hrest⟩ := h.named x hreader
    exact ⟨hfresh, hfreed, hrest.imp_left (hmem x).mpr⟩
  · rcases insert_cases hx with ⟨rfl, rfl⟩ | ⟨_, hx⟩
    · obtain ⟨hfresh, hreader, _⟩ := h.threads r old hthread
      exact ⟨hfresh, hreader, hseen⟩
    · exact h.threads x t hx
  · obtain ⟨x, hreader, hin⟩ := h.mode hlive hmode
    exact ⟨x, hreader, (hmem x).mpr hin⟩
  · have hreferences := h.references
    simp only
    omega
  · have hold := h.pins
    have hmoved := total_insert_add (fun _ t ↦ t.active) w.shared.threads after hthread
    simp only at hmoved ⊢
    omega

/-- The pin of a reader thread keeps the pipe. -/
theorem Sound.active {t : ReaderThread} (h : Sound 0 w) (hthread : w.shared.threads[r]? = some t)
    (hactive : t.active = 1) : 0 < w.shared.pins ∧ w.shared.destroyed = false := by
  have hweight := weight_le_total (fun _ t ↦ t.active) w.shared.threads hthread
  have hpins := h.pins
  refine ⟨by omega, ?_⟩
  rw [← Bool.not_eq_true]
  intro hgone
  have hzero := h.gone hgone
  have hreferences := h.references
  omega

theorem Sound.unswitch (h : Sound 0 w) :
    Sound 0 { w with shared := { w.shared with nonblocking := false } } :=
  { h with
    backed := fun call g hcall ↦ (h.backed call g hcall).mono rfl fun _ hmem ↦ hmem
    mode := fun _ hmode ↦ by simp at hmode }

theorem Sound.next {action : Action} {w' : PipeStart} (h : Sound 0 w) (hallowed : Undisturbed action w)
    (hnext : next action w = some w') : Sound 0 w' := by
  cases action with
  | start call use =>
    obtain ⟨⟨hnew, hopen⟩, ⟨⟩⟩ := ite_none_right_eq_some.mp hnext
    exact h.start hnew hopen
  | turn call ok =>
    obtain ⟨g, hcall, hmoved⟩ := bind_eq_some_iff.mp hnext
    obtain ⟨⟨after, shared⟩, hturn, rfl⟩ := map_eq_some_iff.mp hmoved
    exact h.turn hcall (hallowed g hcall) hturn
  | leave call =>
    obtain ⟨g, hcall, hleave⟩ := bind_eq_some_iff.mp hnext
    obtain ⟨hends, ⟨⟩⟩ := ite_none_right_eq_some.mp hleave
    exact (h.erase hcall hends).letGo
  | run r =>
    obtain ⟨hcreated, ⟨⟩⟩ := ite_none_right_eq_some.mp hnext
    refine h.thread_step _ hcreated (fun seen heq ↦ ?_) rfl rfl
    rw [← ReaderThread.running.inj heq]
    exact (h.threads r _ hcreated).2.1 (h.active hcreated rfl).2
  | stop r =>
    simp only [PipeStart.next] at hnext
    split at hnext
    · rename_i seen hrunning
      cases hnext
      have hpins := (h.active hrunning rfl).1
      exact (h.thread_step .finished hrunning (fun _ heq ↦ by simp at heq) (Nat.sub_add_cancel hpins)
        (Nat.sub_add_cancel hpins)).letGo
    · cases hnext
  | dup =>
    obtain ⟨hopen, ⟨⟩⟩ := ite_none_right_eq_some.mp hnext
    exact h.count hopen (by omega)
  | close =>
    obtain ⟨hopen, ⟨⟩⟩ := ite_none_right_eq_some.mp hnext
    exact (h.count hopen (by omega)).letGo
  | unswitch =>
    obtain ⟨_, ⟨⟩⟩ := ite_none_right_eq_some.mp hnext
    exact h.unswitch

/-- In every run in which no call looks at the record between its publication and the making of its
thread or its withdrawal: where `sn_pipe_watch` answered yes the pipe names a record whose thread
was made; every Read that goes on has that record and none goes on without; no record that a thread
uses or the pipe names was freed; there is at most one reader thread; and once no start is under way
the pins taken for readers are the threads made and not finished. -/
theorem startup_of_undisturbed (hreach : (machine.system Undisturbed).Reachable w) :
    (∀ (call : ℕ) (use : Use), w.calls[call]? = some (.returned use true) → ∃ r, Started w.shared r) ∧
    (∀ (call r : ℕ), w.calls[call]? = some (.serving r) →
      Started w.shared r ∧ w.shared.freed r = false) ∧
    (∀ (r : ℕ) (seen : Option ℕ), w.shared.threads[r]? = some (.running seen) →
      seen = some r ∧ w.shared.freed r = false) ∧
    (∀ call : ℕ, w.calls[call]? ≠ some .lost) ∧
    (∀ r, w.shared.reader = some r → w.shared.freed r = false) ∧
    (∀ (first second : ℕ) (one two : ReaderThread), w.shared.threads[first]? = some one →
      w.shared.threads[second]? = some two → one.active = 1 → two.active = 1 → first = second) ∧
    (w.Settled → w.shared.pins = total (fun _ t ↦ t.active) w.shared.threads) := by
  have h : Sound 0 w :=
    Machine.invariant sound_initial (fun _ _ _ hallowed hsound hnext ↦ hsound.next hallowed hnext) hreach
  refine ⟨fun call use hcall ↦ h.backed call _ hcall, fun call r hcall ↦ ?_, fun r seen hthread ↦ ?_,
    fun call hcall ↦ h.backed call _ hcall, fun r hreader ↦ (h.named r hreader).2.1,
    fun first second one two hone htwo honeActive htwoActive ↦ ?_, fun hsettled ↦ ?_⟩
  · have hstarted : Started w.shared r := h.backed call _ hcall
    exact ⟨hstarted, (h.named r hstarted.1).2.1⟩
  · obtain ⟨_, hreader, hseen⟩ := h.threads r _ hthread
    exact ⟨hseen seen rfl, (h.named r (hreader (h.active hthread rfl).2)).2.1⟩
  · have hfirst := (h.threads first one hone).2.1 (h.active hone honeActive).2
    have hsecond := (h.threads second two htwo).2.1 (h.active htwo htwoActive).2
    exact some.inj (hfirst.symm.trans hsecond)
  · have hnone := (total_eq_zero_iff (fun _ g ↦ Stage.pending g) w.calls).mpr hsettled
    rw [h.pins, hnone, Nat.add_zero]

theorem Settled.insert (h : w.Settled) (hnew : after.pending = 0) :
    Settled ⟨shared, w.calls.insert call after⟩ := by
  intro x seen hx
  rcases insert_cases hx with ⟨_, rfl⟩ | ⟨_, hold⟩
  · exact hnew
  · exact h x seen hold

theorem undisturbed_of_not_looks {ok : Bool} (hcall : w.calls[call]? = some g) (hblind : g.looks = false) :
    Undisturbed (.turn call ok) w := by
  intro seen hseen hlooks
  obtain rfl : g = seen := some.inj (hcall.symm.trans hseen)
  simp [hblind] at hlooks

/-- A call that makes the record and the thread undisturbed. -/
theorem startup_of_undisturbed_alone :
    ∃ w, (machine.system Undisturbed).Reachable w ∧ w.calls[0]? = some (.returned .observe true) ∧
      ∃ r, Started w.shared r := by
  have hstart : (machine.system Undisturbed).Reachable machine.start := .of_start rfl
  have hnone : machine.start.Settled := fun call g hcall ↦ by simp [machine, initial] at hcall
  have hentering := hstart.of_step ⟨.start 0 .observe, trivial, rfl⟩
  have hmaking := hentering.of_step ⟨.turn 0 true, fun _ _ _ ↦ hnone.insert rfl, rfl⟩
  have hmade := hmaking.of_step ⟨.turn 0 true, fun _ _ _ ↦ (hnone.insert rfl).insert rfl, rfl⟩
  have hpublished :=
    hmade.of_step ⟨.turn 0 true, fun _ _ _ ↦ ((hnone.insert rfl).insert rfl).insert rfl, rfl⟩
  have hreturned := hpublished.of_step ⟨.turn 0 true, undisturbed_of_not_looks rfl rfl, rfl⟩
  exact ⟨_, hreturned, rfl, (startup_of_undisturbed hreturned).1 0 .observe rfl⟩

/-- Three calls use a new pipe. The first publishes its record, a Read takes it up, the third is
told that it is there, and the thread cannot be made. -/
def failedThread : List Action :=
  [.start 0 .switch, .turn 0 true, .turn 0 true, .turn 0 true, .start 1 .read, .turn 1 true,
    .start 2 .observe, .turn 2 true, .turn 0 false, .turn 0 true, .turn 0 true]

/-- The Read goes on with a freed record, and `sn_pipe_watch` answered yes though there never
was a thread. -/
theorem startup_failedThread : ∃ w, machine.run failedThread machine.start = some w ∧
    w.calls[1]? = some (.serving 0) ∧ w.shared.freed 0 = true ∧
    w.calls[2]? = some (.returned .observe true) ∧ w.shared.reader = none ∧ w.shared.threads = ∅ :=
  ⟨_, rfl, rfl, rfl, rfl, rfl, rfl⟩

end PipeStart

end DotnetPal.Native
