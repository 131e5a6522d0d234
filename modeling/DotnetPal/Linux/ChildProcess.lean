import DotnetPal.Foundations.Machines
import DotnetPal.Foundations.OrderedMap
import DotnetPal.Port

/-!
# A child process of the Linux provider

Waits and terminations of one child, by any threads. The verdict is read without the mutex; looking,
which is the only waitpid, and signalling happen under it. A wait that learned nothing goes on
without the mutex until it gives up or looks again. The one release comes when no other call runs. A
step is what a thread does between two points where another may come in; the two stores of a verdict
are two steps, since the fast path reads between them.
-/

open Std List Option

namespace DotnetPal.Linux

open Programs

/-- The status of a child that has ended. -/
inductive Status
  | exited (code : ℕ)
  | signaled (signal : ℕ)
  deriving DecidableEq

def Status.code : Status → ℤ
  | .exited code => code
  | .signaled signal => 128 + signal

/-- What the kernel has of the child: ended and not waited for, waited for here, or by
somebody else. -/
inductive Kernel
  | running
  | zombie (status : Status)
  | reaped
  | stolen
  deriving DecidableEq

/-- The field `state`: RUNNING, ENDED or LOST. -/
inductive Verdict
  | running
  | ended
  | lost
  deriving DecidableEq

/-- What the reaping waitpid brought. -/
inductive Outcome
  | code (code : ℤ)
  | lost
  deriving DecidableEq

def Outcome.verdict : Outcome → Verdict
  | .code _ => .ended
  | .lost => .lost

/-- What a wait answers. -/
def Outcome.answer : Outcome → Except Error ℤ
  | .code value => .ok value
  | .lost => .error .os

variable {o : Outcome}

theorem Outcome.answer_eq_ok {v : ℤ} (h : o.answer = .ok v) : o = .code v := by
  cases o with
  | code x => simpa [Outcome.answer] using h
  | lost => simp [Outcome.answer] at h

inductive Kind
  | wait
  | terminate
  | release
  deriving DecidableEq

/-- Where a call is. -/
inductive Stage
  /-- Before the state is read without the mutex, and before the code is. -/
  | first
  | decided
  /-- Before the mutex. -/
  | locking
  /-- In `look`: before the verdict, before waitpid, and with what it brought before the stores. -/
  | looking
  | asking
  | storing (code : ℤ)
  | publishing (code : ℤ)
  | losing
  /-- `look` returned, with the mutex still held. -/
  | found (outcome : Outcome)
  | unresolved
  /-- The signal was sent. -/
  | signalled (answer : Except Error Unit)
  /-- A wait between two looks. -/
  | pausing

namespace Stage

/-- The stages with the mutex. -/
def critical : Stage → Bool
  | .first | .decided | .locking | .pausing => false
  | _ => true

/-- The outcome is known to this call only. -/
def stores : Stage → Bool
  | .storing _ | .publishing _ | .losing => true
  | _ => false

/-- How many steps a call that starts with the outcome known is away from its answer. -/
def rank : Stage → ℕ
  | .first => 4
  | .locking => 3
  | .looking => 2
  | .decided | .found _ => 1
  | _ => 0

end Stage

/-- A termination looks under the mutex at once. -/
def Kind.firstStage : Kind → Stage
  | .terminate => .locking
  | _ => .first

/-- A call, with what was known of the child when it started. -/
structure Call where
  kind : Kind
  known : Option Outcome
  stage : Stage

/-- What the calls share: the fields of the child, the kernel, and what has happened. -/
structure Shared where
  kernel : Kernel
  state : Verdict
  code : ℤ
  mutex : Option ℕ
  released : Bool
  outcome : Option Outcome
  /-- The waitpids that reaped the child. -/
  reaps : ℕ
  /-- What the waits and the terminations answered, with what was known when they started. -/
  waits : List (Option Outcome × Except Error ℤ)
  terminations : List (Option Outcome × Except Error Unit)
  /-- The signals sent: what the kernel had of the child, and what was known. -/
  signals : List (Kernel × Option Outcome)

/-- The kernel agrees with what waitpid brought. -/
def Outcome.Fits (kernel : Kernel) (reaps : ℕ) : Outcome → Prop
  | .code _ => kernel = .reaped ∧ reaps = 1
  | .lost => kernel = .stolen ∧ reaps = 0

/-- The fields tell the outcome. -/
def Outcome.Told (shared : Shared) : Outcome → Prop
  | .code value => shared.state = .ended ∧ shared.code = value
  | .lost => shared.state = .lost

structure ChildProcess where
  shared : Shared
  calls : ExtTreeMap ℕ Call

namespace ChildProcess

/-- A call goes on. -/
def goOn (id : ℕ) (call : Call) (stage : Stage) (shared : Shared) (w : ChildProcess) : ChildProcess :=
  ⟨shared, w.calls.insert id { call with stage := stage }⟩

/-- A call ends. -/
def finish (id : ℕ) (shared : Shared) (w : ChildProcess) : ChildProcess := ⟨shared, w.calls.erase id⟩

/-- A wait answers; the release looks and answers nothing of it. -/
def answered (call : Call) (answer : Except Error ℤ) (shared : Shared) : Shared :=
  match call.kind with
  | .wait => { shared with waits := shared.waits ++ [(call.known, answer)] }
  | .terminate => { shared with terminations := shared.terminations ++ [(call.known, .error .notFound)] }
  | .release => shared

@[simp]
theorem answered_mutex (call : Call) (answer : Except Error ℤ) (shared : Shared) :
    (answered call answer shared).mutex = shared.mutex := by
  unfold answered
  split <;> rfl

/-- What waitpid does where it is not interrupted. A status that is neither an exit nor a signal
leaves the child running. -/
def waitpid (shared : Shared) : Stage × Shared :=
  match shared.kernel with
  | .running => (.unresolved, shared)
  | .zombie status =>
    (.storing status.code,
      { shared with kernel := .reaped, reaps := shared.reaps + 1, outcome := some (.code status.code) })
  | .reaped | .stolen => (.losing, { shared with outcome := some .lost })

/-- The next step of a call. `interrupted` is whether a waitpid is. -/
def turn (id : ℕ) (interrupted : Bool) (call : Call) (w : ChildProcess) : Option ChildProcess :=
  let shared := w.shared
  match call.stage with
  | .first =>
    match shared.state with
    | .running => some (w.goOn id call .locking shared)
    | .ended => some (w.goOn id call .decided shared)
    | .lost => some (w.finish id (answered call (.error .os) shared))
  | .decided => some (w.finish id (answered call (.ok shared.code) shared))
  | .locking =>
    if shared.mutex = none then some (w.goOn id call .looking { shared with mutex := some id }) else none
  | .looking =>
    match shared.state with
    | .running => some (w.goOn id call .asking shared)
    | .ended => some (w.goOn id call (.found (.code shared.code)) shared)
    | .lost => some (w.goOn id call (.found .lost) shared)
  | .asking =>
    if interrupted then some (w.goOn id call .looking shared)
    else some (w.goOn id call (waitpid shared).1 (waitpid shared).2)
  | .storing code => some (w.goOn id call (.publishing code) { shared with code := code })
  | .publishing code => some (w.goOn id call (.found (.code code)) { shared with state := .ended })
  | .losing => some (w.goOn id call (.found .lost) { shared with state := .lost })
  | .found outcome => some (w.finish id (answered call outcome.answer { shared with mutex := none }))
  | .unresolved =>
    match call.kind with
    | .wait => some (w.goOn id call .pausing { shared with mutex := none })
    | .release => some (w.finish id { shared with mutex := none })
    | .terminate => none
  | .signalled answer =>
    some (w.finish id
      { shared with mutex := none, terminations := shared.terminations ++ [(call.known, answer)] })
  | .pausing => some (w.goOn id call .first shared)

inductive Action
  | start (id : ℕ) (kind : Kind)
  | turn (id : ℕ) (interrupted : Bool)
  /-- The signal of a termination, and what kill answers. -/
  | kill (id : ℕ) (answer : Except Error Unit)
  /-- A wait ends without a code: its time is up, or a system call failed. -/
  | giveUp (id : ℕ) (error : Error)
  /-- The child ends. -/
  | die (status : Status)
  /-- Somebody else reaps the child. -/
  | steal

def next : Action → ChildProcess → Option ChildProcess
  | .start id kind, w =>
    if w.shared.released = false ∧ w.calls[id]?.isNone ∧ (kind = .release → w.calls.isEmpty) then
      some ⟨{ w.shared with released := decide (kind = .release) },
        w.calls.insert id ⟨kind, w.shared.outcome, kind.firstStage⟩⟩
    else none
  | .turn id interrupted, w => w.calls[id]?.bind fun call ↦ turn id interrupted call w
  | .kill id answer, w =>
    w.calls[id]?.bind fun call ↦
      match call.stage, call.kind with
      | .unresolved, .terminate =>
        some (w.goOn id call (.signalled answer)
          { w.shared with signals := w.shared.signals ++ [(w.shared.kernel, w.shared.outcome)] })
      | _, _ => none
  | .giveUp id error, w =>
    w.calls[id]?.bind fun call ↦
      match call.stage with
      | .pausing => some (w.finish id (answered call (.error error) w.shared))
      | _ => none
  | .die status, w =>
    if w.shared.kernel = .running then some { w with shared := { w.shared with kernel := .zombie status } }
    else none
  | .steal, w =>
    if w.shared.kernel = .reaped then none
    else some { w with shared := { w.shared with kernel := .stolen } }

def initial : ChildProcess :=
  ⟨⟨.running, .running, 0, none, false, none, 0, [], [], []⟩, ∅⟩

def machine : Machine ChildProcess Action := ⟨initial, next⟩

/-! ## Invariants -/

/-- What a call relies on. -/
def Backed (shared : Shared) (call : Call) : Prop :=
  match call.stage with
  | .first | .locking | .looking => True
  | .decided => shared.state = .ended
  | .asking | .unresolved => shared.outcome = none
  | .storing code => call.known = none ∧ shared.outcome = some (.code code) ∧ shared.state = .running
  | .publishing code =>
    call.known = none ∧ shared.outcome = some (.code code) ∧ shared.state = .running ∧ shared.code = code
  | .losing => call.known = none ∧ shared.outcome = some .lost ∧ shared.state = .running
  | .found outcome => shared.outcome = some outcome ∧ shared.state = outcome.verdict
  | .signalled _ => call.known = none ∧ call.kind = .terminate
  | .pausing => call.known = none

/-- What was answered and sent. -/
structure History (shared : Shared) : Prop where
  same : ∀ entry ∈ shared.waits, ∀ value, entry.2 = .ok value → shared.outcome = some (.code value)
  later : ∀ entry ∈ shared.waits, ∀ outcome : Outcome, entry.1 = some outcome → entry.2 = outcome.answer
  gone : ∀ entry ∈ shared.terminations, entry.1 ≠ none → entry.2 = .error .notFound
  sent : ∀ entry ∈ shared.signals, entry.2 = none ∧ entry.1 ≠ .reaped ∧
    (entry.1 = .stolen → shared.kernel = .stolen)

structure Sound (w : ChildProcess) : Prop where
  mutex : ∀ (id : ℕ) (call : Call), w.calls[id]? = some call → call.stage.critical = true →
    w.shared.mutex = some id
  held : ∀ id : ℕ, w.shared.mutex = some id → ∃ call, w.calls[id]? = some call ∧ call.stage.critical = true
  backed : ∀ (id : ℕ) (call : Call), w.calls[id]? = some call → Backed w.shared call
  known : ∀ (id : ℕ) (call : Call), w.calls[id]? = some call → call.known ≠ none →
    w.shared.outcome = call.known
  undecided : w.shared.outcome = none →
    w.shared.state = .running ∧ w.shared.reaps = 0 ∧ w.shared.kernel ≠ .reaped
  fits : ∀ outcome, w.shared.outcome = some outcome → outcome.Fits w.shared.kernel w.shared.reaps
  told : ∀ outcome, w.shared.outcome = some outcome → outcome.Told w.shared ∨
    (w.shared.state = .running ∧ ∃ (id : ℕ) (call : Call), w.calls[id]? = some call ∧
      call.stage.stores = true)
  history : History w.shared

variable {w : ChildProcess} {shared w' : Shared} {id : ℕ} {call : Call} {stage : Stage}

theorem sound_initial : Sound initial where
  mutex _ _ h := by simp [initial] at h
  held _ h := by simp [initial] at h
  backed _ _ h := by simp [initial] at h
  known _ _ h := by simp [initial] at h
  undecided _ := ⟨rfl, rfl, by simp [initial]⟩
  fits _ h := by simp [initial] at h
  told _ h := by simp [initial] at h
  history := ⟨by simp [initial], by simp [initial], by simp [initial], by simp [initial]⟩

/-- Without a verdict in the fields and without a call about to store one, nothing is known. -/
theorem Sound.outcome_eq_none (h : Sound w) (hstate : w.shared.state = .running)
    (hnone : ∀ (id : ℕ) (call : Call), w.calls[id]? = some call → call.stage.stores = false) :
    w.shared.outcome = none := by
  cases houtcome : w.shared.outcome with
  | none => rfl
  | some o =>
    rcases h.told o houtcome with htold | ⟨_, id, call, hcall, hstores⟩
    · cases o <;> simp [Outcome.Told, hstate] at htold
    · simp [hnone id call hcall] at hstores

/-- A verdict in the fields is the outcome. -/
theorem Sound.outcome_of_state (h : Sound w) (hstate : w.shared.state ≠ .running) :
    ∃ o, w.shared.outcome = some o ∧ o.Told w.shared := by
  cases houtcome : w.shared.outcome with
  | none => exact absurd (h.undecided houtcome).1 hstate
  | some o => exact ⟨o, rfl, (h.told o houtcome).resolve_right fun hrunning ↦ hstate hrunning.1⟩

theorem critical_of_stores (h : stage.stores = true) : stage.critical = true := by
  cases stage <;> first | rfl | cases h

/-- Only the call with the mutex is about to store a verdict. -/
theorem Sound.stores_unique (h : Sound w) {j : ℕ} {seen : Call} (hcall : w.calls[id]? = some call)
    (hcritical : call.stage.critical = true) (hseen : w.calls[j]? = some seen)
    (hstores : seen.stage.stores = true) :
    j = id := by
  have hone := h.mutex id call hcall hcritical
  have htwo := h.mutex j seen hseen (critical_of_stores hstores)
  exact some.inj (htwo.symm.trans hone)

/-- Whoever stores a verdict has the mutex: a call that has it and stores none sees in the fields
what is known. -/
theorem Sound.unknown (h : Sound w) (hcall : w.calls[id]? = some call)
    (hcritical : call.stage.critical = true)
    (hunstored : call.stage.stores = false) (hstate : w.shared.state = .running) :
    w.shared.outcome = none := by
  refine h.outcome_eq_none hstate fun x seen hseen ↦ ?_
  rw [← Bool.not_eq_true]
  intro hstores
  obtain rfl := h.stores_unique hcall hcritical hseen hstores
  obtain rfl : call = seen := some.inj (hcall.symm.trans hseen)
  simp [hunstored] at hstores

/-- The fields of the child and the kernel are as they were. -/
structure SameChild (shared w' : Shared) : Prop where
  kernel : w'.kernel = shared.kernel
  state : w'.state = shared.state
  code : w'.code = shared.code
  outcome : w'.outcome = shared.outcome
  reaps : w'.reaps = shared.reaps

theorem Backed.congr (h : Backed shared call) (hsame : SameChild shared w') : Backed w' call := by
  unfold Backed at h ⊢
  rw [hsame.state, hsame.code, hsame.outcome]
  exact h

variable {calls : ExtTreeMap ℕ Call}

/-- A step of the call `id`: the others rely on what they relied on. -/
theorem Sound.step (h : Sound w) (hrest : ∀ x : ℕ, x ≠ id → calls[x]? = w.calls[x]?)
    (hself : ∀ seen : Call, calls[id]? = some seen → (seen.known ≠ none → w'.outcome = seen.known) ∧
      Backed w' seen ∧
      (seen.stage.critical = true → w'.mutex = some id))
    (hheld : w'.mutex = some id → ∃ seen : Call, calls[id]? = some seen ∧ seen.stage.critical = true)
    (hmutex : ∀ j, j ≠ id → (w'.mutex = some j ↔ w.shared.mutex = some j))
    (hkept : ∀ o, w.shared.outcome = some o → w'.outcome = some o)
    (hothers : ∀ (x : ℕ) (seen : Call), x ≠ id → w.calls[x]? = some seen → Backed w' seen)
    (hundecided : w'.outcome = none → w'.state = .running ∧ w'.reaps = 0 ∧ w'.kernel ≠ .reaped)
    (hfits : ∀ o, w'.outcome = some o → o.Fits w'.kernel w'.reaps)
    (htold : ∀ o, w'.outcome = some o → o.Told w' ∨
      (w'.state = .running ∧ ∃ (id : ℕ) (call : Call), calls[id]? = some call ∧ call.stage.stores = true))
    (hhistory : History w') : Sound ⟨w', calls⟩ := by
  have hcases : ∀ (x : ℕ) (seen : Call), calls[x]? = some seen →
      (x = id ∧ calls[id]? = some seen) ∨ (x ≠ id ∧ w.calls[x]? = some seen) := by
    intro x seen hx
    by_cases heq : x = id
    · exact .inl ⟨heq, heq ▸ hx⟩
    · exact .inr ⟨heq, (hrest x heq).symm.trans hx⟩
  refine ⟨fun x seen hx hcritical ↦ ?_, fun x hx ↦ ?_, fun x seen hx ↦ ?_,
    fun x seen hx hknown ↦ ?_, hundecided, hfits, htold, hhistory⟩
  · rcases hcases x seen hx with ⟨rfl, hmine⟩ | ⟨hne, hold⟩
    · exact (hself seen hmine).2.2 hcritical
    · exact (hmutex x hne).mpr (h.mutex x seen hold hcritical)
  · by_cases heq : x = id
    · subst heq
      exact hheld hx
    · obtain ⟨seen, hseen, hcritical⟩ := h.held x ((hmutex x heq).mp hx)
      exact ⟨seen, (hrest x heq).trans hseen, hcritical⟩
  · rcases hcases x seen hx with ⟨_, hmine⟩ | ⟨hne, hold⟩
    · exact (hself seen hmine).2.1
    · exact hothers x seen hne hold
  · rcases hcases x seen hx with ⟨_, hmine⟩ | ⟨_, hold⟩
    · exact (hself seen hmine).1 hknown
    · obtain ⟨o, houtcome⟩ := ne_none_iff_exists'.mp hknown
      exact (hkept o ((h.known x seen hold hknown).trans houtcome)).trans houtcome.symm

/-- A step of a call that leaves the fields and the kernel alone; it may take or leave the
mutex, and answer. -/
structure Aside (w : ChildProcess) (id : ℕ) (w' : Shared) : Prop where
  same : SameChild w.shared w'
  mutex : ∀ other, other ≠ id → (w'.mutex = some other ↔ w.shared.mutex = some other)
  unstored : ∀ call : Call, w.calls[id]? = some call → call.stage.stores = false
  history : History w'

variable (h : Sound w)
include h

theorem Sound.aside (haside : Aside w id w') (hrest : ∀ x : ℕ, x ≠ id → calls[x]? = w.calls[x]?)
    (hself : ∀ seen : Call, calls[id]? = some seen → (seen.known ≠ none → w.shared.outcome = seen.known) ∧
      Backed w' seen ∧ (seen.stage.critical = true → w'.mutex = some id))
    (hheld : w'.mutex = some id → ∃ seen : Call, calls[id]? = some seen ∧ seen.stage.critical = true) :
    Sound ⟨w', calls⟩ := by
  obtain ⟨hsame, hmutex, hunstored, hhistory⟩ := haside
  refine h.step hrest (hsame.outcome ▸ hself) hheld hmutex (fun _ ↦ hsame.outcome.trans)
    (fun x seen _ hseen ↦ (h.backed x seen hseen).congr hsame) ?_ ?_ (fun o houtcome ↦ ?_) hhistory
  · rw [hsame.outcome, hsame.state, hsame.reaps, hsame.kernel]
    exact h.undecided
  · rw [hsame.outcome, hsame.reaps, hsame.kernel]
    exact h.fits
  · rcases h.told o (hsame.outcome.symm.trans houtcome) with htold | ⟨hrunning, x, seen, hx, hstores⟩
    · refine .inl ?_
      cases o with
      | code v => exact ⟨hsame.state.trans htold.1, hsame.code.trans htold.2⟩
      | lost => exact hsame.state.trans htold
    · have hne : x ≠ id := by
        rintro rfl
        simp [hunstored seen hx] at hstores
      exact .inr ⟨hsame.state.trans hrunning, x, seen, (hrest x hne).trans hx, hstores⟩

theorem Sound.goOn (hcall : w.calls[id]? = some call) (haside : Aside w id w')
    (hmutex : stage.critical = true ↔ w'.mutex = some id) (hbacked : Backed w' { call with stage := stage }) :
    Sound (w.goOn id call stage w') := by
  refine h.aside haside (fun x hne ↦ OrderedMap.getElem?_insert_of_ne _ _ (Ne.symm hne))
    (fun seen hseen ↦ ?_)
    fun hheld ↦ ⟨_, ExtTreeMap.getElem?_insert_self, hmutex.mpr hheld⟩
  obtain rfl := some.inj (ExtTreeMap.getElem?_insert_self.symm.trans hseen)
  exact ⟨h.known id call hcall, hbacked, hmutex.mp⟩

theorem Sound.finish (haside : Aside w id w') (hmutex : w'.mutex ≠ some id) : Sound (w.finish id w') :=
  h.aside haside (fun _ hne ↦ OrderedMap.getElem?_erase_of_ne _ (Ne.symm hne))
    (fun seen hseen ↦ by simp at hseen)
    fun hheld ↦ absurd hheld hmutex

omit h in
/-- Nothing was answered or sent that a first outcome could contradict. -/
theorem History.decide {kernel : Kernel} {reaps : ℕ} {o : Option Outcome} (h : History shared)
    (hnone : shared.outcome = none) (hkernel : kernel = .stolen ∨ shared.kernel ≠ .stolen) :
    History { shared with kernel, reaps, outcome := o } :=
  { h with
    same e he v hv := by simpa [hnone] using h.same e he v hv
    sent e he := by
      obtain ⟨hunknown, hreaped, hstolen⟩ := h.sent e he
      exact ⟨hunknown, hreaped, fun heq ↦ hkernel.resolve_right fun hne ↦ hne (hstolen heq)⟩ }

/-- A step that changes nothing the calls share. -/
theorem Sound.quiet (hcall : w.calls[id]? = some call) (hunstored : call.stage.stores = false) :
    Aside w id w.shared :=
  ⟨⟨rfl, rfl, rfl, rfl, rfl⟩, fun _ _ ↦ Iff.rfl, fun _ hseen ↦ mem_unique hcall hseen ▸ hunstored,
    h.history⟩

/-- A call that has the mutex lets it go. -/
theorem Sound.unlocks (hcall : w.calls[id]? = some call) (hcritical : call.stage.critical = true)
    (hunstored : call.stage.stores = false) : Aside w id { w.shared with mutex := none } :=
  ⟨⟨rfl, rfl, rfl, rfl, rfl⟩, fun j hne ↦ by
    rw [h.mutex id call hcall hcritical]
    simp [Ne.symm hne], (h.quiet hcall hunstored).unstored, { h.history with }⟩

omit h in
/-- What a call answers fits what is known, and what was known when it started. -/
theorem Aside.answered {answer : Except Error ℤ} (h : Aside w id w')
    (hsame : ∀ v, answer = .ok v → w'.outcome = some (.code v))
    (hlater : call.kind = .wait → ∀ o, call.known = some o → answer = o.answer) :
    Aside w id (answered call answer w') := by
  unfold ChildProcess.answered
  cases hkind : call.kind with
  | wait =>
    exact { h with
      same := { h.same with }
      history := { h.history with
        same := forall_mem_append.mpr ⟨h.history.same, forall_mem_singleton.mpr hsame⟩
        later := forall_mem_append.mpr ⟨h.history.later, forall_mem_singleton.mpr (hlater hkind)⟩ } }
  | terminate =>
    exact { h with
      same := { h.same with }
      history := { h.history with
        gone := forall_mem_append.mpr ⟨h.history.gone, forall_mem_singleton.mpr fun _ ↦ rfl⟩ } }
  | release => exact h

/-- A step of the call with the mutex that brings or tells the outcome. -/
theorem Sound.settle (hcall : w.calls[id]? = some call) (hcritical : call.stage.critical = true)
    (hstage : stage.critical = true) (hmutex : w'.mutex = w.shared.mutex)
    (hended : w.shared.state = .ended → w'.state = .ended)
    (hkept : ∀ o, w.shared.outcome = some o → w'.outcome = some o)
    (hbacked : Backed w' { call with stage := stage }) (hdecided : w'.outcome ≠ none)
    (hfits : ∀ o, w'.outcome = some o → o.Fits w'.kernel w'.reaps)
    (htold : ∀ o, w'.outcome = some o → o.Told w' ∨ (w'.state = .running ∧ stage.stores = true))
    (hhistory : History w') : Sound (w.goOn id call stage w') := by
  have hheld := h.mutex id call hcall hcritical
  have hself : (w.calls.insert id { call with stage := stage })[id]? = some { call with stage := stage } :=
    ExtTreeMap.getElem?_insert_self
  refine h.step (fun found hne ↦ OrderedMap.getElem?_insert_of_ne _ _ (Ne.symm hne)) (fun seen hseen ↦ ?_)
    (fun _ ↦ ⟨_, hself, hstage⟩) (fun _ _ ↦ by rw [hmutex]) hkept (fun found seen hne hseen ↦ ?_)
    (fun hnone ↦ absurd hnone hdecided) hfits
    (fun o houtcome ↦ (htold o houtcome).imp_right fun ⟨hrunning, hstores⟩ ↦
      ⟨hrunning, id, _, hself, hstores⟩) hhistory
  · obtain rfl := some.inj (hself.symm.trans hseen)
    refine ⟨fun hknown ↦ ?_, hbacked, fun _ ↦ hmutex.trans hheld⟩
    obtain ⟨o, houtcome⟩ := ne_none_iff_exists'.mp hknown
    exact (hkept o ((h.known id call hcall hknown).trans houtcome)).trans houtcome.symm
  · -- Everybody else is outside the mutex.
    have houtside : ¬ seen.stage.critical = true := fun hcrit ↦
      hne (some.inj ((h.mutex found seen hseen hcrit).symm.trans hheld))
    have hold := h.backed found seen hseen
    obtain ⟨kind, known, stage⟩ := seen
    cases stage with
    | first | locking => trivial
    | decided => exact hended hold
    | pausing => exact hold
    | _ => exact absurd rfl houtside

/-- What was known when a call started is still unknown if nothing is known now. -/
theorem Sound.known_eq_none (hcall : w.calls[id]? = some call) (hnone : w.shared.outcome = none) :
    call.known = none := by
  by_contra hknown
  exact hknown ((h.known id call hcall hknown).symm.trans hnone)

omit h

variable {kind : Kind} {known : Option Outcome}

variable (h : Sound w)
include h

theorem Sound.ask (hcall : w.calls[id]? = some ⟨kind, known, .asking⟩) :
    Sound (w.goOn id ⟨kind, known, .asking⟩ (waitpid w.shared).1 (waitpid w.shared).2) := by
  have hnone : w.shared.outcome = none := h.backed id _ hcall
  obtain ⟨hrunning, hreaps, hkernel⟩ := h.undecided hnone
  have hknown : known = none := h.known_eq_none hcall hnone
  cases hcase : w.shared.kernel with
  | running =>
    simp only [waitpid, hcase]
    exact h.goOn hcall (h.quiet hcall rfl) (iff_of_true rfl (h.mutex id _ hcall rfl)) hnone
  | zombie status =>
    simp only [waitpid, hcase]
    refine h.settle hcall rfl rfl rfl (fun hended ↦ hended) (fun o houtcome ↦ by simp [hnone] at houtcome)
      ⟨hknown, rfl, hrunning⟩ (by simp) (fun o houtcome ↦ ?_) (fun _ _ ↦ .inr ⟨hrunning, rfl⟩)
      (h.history.decide hnone (.inr (by simp [hcase])))
    obtain rfl := some.inj houtcome
    exact ⟨rfl, by simp [hreaps]⟩
  | reaped => exact absurd hcase hkernel
  | stolen =>
    simp only [waitpid, hcase]
    refine h.settle hcall rfl rfl rfl (fun hended ↦ hended) (fun o houtcome ↦ by simp [hnone] at houtcome)
      ⟨hknown, rfl, hrunning⟩ (by simp) (fun o houtcome ↦ ?_) (fun _ _ ↦ .inr ⟨hrunning, rfl⟩)
      (h.history.decide hnone (.inl rfl))
    obtain rfl := some.inj houtcome
    exact ⟨rfl, hreaps⟩

/-- A call that answers with the outcome answers what was known when it started. -/
theorem Sound.settled (hcall : w.calls[id]? = some call) (houtcome : w.shared.outcome = some o)
    (haside : Aside w id w') (hmutex : w'.mutex ≠ some id) :
    Sound (w.finish id (answered call o.answer w')) := by
  refine h.finish (haside.answered (fun v heq ↦ ?_) fun _ old hold ↦ ?_) (by simpa using hmutex)
  · rw [haside.same.outcome, houtcome, Outcome.answer_eq_ok heq]
  · have hsame := h.known id call hcall (by simp [hold])
    rw [houtcome, hold, some.injEq] at hsame
    rw [hsame]

/-- The verdict in the fields, as the call without the mutex or with it reads it. -/
theorem Sound.told_lost (hstate : w.shared.state = .lost) : w.shared.outcome = some .lost := by
  obtain ⟨o, houtcome, htold⟩ := h.outcome_of_state (by simp [hstate])
  cases o with
  | code => simp [Outcome.Told, hstate] at htold
  | lost => exact houtcome

theorem Sound.told_code (hstate : w.shared.state = .ended) :
    w.shared.outcome = some (.code w.shared.code) := by
  obtain ⟨o, houtcome, htold⟩ := h.outcome_of_state (by simp [hstate])
  cases o with
  | code v => rw [houtcome, htold.2]
  | lost => simp [Outcome.Told, hstate] at htold

/-- A call outside the mutex. -/
theorem Sound.outside (hcall : w.calls[id]? = some call) (hcritical : call.stage.critical = false) :
    w.shared.mutex ≠ some id := by
  intro hmutex
  obtain ⟨seen, hseen, hheld⟩ := h.held id hmutex
  obtain rfl := some.inj (hcall.symm.trans hseen)
  simp [hcritical] at hheld

omit h

variable {after : ChildProcess} {interrupted : Bool}

variable (h : Sound w)
include h

theorem Sound.turn_first (hcall : w.calls[id]? = some ⟨kind, known, .first⟩)
    (hturn : turn id interrupted ⟨kind, known, .first⟩ w = some after) : Sound after := by
  have hquiet := h.quiet hcall rfl
  have hmutex := h.outside hcall rfl
  simp only [turn] at hturn
  split at hturn <;> cases hturn
  · exact h.goOn hcall hquiet (iff_of_false Bool.false_ne_true hmutex) trivial
  · exact h.goOn hcall hquiet (iff_of_false Bool.false_ne_true hmutex) ‹_›
  · exact h.settled hcall (h.told_lost ‹_›) hquiet hmutex

theorem Sound.turn_looking (hcall : w.calls[id]? = some ⟨kind, known, .looking⟩)
    (hturn : turn id interrupted ⟨kind, known, .looking⟩ w = some after) : Sound after := by
  have hheld := h.mutex id _ hcall rfl
  simp only [turn] at hturn
  split at hturn <;> cases hturn <;> refine h.goOn hcall (h.quiet hcall rfl) (iff_of_true rfl hheld) ?_
  · exact h.unknown hcall rfl rfl ‹_›
  · exact ⟨h.told_code ‹_›, ‹_›⟩
  · exact ⟨h.told_lost ‹_›, ‹_›⟩

theorem Sound.store {code : ℤ} (hcall : w.calls[id]? = some ⟨kind, known, .storing code⟩) :
    Sound (w.goOn id ⟨kind, known, .storing code⟩ (.publishing code) { w.shared with code := code }) := by
  obtain ⟨hknown, houtcome, hrunning⟩ := h.backed id _ hcall
  exact h.settle hcall rfl rfl rfl (fun hended ↦ hended) (fun _ hsame ↦ hsame)
    ⟨hknown, houtcome, hrunning, rfl⟩
    (by simp [houtcome]) h.fits (fun _ _ ↦ .inr ⟨hrunning, rfl⟩) { h.history with }

/-- A call makes what waitpid brought known to all. -/
theorem Sound.tell (hcall : w.calls[id]? = some call)
    (hcritical : call.stage.critical = true) (houtcome : w.shared.outcome = some o)
    (hrunning : w.shared.state = .running) (htold : o.Told { w.shared with state := o.verdict }) :
    Sound (w.goOn id call (.found o) { w.shared with state := o.verdict }) := by
  refine h.settle hcall hcritical rfl rfl (fun hended ↦ by simp [hrunning] at hended)
    (fun _ hsame ↦ hsame) ⟨houtcome, rfl⟩
    (by simp [houtcome]) h.fits (fun x hx ↦ ?_) { h.history with }
  obtain rfl := some.inj (houtcome.symm.trans hx)
  exact .inl htold

theorem Sound.turn (hcall : w.calls[id]? = some call)
    (hturn : turn id interrupted call w = some after) : Sound after := by
  have hbacked := h.backed id call hcall
  obtain ⟨kind, known, stage⟩ := call
  cases stage with
  | first => exact h.turn_first hcall hturn
  | looking => exact h.turn_looking hcall hturn
  | decided =>
    cases hturn
    exact h.settled hcall (h.told_code hbacked) (h.quiet hcall rfl) (h.outside hcall rfl)
  | locking =>
    obtain ⟨hfree, ⟨⟩⟩ := ite_none_right_eq_some.mp hturn
    exact h.goOn hcall ⟨⟨rfl, rfl, rfl, rfl, rfl⟩,
      fun other hne ↦ by simp [hfree, Ne.symm hne], (h.quiet hcall rfl).unstored,
      { h.history with }⟩ (iff_of_true rfl rfl) trivial
  | asking =>
    cases interrupted with
    | true =>
      cases hturn
      exact h.goOn hcall (h.quiet hcall rfl) (iff_of_true rfl (h.mutex id _ hcall rfl)) trivial
    | false =>
      cases hturn
      exact h.ask hcall
  | storing code =>
    cases hturn
    exact h.store hcall
  | publishing code =>
    cases hturn
    obtain ⟨_, houtcome, hrunning, hcode⟩ := hbacked
    exact h.tell hcall rfl houtcome hrunning ⟨rfl, hcode⟩
  | losing =>
    cases hturn
    exact h.tell hcall rfl hbacked.2.1 hbacked.2.2 rfl
  | found o =>
    cases hturn
    exact h.settled hcall hbacked.1 (h.unlocks hcall rfl rfl) (by simp)
  | unresolved =>
    have hunlocks := h.unlocks hcall rfl rfl
    cases kind with
    | wait =>
      cases hturn
      have hknown : known = none := h.known_eq_none hcall hbacked
      exact h.goOn hcall hunlocks (by simp [Stage.critical]) hknown
    | release =>
      cases hturn
      exact h.finish hunlocks (by simp)
    | terminate => cases hturn
  | signalled answer =>
    cases hturn
    have hunlocks := h.unlocks hcall rfl rfl
    refine h.finish { hunlocks with
      same := { hunlocks.same with }
      history := { h.history with gone := forall_mem_append.mpr ⟨h.history.gone, ?_⟩ } } (by simp)
    exact forall_mem_singleton.mpr fun hknown ↦ absurd hbacked.1 hknown
  | pausing =>
    cases hturn
    exact h.goOn hcall (h.quiet hcall rfl) (iff_of_false Bool.false_ne_true (h.outside hcall rfl)) trivial

theorem Sound.kill {answer : Except Error Unit}
    (hcall : w.calls[id]? = some ⟨.terminate, known, .unresolved⟩) :
    Sound (w.goOn id ⟨.terminate, known, .unresolved⟩ (.signalled answer)
      { w.shared with signals := w.shared.signals ++ [(w.shared.kernel, w.shared.outcome)] }) := by
  have hnone : w.shared.outcome = none := h.backed id _ hcall
  have hknown : known = none := h.known_eq_none hcall hnone
  refine h.goOn hcall
    ⟨⟨rfl, rfl, rfl, rfl, rfl⟩, fun _ _ ↦ Iff.rfl, (h.quiet hcall rfl).unstored, { h.history with
    sent := forall_mem_append.mpr ⟨h.history.sent, ?_⟩ }⟩ (iff_of_true rfl (h.mutex id _ hcall rfl))
      ⟨hknown, rfl⟩
  exact forall_mem_singleton.mpr ⟨hnone, (h.undecided hnone).2.2, fun hstolen ↦ hstolen⟩

theorem Sound.giveUp {error : Error} (hcall : w.calls[id]? = some ⟨kind, known, .pausing⟩) :
    Sound (w.finish id (answered ⟨kind, known, .pausing⟩ (.error error) w.shared)) := by
  have hnone : known = none := h.backed id _ hcall
  refine h.finish ((h.quiet hcall rfl).answered (fun _ heq ↦ by simp at heq) ?_)
    (by simpa using h.outside hcall rfl)
  intro _ o hknown
  simp [hnone] at hknown

theorem Sound.start {released : Bool} (hfree : w.calls[id]? = none) :
    Sound ⟨{ w.shared with released := released },
      w.calls.insert id ⟨kind, w.shared.outcome, kind.firstStage⟩⟩ := by
  refine h.aside ⟨⟨rfl, rfl, rfl, rfl, rfl⟩, fun _ _ ↦ Iff.rfl, fun call hcall ↦ by simp [hfree] at hcall,
    { h.history with }⟩ (fun x hne ↦ OrderedMap.getElem?_insert_of_ne _ _ (Ne.symm hne))
    (fun seen hseen ↦ ?_) (fun hmutex ↦ ?_)
  · obtain rfl := some.inj (ExtTreeMap.getElem?_insert_self.symm.trans hseen)
    exact ⟨fun _ ↦ rfl, by cases kind <;> trivial, fun hcritical ↦ by cases kind <;> cases hcritical⟩
  · obtain ⟨call, hcall, _⟩ := h.held id hmutex
    simp [hfree] at hcall

/-- The kernel changes what it has of the child. -/
theorem Sound.changes {kernel : Kernel} (hold : w.shared.kernel ≠ .reaped) (hnew : kernel ≠ .reaped)
    (hstolen : w.shared.kernel = .stolen → kernel = .stolen) :
    Sound { w with shared := { w.shared with kernel := kernel } } := by
  refine { h with
    undecided := fun hnone ↦ ?_, fits := fun o houtcome ↦ ?_, told := fun o houtcome ↦ ?_
    history := { h.history with sent := fun e he ↦ ?_ } }
  · obtain ⟨hrunning, hreaps, _⟩ := h.undecided hnone
    exact ⟨hrunning, hreaps, hnew⟩
  · have hfits := h.fits o houtcome
    cases o with
    | code => exact absurd hfits.1 hold
    | lost => exact ⟨hstolen hfits.1, hfits.2⟩
  · refine (h.told o houtcome).imp_left fun htold ↦ ?_
    cases o with
    | code | lost => exact htold
  · obtain ⟨hunknown, hreaped, hseen⟩ := h.history.sent e he
    exact ⟨hunknown, hreaped, fun heq ↦ hstolen (hseen heq)⟩

theorem Sound.next {action : Action} (hnext : next action w = some after) : Sound after := by
  cases action with
  | start id kind =>
    obtain ⟨⟨_, hfree, _⟩, ⟨⟩⟩ := ite_none_right_eq_some.mp hnext
    exact h.start (isNone_iff_eq_none.mp hfree)
  | turn id interrupted =>
    obtain ⟨call, hcall, hturn⟩ := bind_eq_some_iff.mp hnext
    exact h.turn hcall hturn
  | kill id answer =>
    obtain ⟨call, hcall, hkill⟩ := bind_eq_some_iff.mp hnext
    obtain ⟨kind, known, stage⟩ := call
    split at hkill <;> cases hkill
    cases ‹stage = _›
    cases ‹kind = _›
    exact h.kill hcall
  | giveUp id error =>
    obtain ⟨call, hcall, hgive⟩ := bind_eq_some_iff.mp hnext
    obtain ⟨kind, known, stage⟩ := call
    split at hgive <;> cases hgive
    cases ‹stage = _›
    exact h.giveUp hcall
  | die status =>
    obtain ⟨hrunning, ⟨⟩⟩ := ite_none_right_eq_some.mp hnext
    exact h.changes (by simp [hrunning]) (by simp) fun hstolen ↦ by simp [hrunning] at hstolen
  | steal =>
    obtain ⟨hreaped, ⟨⟩⟩ := ite_none_left_eq_some.mp hnext
    exact h.changes hreaped (by simp) fun _ ↦ rfl

omit h in
theorem sound_of_reachable (hreach : machine.runs.Reachable w) : Sound w :=
  Machine.invariant sound_initial (fun _ _ _ _ h hnext ↦ h.next hnext) hreach

theorem Sound.known_backed (hcall : w.calls[id]? = some call) (hknown : call.known ≠ none) :
    call.stage.rank ≠ 0 := by
  have hbacked := h.backed id call hcall
  have houtcome : w.shared.outcome ≠ none := fun hnone ↦ hknown (h.known_eq_none hcall hnone)
  obtain ⟨kind, known, stage⟩ := call
  cases stage with
  | first | decided | locking | looking | found => simp [Stage.rank]
  | asking | unresolved => exact absurd hbacked houtcome
  | storing | publishing | losing | signalled => exact absurd hbacked.1 hknown
  | pausing => exact absurd hbacked hknown

/-- A wait that ends in a step of its own answers how the child ended. -/
theorem Sound.ends (hcall : w.calls[id]? = some call) (hwait : call.kind = .wait)
    (hturn : ChildProcess.turn id interrupted call w = some after) (hended : after.calls[id]? = none) :
    ∃ o : Outcome, w.shared.outcome = some o ∧
      after.shared.waits = w.shared.waits ++ [(call.known, o.answer)] := by
  have hbacked := h.backed id call hcall
  have hgoes (stage : Stage) (w' : Shared) : (w.goOn id call stage w').calls[id]? ≠ none := by
    simp [ChildProcess.goOn]
  obtain ⟨kind, known, stage⟩ := call
  obtain rfl : kind = .wait := hwait
  cases stage with
  | found o =>
    cases hturn
    exact ⟨o, hbacked.1, rfl⟩
  | decided =>
    cases hturn
    exact ⟨_, h.told_code hbacked, rfl⟩
  | first =>
    simp only [ChildProcess.turn] at hturn
    split at hturn <;> cases hturn
    · exact absurd hended (hgoes _ _)
    · exact absurd hended (hgoes _ _)
    · exact ⟨_, h.told_lost ‹_›, rfl⟩
  | signalled => cases hbacked.2
  | looking | locking | asking =>
    simp only [ChildProcess.turn] at hturn
    split at hturn <;> cases hturn <;> exact absurd hended (hgoes _ _)
  | storing | publishing | losing | unresolved | pausing =>
    cases hturn
    exact absurd hended (hgoes _ _)

/-- A call that starts with the outcome known takes at most four steps, and waits for the
mutex at most. -/
theorem Sound.nearer (hcall : w.calls[id]? = some call) (hknown : call.known ≠ none)
    (hfree : call.stage = .locking → w.shared.mutex = none) (interrupted : Bool) :
    ∃ after, ChildProcess.next (.turn id interrupted) w = some after ∧
      ∀ seen, after.calls[id]? = some seen → seen.stage.rank < call.stage.rank := by
  have hrank := h.known_backed hcall hknown
  suffices hturn : ∃ after, ChildProcess.turn id interrupted call w = some after ∧
      ∀ seen, after.calls[id]? = some seen → seen.stage.rank < call.stage.rank by
    obtain ⟨after, hturn, hlt⟩ := hturn
    exact ⟨after, bind_eq_some_iff.mpr ⟨call, hcall, hturn⟩, hlt⟩
  have hgoOn (stage : Stage) (w' : Shared) (hlt : stage.rank < call.stage.rank) :
      ∀ seen, (w.goOn id call stage w').calls[id]? = some seen → seen.stage.rank < call.stage.rank := by
    intro seen hseen
    obtain rfl := some.inj (ExtTreeMap.getElem?_insert_self.symm.trans hseen)
    exact hlt
  have hfinish (w' : Shared) : ∀ seen, (w.finish id w').calls[id]? = some seen → seen.stage.rank <
    call.stage.rank := by
    intro seen hseen
    simp [ChildProcess.finish] at hseen
  obtain ⟨kind, known, stage⟩ := call
  cases stage with
  | first =>
    simp only [ChildProcess.turn]
    split
    · exact ⟨_, rfl, hgoOn .locking _ (by simp [Stage.rank])⟩
    · exact ⟨_, rfl, hgoOn .decided _ (by simp [Stage.rank])⟩
    · exact ⟨_, rfl, hfinish _⟩
  | decided => exact ⟨_, rfl, hfinish _⟩
  | locking => exact ⟨_, if_pos (hfree rfl), hgoOn .looking _ (by simp [Stage.rank])⟩
  | looking =>
    simp only [ChildProcess.turn]
    split
    · exact absurd (h.known_eq_none hcall (h.unknown hcall rfl rfl ‹_›)) hknown
    · exact ⟨_, rfl, hgoOn (.found _) _ Nat.one_lt_two⟩
    · exact ⟨_, rfl, hgoOn (.found _) _ Nat.one_lt_two⟩
  | found => exact ⟨_, rfl, hfinish _⟩
  | _ => exact absurd rfl hrank

omit h

/-- The child is reaped at most once. A signal is sent only while no call has learned how the child
ended and, unless somebody else takes the child, only while the kernel has it. All waits that return
a code return one, what a call has learned every later wait answers, and every later termination
finds nothing; such a call is held up only by the mutex, which some call has. A wait gives up
between two looks; any other answers how the child ended, which it may have found out itself. -/
theorem outcome_of_reachable (hreach : machine.runs.Reachable w) : w.shared.reaps ≤ 1 ∧
    (∀ entry ∈ w.shared.signals, entry.2 = none ∧ entry.1 ≠ .reaped ∧
      (w.shared.kernel ≠ .stolen → entry.1 ≠ .stolen)) ∧
    (∀ entry ∈ w.shared.waits, ∀ value, entry.2 = .ok value → w.shared.outcome = some (.code value)) ∧
    (∀ entry ∈ w.shared.waits, ∀ value, entry.1 = some (.code value) → entry.2 = .ok value) ∧
    (∀ entry ∈ w.shared.waits, entry.1 = some .lost → entry.2 = .error .os) ∧
    (∀ entry ∈ w.shared.terminations, entry.1 ≠ none → entry.2 = .error .notFound) ∧
    (w.shared.outcome = some .lost → w.shared.kernel = .stolen ∧ w.shared.reaps = 0) ∧
    (∀ (id : ℕ) (call : Call), w.calls[id]? = some call → call.known ≠ none →
      (call.stage = .locking → w.shared.mutex = none) → ∀ interrupted, ∃ after,
        next (.turn id interrupted) w = some after ∧
        ∀ seen, after.calls[id]? = some seen → seen.stage.rank < call.stage.rank) ∧
    (∀ id, w.shared.mutex = some id → ∃ call, w.calls[id]? = some call ∧ call.stage.critical = true) ∧
    (∀ (id : ℕ) (call : Call), w.calls[id]? = some call → call.kind = .wait →
      (∀ interrupted after, next (.turn id interrupted) w = some after → after.calls[id]? = none →
        ∃ o : Outcome, w.shared.outcome = some o ∧
          after.shared.waits = w.shared.waits ++ [(call.known, o.answer)]) ∧
      ∀ error, (next (.giveUp id error) w).isSome → call.stage = .pausing) := by
  have h := sound_of_reachable hreach
  refine ⟨?_, fun entry hentry ↦ ?_, h.history.same,
    fun entry hentry value hknown ↦ h.history.later entry hentry _ hknown,
    fun entry hentry hknown ↦ h.history.later entry hentry _ hknown, h.history.gone,
      fun hlost ↦ h.fits _ hlost,
    fun id call hcall hknown hfree interrupted ↦ h.nearer hcall hknown hfree interrupted, h.held,
    fun id call hcall hwait ↦ ⟨fun interrupted after hnext hended ↦ ?_, fun error hgives ↦ ?_⟩⟩
  · cases houtcome : w.shared.outcome with
    | none => simp [h.undecided houtcome]
    | some o =>
      have hfits := h.fits o houtcome
      cases o with
      | code => exact hfits.2.le
      | lost => simp [hfits.2]
  · obtain ⟨hunknown, hreaped, hstolen⟩ := h.history.sent entry hentry
    exact ⟨hunknown, hreaped, fun hne heq ↦ hne (hstolen heq)⟩
  · rw [next, hcall] at hnext
    exact h.ends hcall hwait hnext hended
  · simp only [next, hcall, bind_some] at hgives
    split at hgives
    · assumption
    · cases hgives

/-- A wait learns nothing, a termination signals, the child ends by the signal, and a second wait
and a second termination look. The first wait then reads the verdict without the mutex. -/
def killedChild : List Action :=
  [.start 0 .wait, .turn 0 false, .turn 0 false, .turn 0 false, .turn 0 false, .turn 0 false,
    .start 1 .terminate, .turn 1 false, .turn 1 false, .turn 1 true, .turn 1 false, .turn 1 false,
      .kill 1 (.ok ()), .turn 1 false,
    .die (.signaled 9), .start 2 .wait, .turn 2 false, .turn 2 false, .turn 2 false, .turn 2 false,
      .turn 2 false, .turn 2 false,
    .turn 2 false, .turn 0 false, .turn 0 false, .turn 0 false,
    .start 3 .terminate, .turn 3 false, .turn 3 false, .turn 3 false, .start 4 .release,
      .turn 4 false, .turn 4 false]

theorem outcome_of_reachable_killedChild : ∃ w, machine.run killedChild machine.start = some w ∧
      (w.shared.waits = [(none, .ok 137), (none, .ok 137)] ∧ w.shared.signals = [(.running, none)] ∧
        w.shared.terminations = [(none, .ok ()), (some (.code 137), .error .notFound)]) ∧
          w.shared.reaps ≤ 1 := by
  have hrun : ∃ w, machine.run killedChild machine.start = some w ∧
      w.shared.waits = [(none, .ok 137), (none, .ok 137)] ∧ w.shared.signals = [(.running, none)] ∧
        w.shared.terminations = [(none, .ok ()), (some (.code 137), .error .notFound)] :=
          ⟨_, rfl, rfl, rfl, rfl⟩
  obtain ⟨w, hworld, hlogs⟩ := hrun
  exact ⟨w, hworld, hlogs, (outcome_of_reachable (Machine.reachable_of_run hworld)).1⟩

end ChildProcess

end DotnetPal.Linux
