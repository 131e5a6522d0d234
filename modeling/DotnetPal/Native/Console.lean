import DotnetPal.Foundations.Machines
import Mathlib.Algebra.Order.Ring.Nat
import Mathlib.Logic.Function.Basic

/-!
# The console and the signals

Managed code registers for signals; the console of the BCL listens to window changes and
continuations for itself. Both go to the notifications group of the boundary, which keeps a set of
enabled kinds. Registrations are serialized among themselves; the one initialization of the terminal
runs beside them. A step is one atomic access or one call of the boundary.
-/

open Function

namespace DotnetPal.Native

open Programs

/-! ## The table of signals -/

structure SignalEntry where
  code : ℤ
  /-- The kind of the notification; the end of a child has none. -/
  kind : ℕ

def notifyContinue : ℕ := 5

def notifyWindowChange : ℕ := 6

/-- SIGHUP, SIGINT, SIGQUIT, SIGTERM, SIGCHLD, SIGCONT, SIGWINCH, SIGTTIN, SIGTTOU and SIGTSTP. -/
def signals : List SignalEntry :=
  [⟨1, 4⟩, ⟨2, 1⟩, ⟨3, 2⟩, ⟨15, 3⟩, ⟨17, 0⟩, ⟨18, notifyContinue⟩, ⟨28, notifyWindowChange⟩,
    ⟨21, 7⟩, ⟨22, 8⟩, ⟨20, 9⟩]

def indexOfCode (code : ℤ) : Option ℕ := signals.findIdx? (·.code = code)

/-- The kind of a signal by its index. -/
def kindOf (i : ℕ) : ℕ := (signals[i]?.map (·.kind)).getD 0

variable {i : ℕ}

/-- Two signals have different kinds. -/
theorem kindOf_injective {j : ℕ} (hkind : kindOf i ≠ 0) (heq : kindOf j = kindOf i) : j = i := by
  have hbound : ∀ x, kindOf x ≠ 0 → x < 10 := by
    intro x hx
    by_contra hlarge
    exact hx (by simp [kindOf, List.getElem?_eq_none (show signals.length ≤ x from not_lt.mp hlarge)])
  have htable : ∀ a < 10, ∀ b < 10, kindOf a ≠ 0 → kindOf b = kindOf a → b = a := by
    decide
  exact htable i (hbound i hkind) j (hbound j (heq ▸ hkind)) hkind heq

/-! ## The steps -/

/-- `installed`. -/
inductive Installation
  | none
  | inProgress
  | done
  | failed
  deriving DecidableEq

/-- Where a call is in `ensure_installed`: before it loads the state, before it claims the
installation, and before the boundary's answer. -/
inductive Ensuring
  | loading
  | claiming
  | installing
  deriving DecidableEq

/-- One step of `ensure_installed`; on the right what it returns. -/
def ensureInstalled (ok : Bool) : Ensuring → Installation → Installation × (Ensuring ⊕ Bool)
  | .loading, .none => (.none, .inl .claiming)
  | .loading, .inProgress => (.inProgress, .inl .loading)
  | .loading, .done => (.done, .inr true)
  | .loading, .failed => (.failed, .inr false)
  | .claiming, .none => (.inProgress, .inl .installing)
  | .claiming, installed => (installed, .inl .loading)
  | .installing, _ => (if ok then .done else .failed, .inl .loading)

/-- Where the initialization is. -/
inductive Initializing
  | idle
  | ensuring (phase : Ensuring)
  | listening
  | enablingWindow
  | enablingContinue
  deriving DecidableEq

/-- Where the registration or its end is. -/
inductive Handling
  | idle
  | ensuring (i : ℕ) (phase : Ensuring)
  | enabling (i : ℕ)
  | registering (i : ℕ)
  | unregistering (i : ℕ)
  /-- Before `console_listens` is read, with the flag read as not set, and with the
  decision to disable. -/
  | reading (i : ℕ)
  | checking (i : ℕ)
  | disabling (i : ℕ)
  deriving DecidableEq

/-- A signal whose end of registration has read the flag as not set and has yet to ask the boundary. -/
def Handling.committed : Handling → Option ℕ
  | .checking i | .disabling i => some i
  | _ => none

structure Console where
  installed : Installation
  /-- The bits of `registered`. -/
  registered : ℕ → Bool
  consoleListens : Bool
  /-- The initialization has run before. -/
  initialized : Bool
  /-- The kinds enabled in the boundary. -/
  enabled : ℕ → Bool
  initializing : Initializing
  handling : Handling

namespace Console

/-- Boundary calls carry whether they succeed. -/
inductive Action
  | initializeTerminal
  | ensureConsole (ok : Bool)
  | listen
  | enableWindow (ok : Bool)
  | enableContinue (ok : Bool)
  | enable (code : ℤ)
  | ensure (ok : Bool)
  | portEnable (ok : Bool)
  | register
  | disable (code : ℤ)
  | unregister
  | readListens
  | readInstalled
  | portDisable (ok : Bool)

def initial : Console where
  installed := .none
  registered _ := false
  consoleListens := false
  initialized := false
  enabled _ := false
  initializing := .idle
  handling := .idle

/-- A call of the boundary that changes whether a kind is enabled. -/
def answer (ok : Bool) (kind : ℕ) (value : Bool) (w : Console) : Console :=
  if ok then { w with enabled := update w.enabled kind value } else w

/-- The kinds the console listens to. -/
def hears (kind : ℕ) : Bool := kind = notifyWindowChange || kind = notifyContinue

def next : Action → Console → Option Console
  | .initializeTerminal, w =>
    if w.initializing ≠ .idle then none
    else if w.initialized then some w
    else some { w with initialized := true, initializing := .ensuring .loading }
  | .ensureConsole ok, w =>
    match w.initializing with
    | .ensuring phase =>
      match ensureInstalled ok phase w.installed with
      | (installed, .inl after) => some { w with installed, initializing := .ensuring after }
      | (installed, .inr result) =>
        some { w with installed, initializing := if result then .listening else .idle }
    | _ => none
  | .listen, w =>
    match w.initializing with
    | .listening => some { w with consoleListens := true, initializing := .enablingWindow }
    | _ => none
  | .enableWindow ok, w =>
    match w.initializing with
    | .enablingWindow => some { w.answer ok notifyWindowChange true with initializing := .enablingContinue }
    | _ => none
  | .enableContinue ok, w =>
    match w.initializing with
    | .enablingContinue => some { w.answer ok notifyContinue true with initializing := .idle }
    | _ => none
  | .enable code, w =>
    if w.handling ≠ .idle then none
    else match indexOfCode code with
      | none => some w
      | some i =>
        some { w with handling := if kindOf i ≠ 0 then .ensuring i .loading else .registering i }
  | .ensure ok, w =>
    match w.handling with
    | .ensuring i phase =>
      match ensureInstalled ok phase w.installed with
      | (installed, .inl after) => some { w with installed, handling := .ensuring i after }
      | (installed, .inr result) =>
        some { w with installed, handling := if result then .enabling i else .idle }
    | _ => none
  | .portEnable ok, w =>
    match w.handling with
    | .enabling i =>
      some { w.answer ok (kindOf i) true with handling := if ok then .registering i else .idle }
    | _ => none
  | .register, w =>
    match w.handling with
    | .registering i => some { w with registered := update w.registered i true, handling := .idle }
    | _ => none
  | .disable code, w =>
    if w.handling ≠ .idle then none
    else match indexOfCode code with
      | none => some w
      | some i => some { w with handling := .unregistering i }
  | .unregister, w =>
    match w.handling with
    | .unregistering i =>
      some { w with registered := update w.registered i false, handling := .reading i }
    | _ => none
  | .readListens, w =>
    match w.handling with
    | .reading i =>
      -- A signal without a kind has nothing to disable; the kinds the console hears stay.
      if kindOf i = 0 ∨ w.consoleListens ∧ hears (kindOf i) then some { w with handling := .idle }
      else some { w with handling := .checking i }
    | _ => none
  | .readInstalled, w =>
    match w.handling with
    | .checking i => some { w with handling := if w.installed = .done then .disabling i else .idle }
    | _ => none
  | .portDisable ok, w =>
    match w.handling with
    | .disabling i => some { w.answer ok (kindOf i) false with handling := .idle }
    | _ => none

def machine : Machine Console Action where
  start := initial
  next := next

/-! ## What stays enabled -/

/-- The boundary does what it is asked. -/
def Action.Succeeds : Action → Prop
  | .ensureConsole ok | .enableWindow ok | .enableContinue ok | .ensure ok
  | .portEnable ok | .portDisable ok => ok = true
  | _ => True

/-- The console starts to listen only while no end of a registration is on its way to disable one
of its kinds. -/
def Action.Undisturbed : Action → Console → Prop
  | .listen, w => ∀ i, w.handling.committed = some i → hears (kindOf i) = false
  | _, _ => True

def Action.Orderly (action : Action) (w : Console) : Prop := action.Succeeds ∧ action.Undisturbed w

structure Heard (w : Console) : Prop where
  registered : ∀ i, w.registered i = true → kindOf i ≠ 0 → w.enabled (kindOf i) = true
  /-- A registration sets its bit only after its kind was enabled. -/
  registering : ∀ i, w.handling = .registering i → kindOf i ≠ 0 → w.enabled (kindOf i) = true
  /-- The end of a registration disables a kind only after its bit was cleared. -/
  reading : ∀ i, w.handling = .reading i → w.registered i = false
  committed : ∀ i, w.handling.committed = some i → kindOf i ≠ 0 ∧ w.registered i = false
  undisturbed : w.consoleListens = true → ∀ i, w.handling.committed = some i →
    hears (kindOf i) = false
  fresh : w.initialized = false → w.initializing = .idle ∧ w.consoleListens = false
  early : ∀ phase, w.initializing = .ensuring phase → w.consoleListens = false
  window : w.consoleListens = true → w.initializing = .enablingWindow ∨ w.enabled notifyWindowChange = true
  continuation : w.consoleListens = true → w.initializing = .enablingWindow ∨
    w.initializing = .enablingContinue ∨ w.enabled notifyContinue = true

variable {w w' : Console}

theorem heard_initial : Heard initial where
  registered _ h := by cases h
  registering _ h := by cases h
  reading _ h := by cases h
  committed _ h := by cases h
  undisturbed h := by cases h
  fresh _ := ⟨rfl, rfl⟩
  early _ h := by cases h
  window h := by cases h
  continuation h := by cases h

variable (h : Heard w)
include h

variable {installed : Installation}

/-- A step of the initialization before the console listens. -/
theorem Heard.start {phase : Initializing} {initialized : Bool}
    (hinitialized : initialized = true) (hlistens : w.consoleListens = false) :
    Heard { w with installed, initialized, initializing := phase } :=
  { h with
    fresh hfresh := by cases hinitialized.symm.trans hfresh
    early _ _ := hlistens
    window hset := absurd hset (by simp [hlistens])
    continuation hset := absurd hset (by simp [hlistens]) }

/-- More kinds are enabled, and the initialization goes on. -/
theorem Heard.grow {enabled : ℕ → Bool} (hgrow : ∀ kind, w.enabled kind = true → enabled kind = true) :
    Heard { w with enabled } :=
  { h with
    registered i hbit hkind := hgrow _ (h.registered i hbit hkind)
    registering i hp hkind := hgrow _ (h.registering i hp hkind)
    window hset := (h.window hset).imp_right (hgrow _)
    continuation hset := (h.continuation hset).imp_right (.imp_right (hgrow _)) }

/-- The initialization goes on after the console started to listen. -/
theorem Heard.advance {phase : Initializing} (hbusy : w.initializing ≠ .idle)
    (hp : ∀ ensuring, phase ≠ .ensuring ensuring)
    (hwindow : w.consoleListens = true → phase = .enablingWindow ∨ w.enabled notifyWindowChange = true)
    (hcontinuation : w.consoleListens = true → phase = .enablingWindow ∨ phase = .enablingContinue ∨
      w.enabled notifyContinue = true) : Heard { w with initializing := phase } :=
  { h with
    fresh hfresh := absurd (h.fresh hfresh).1 hbusy
    early ensuring heq := absurd heq (hp ensuring)
    window := hwindow
    continuation := hcontinuation }

omit h in
theorem enabled_grow (kind x : ℕ) (h : w.enabled x = true) : update w.enabled kind true x = true := by
  by_cases heq : x = kind
  · rw [heq, update_self]
  · rw [update_of_ne heq, h]

/-- The registration goes on to a phase that relies on nothing. -/
theorem Heard.handle {phase : Handling} (hcommitted : phase.committed = none)
    (hregistering : ∀ i, phase = .registering i → kindOf i ≠ 0 → w.enabled (kindOf i) = true)
    (hreading : ∀ i, phase ≠ .reading i) : Heard { w with installed, handling := phase } :=
  { h with
    registering := hregistering
    reading i hp := absurd hp (hreading i)
    committed i hp := by simp [hcommitted] at hp
    undisturbed _ i hp := by simp [hcommitted] at hp }

theorem Heard.idle : Heard { w with handling := .idle } := h.handle rfl (by simp) (by simp)

theorem Heard.register (hp : w.handling = .registering i) :
    Heard { w with registered := update w.registered i true, handling := .idle } :=
  { h.idle with
    registered x hbit hkind := by
      by_cases heq : x = i
      · exact heq ▸ h.registering i hp (heq ▸ hkind)
      · exact h.registered x ((update_of_ne heq ..).symm.trans hbit) hkind
    reading _ hp := by cases hp
    committed _ hp := by cases hp }

theorem Heard.unregister :
    Heard { w with registered := update w.registered i false, handling := .reading i } :=
  { h.idle with
    registered x hbit hkind := by
      by_cases heq : x = i
      · have hclear : update w.registered i false x = false := by rw [heq, update_self]
        cases hclear.symm.trans hbit
      · exact h.registered x ((update_of_ne heq ..).symm.trans hbit) hkind
    registering _ hp := by cases hp
    reading x hp := by
      obtain rfl := Handling.reading.inj hp
      exact update_self ..
    committed _ hp := by cases hp }

/-- The end of a registration decides, step by step, to disable the kind of its signal. -/
theorem Heard.commit {phase : Handling} (hp : phase.committed = some i)
    (hkind : kindOf i ≠ 0) (hbit : w.registered i = false)
    (hhears : w.consoleListens = true → hears (kindOf i) = false) : Heard { w with handling := phase } :=
  { h with
    registering _ heq := by subst heq; cases hp
    reading _ heq := by subst heq; cases hp
    committed x hx := by
      obtain rfl : i = x := Option.some.inj (hp.symm.trans hx)
      exact ⟨hkind, hbit⟩
    undisturbed hset x hx := by
      obtain rfl : i = x := Option.some.inj (hp.symm.trans hx)
      exact hhears hset }

/-- A kind is disabled: its signal is not registered, and the console does not listen to it. -/
theorem Heard.disable (hp : w.handling = .disabling i) :
    Heard { w with enabled := update w.enabled (kindOf i) false, handling := .idle } := by
  have hcommitted : w.handling.committed = some i := by rw [hp]; rfl
  obtain ⟨_, hbit⟩ := h.committed i hcommitted
  have hstays : w.consoleListens = true → ∀ kind, hears kind = true → w.enabled kind = true →
      update w.enabled (kindOf i) false kind = true := by
    intro hset kind hhears henabled
    have hne : kind ≠ kindOf i := by
      rintro rfl
      simp [h.undisturbed hset i hcommitted] at hhears
    rw [update_of_ne hne, henabled]
  exact { h.idle with
    registered x hx hkind := by
      have hne : kindOf x ≠ kindOf i := by
        intro heq
        rw [kindOf_injective hkind heq.symm, hx] at hbit
        cases hbit
      exact (update_of_ne hne ..).trans (h.registered x hx hkind)
    registering _ heq := by cases heq
    window hset := (h.window hset).imp_right (hstays hset _ rfl)
    continuation hset := (h.continuation hset).imp_right (.imp_right (hstays hset _ rfl)) }

theorem Heard.listen (hp : w.initializing = .listening)
    (hundisturbed : ∀ i, w.handling.committed = some i → hears (kindOf i) = false) :
    Heard { w with consoleListens := true, initializing := .enablingWindow } :=
  { h with
    undisturbed _ := hundisturbed
    fresh hfresh := by cases hp.symm.trans (h.fresh hfresh).1
    early _ heq := by cases heq
    window _ := .inl rfl
    continuation _ := .inl rfl }

theorem Heard.next {action : Action} (horderly : action.Orderly w)
    (hnext : next action w = some w') : Heard w' := by
  cases action with
  | initializeTerminal =>
    obtain ⟨_, hnext⟩ := Option.ite_none_left_eq_some.mp hnext
    split_ifs at hnext with hinitialized <;> cases hnext
    · exact h
    · exact h.start rfl (h.fresh (by simpa using hinitialized)).2
  | ensureConsole ok =>
    simp only [Console.next] at hnext
    split at hnext
    · next phase hp =>
      have hinitialized : w.initialized = true := by
        by_contra hfresh
        cases hp.symm.trans (h.fresh (by simpa using hfresh)).1
      split at hnext <;> cases hnext
      · exact h.start hinitialized (h.early phase hp)
      · exact h.start hinitialized (h.early phase hp)
    · cases hnext
  | listen =>
    simp only [Console.next] at hnext
    split at hnext <;> cases hnext
    exact h.listen ‹_› horderly.2
  | enableWindow ok =>
    obtain rfl : ok = true := horderly.1
    simp only [Console.next] at hnext
    split at hnext
    · next hp =>
      cases hnext
      refine (h.grow (enabled_grow notifyWindowChange)).advance (by simp [hp]) (by simp) (fun _ ↦ .inr ?_)
        fun _ ↦ .inr (.inl rfl)
      simp
    · cases hnext
  | enableContinue ok =>
    obtain rfl : ok = true := horderly.1
    simp only [Console.next] at hnext
    split at hnext
    · next hp =>
      cases hnext
      refine (h.grow (enabled_grow notifyContinue)).advance (by simp [hp]) (by simp) (fun hset ↦ .inr ?_)
        fun _ ↦ .inr (.inr ?_)
      · exact enabled_grow notifyContinue _ (by simpa [hp] using h.window hset)
      · simp
    · cases hnext
  | enable code =>
    obtain ⟨_, hnext⟩ := Option.ite_none_left_eq_some.mp hnext
    split at hnext <;> cases hnext
    · exact h
    · split_ifs with hkind
      · exact h.handle rfl (by simp) (by simp)
      · refine h.handle rfl (fun i heq hne ↦ ?_) (by simp)
        obtain rfl := Handling.registering.inj heq
        exact absurd hne hkind
  | ensure ok =>
    simp only [Console.next] at hnext
    split at hnext
    · split at hnext <;> cases hnext
      · exact h.handle rfl (by simp) (by simp)
      · split_ifs
        · exact h.handle rfl (by simp) (by simp)
        · exact h.handle rfl (by simp) (by simp)
    · cases hnext
  | portEnable ok =>
    obtain rfl : ok = true := horderly.1
    simp only [Console.next] at hnext
    split at hnext
    · next i hp =>
      cases hnext
      refine (h.grow (enabled_grow (kindOf i))).handle rfl (fun x heq _ ↦ ?_) (by simp)
      obtain rfl := Handling.registering.inj heq
      exact update_self ..
    · cases hnext
  | register =>
    simp only [Console.next] at hnext
    split at hnext <;> cases hnext
    exact h.register ‹_›
  | disable code =>
    obtain ⟨_, hnext⟩ := Option.ite_none_left_eq_some.mp hnext
    split at hnext <;> cases hnext
    · exact h
    · exact h.handle rfl (by simp) (by simp)
  | unregister =>
    simp only [Console.next] at hnext
    split at hnext <;> cases hnext
    exact h.unregister
  | readListens =>
    simp only [Console.next] at hnext
    split at hnext
    · next i hp =>
      split_ifs at hnext with hstays <;> cases hnext
      · exact h.idle
      · rw [not_or, not_and, Bool.not_eq_true] at hstays
        exact h.commit rfl hstays.1 (h.reading i hp) hstays.2
    · cases hnext
  | readInstalled =>
    simp only [Console.next] at hnext
    split at hnext
    · next i hp =>
      have hcommitted : w.handling.committed = some i := by rw [hp]; rfl
      cases hnext
      split_ifs
      · exact h.commit rfl (h.committed i hcommitted).1 (h.committed i hcommitted).2
          fun hset ↦ h.undisturbed hset i hcommitted
      · exact h.idle
    · cases hnext
  | portDisable ok =>
    obtain rfl : ok = true := horderly.1
    simp only [Console.next] at hnext
    split at hnext <;> cases hnext
    exact h.disable ‹_›

omit h

theorem heard_of_reachable (hreach : (machine.system Action.Orderly).Reachable w) : Heard w :=
  Machine.invariant heard_initial (fun _ _ _ horderly h hnext ↦ h.next horderly hnext) hreach

/-- Where the console starts to listen while no end of a registration is on its way to disable one
of its kinds: with no initialization in progress the kind of every registered signal is enabled, and
the two kinds of the console once it listens. -/
theorem enabled_of_orderly (hreach : (machine.system Action.Orderly).Reachable w)
    (hinitializing : w.initializing = .idle) :
    (∀ i, w.registered i = true → kindOf i ≠ 0 → w.enabled (kindOf i) = true) ∧
    (w.consoleListens = true → w.enabled notifyWindowChange = true ∧ w.enabled notifyContinue = true) := by
  have h := heard_of_reachable hreach
  refine ⟨h.registered, fun hset ↦ ⟨?_, ?_⟩⟩
  · simpa [hinitializing] using h.window hset
  · simpa [hinitializing] using h.continuation hset

/-- SIGWINCH is registered, the console starts to listen, and the registration ends. -/
def registeredWindow : List Action :=
  [.enable 28, .ensure true, .ensure true, .ensure true, .ensure true, .portEnable true, .register,
    .initializeTerminal, .ensureConsole true]

def endedWindow : List Action :=
  [.enableWindow true, .enableContinue true, .disable 28, .unregister, .readListens]

theorem enabled_of_orderly_window :
    ∃ w, (machine.system Action.Orderly).Reachable w ∧ w.initializing = .idle ∧ w.handling = .idle ∧
      w.consoleListens = true ∧ w.enabled notifyWindowChange = true := by
  have hfree : ∀ action ∈ registeredWindow ++ endedWindow, ∀ state, action.Orderly state := by
    simp [registeredWindow, endedWindow, Action.Orderly, Action.Succeeds, Action.Undisturbed]
  have hregistered := Machine.Reachable.of_free (System.Reachable.of_start rfl)
    (fun action haction ↦ hfree action (List.mem_append_left _ haction))
    (show machine.run registeredWindow initial = some _ from rfl)
  have hlistens := hregistered.of_step ⟨.listen, ⟨trivial, fun _ h ↦ by cases h⟩, rfl⟩
  have hended := Machine.Reachable.of_free hlistens
    (fun action haction ↦ hfree action (List.mem_append_right _ haction))
      (show machine.run endedWindow _ = some _ from rfl)
  exact ⟨_, hended, rfl, rfl, rfl, ((enabled_of_orderly hended rfl).2 rfl).1⟩

/-- The end of a registration of SIGWINCH finds that the console does not listen; then the console
starts to listen, and the kind is disabled last. -/
theorem disabled_window : ∃ w, machine.run
      [.enable 28, .ensure true, .ensure true, .ensure true, .ensure true, .portEnable true,
        .register, .disable 28,
        .unregister, .readListens, .readInstalled, .initializeTerminal, .ensureConsole true,
          .listen, .enableWindow true,
        .enableContinue true, .portDisable true] initial = some w ∧
      w.initializing = .idle ∧ w.handling = .idle ∧ w.consoleListens = true ∧
      w.enabled notifyWindowChange = false :=
  ⟨_, rfl, rfl, rfl, rfl, rfl⟩

end Console

end DotnetPal.Native
