import DotnetPal.Foundations.Machines
import Mathlib.Algebra.Order.Ring.Nat
import Mathlib.Logic.Function.Basic

/-!
# Installed handlers

The faults and the notifications group keep one handler and its data pointer in two atomics. An
install claims the group, stores data and handler, and asks the port; where the port fails it
withdraws the handler and lets another install follow. A delivery reads the handler, decides whether
it is wanted, and reads the data for the call. In the notifications group `ENABLED` has a bit for
each kind: enable sets it before it asks the port and takes it back where the port fails. A step is
one atomic access or one call of the port.
-/

open Option Function

namespace DotnetPal.Boundary

open Programs

inductive Group
  | faults
  | notifications
  deriving DecidableEq

inductive InstallState
  | empty
  | installing
  | installed
  deriving DecidableEq

/-- What an install answers. -/
inductive InstallAnswer
  | ok
  | busy
  | invalidArgument
  /-- The port failed, with the status of the boundary. -/
  | failed
  deriving DecidableEq

/-- Where a call is. Enables know whether the bit was set before, whether another one set it since,
and whether no disable ran since they started. -/
inductive Phase
  | idle
  /-- An install: with the group claimed, the data stored, the handler stored, the port's answer,
  and the handler withdrawn. -/
  | claimed (handler data : ℕ)
  | paired (handler data : ℕ)
  | asking (handler data : ℕ)
  | failing
  | withdrawn
  | started
  /-- A delivery with the handler it read, and with the decision to call it. -/
  | holding (handler kind : ℕ)
  | calling (handler : ℕ)
  /-- An enable: before the bit is set, before the port's answer, and before the bit is taken back. -/
  | wanting (kind : ℕ) (clean : Bool)
  | enabling (kind : ℕ) (before clean overtaken : Bool)
  | retracting (kind : ℕ) (overtaken : Bool)
  /-- A disable: before the bit is cleared, and before the port's answer. -/
  | refusing (kind : ℕ)
  | disabling (kind : ℕ)
  deriving DecidableEq

namespace Phase

def installs : Phase → Bool
  | .claimed .. | .paired .. | .asking .. | .failing | .withdrawn | .started => true
  | _ => false

/-- The handler a delivery has read. -/
def held : Phase → Option ℕ
  | .holding handler _ | .calling handler => some handler
  | _ => none

/-- A disable of a kind. -/
def disables (kind : ℕ) : Phase → Bool
  | .refusing found | .disabling found => found = kind
  | _ => false

/-- An enable that no disable of its kind disturbed, and that has set the bit. -/
def sure (kind : ℕ) : Phase → Bool
  | .enabling found _ clean _ => found = kind && clean
  | _ => false

/-- An enable that may take the bit of a kind back. -/
def risky (kind : ℕ) : Phase → Bool
  | .enabling found before _ overtaken => found = kind && !before && !overtaken
  | .retracting found overtaken => found = kind && !overtaken
  | _ => false

/-- Another enable of the kind sets the bit. -/
def overtake (kind : ℕ) : Phase → Phase
  | .enabling found before clean overtaken => .enabling found before clean (overtaken || found = kind)
  | .retracting found overtaken => .retracting found (overtaken || found = kind)
  | phase => phase

/-- A disable of the kind starts. -/
def disturb (kind : ℕ) : Phase → Phase
  | .wanting found clean => .wanting found (clean && found ≠ kind)
  | .enabling found before clean overtaken => .enabling found before (clean && found ≠ kind) overtaken
  | phase => phase

end Phase

/-- The atomics of a group, the calls, and what has happened. A null pointer is zero. -/
structure Handlers where
  state : InstallState
  handler : ℕ
  data : ℕ
  /-- The bits of `ENABLED`. -/
  enabled : ℕ → Bool
  phases : ℕ → Phase
  /-- Handler and data of every install, and of every invocation by a delivery. -/
  given : List (ℕ × ℕ)
  invoked : List (ℕ × ℕ)
  answers : List InstallAnswer
  /-- The disables that are running, with their kinds. -/
  refusals : List (ℕ × ℕ)
  /-- The kinds for which an enable returned OK that no disable ran beside or after. -/
  kept : ℕ → Bool

namespace Handlers

def withPhase (id : ℕ) (phase : Phase) (w : Handlers) : Handlers :=
  { w with phases := update w.phases id phase }

section WithPhase

variable (id : ℕ) (phase : Phase) (w : Handlers)

@[simp]
theorem state_withPhase : (w.withPhase id phase).state = w.state := rfl

@[simp]
theorem answers_withPhase : (w.withPhase id phase).answers = w.answers := rfl

@[simp]
theorem phases_withPhase_self : (w.withPhase id phase).phases id = phase := update_self ..

theorem phases_withPhase_of_ne {j : ℕ} (h : j ≠ id) : (w.withPhase id phase).phases j = w.phases j :=
  update_of_ne h ..

end WithPhase

/-- The kinds of faults, and of notifications. -/
def valid : Group → ℕ → Bool
  | .faults, kind => decide (1 ≤ kind ∧ kind ≤ 8)
  | .notifications, kind => decide (1 ≤ kind ∧ kind ≤ 9)

/-- Whether a delivery calls the handler it read. -/
def wanted (group : Group) (kind : ℕ) (w : Handlers) : Bool :=
  match group with
  | .faults => valid .faults kind
  | .notifications => valid .notifications kind && w.enabled kind

/-- An install answers. -/
def answered (answer : InstallAnswer) (w : Handlers) : Handlers := { w with answers := answer :: w.answers }

inductive Action
  | install (id handler data : ℕ)
  | storeData (id : ℕ)
  | storeHandler (id : ℕ)
  /-- The port's answer to an install. -/
  | start (id : ℕ) (ok : Bool)
  | withdraw (id : ℕ)
  | reset (id : ℕ)
  | complete (id : ℕ)
  | deliver (id kind : ℕ)
  | check (id : ℕ)
  | call (id : ℕ)
  | enable (id kind : ℕ)
  | setBit (id : ℕ)
  /-- The port's answer to an enable. -/
  | enabled (id : ℕ) (ok : Bool)
  | retract (id : ℕ)
  | disable (id kind : ℕ)
  | clearBit (id : ℕ)
  | disabled (id : ℕ)

def next (group : Group) : Action → Handlers → Option Handlers
  | .install id handler data, w =>
    if w.phases id ≠ .idle then none
    else if handler = 0 then some (w.answered .invalidArgument)
    else if w.state = .empty then
      some { w.withPhase id (.claimed handler data) with
        state := .installing
        given := (handler, data) :: w.given }
    else some { w.answered .busy with given := (handler, data) :: w.given }
  | .storeData id, w =>
    match w.phases id with
    | .claimed handler data => some { w.withPhase id (.paired handler data) with data := data }
    | _ => none
  | .storeHandler id, w =>
    match w.phases id with
    | .paired handler data => some { w.withPhase id (.asking handler data) with handler := handler }
    | _ => none
  | .start id ok, w =>
    match w.phases id with
    | .asking _ _ => some (w.withPhase id (if ok then .started else .failing))
    | _ => none
  | .withdraw id, w =>
    match w.phases id with
    | .failing => some { w.withPhase id .withdrawn with handler := 0 }
    | _ => none
  | .reset id, w =>
    match w.phases id with
    | .withdrawn => some { (w.withPhase id .idle).answered .failed with state := .empty }
    | _ => none
  | .complete id, w =>
    match w.phases id with
    | .started => some { (w.withPhase id .idle).answered .ok with state := .installed }
    | _ => none
  | .deliver id kind, w =>
    if w.phases id ≠ .idle then none
    else if w.handler = 0 then some w
    else some (w.withPhase id (.holding w.handler kind))
  | .check id, w =>
    match w.phases id with
    | .holding handler kind => some (w.withPhase id (if w.wanted group kind then .calling handler else .idle))
    | _ => none
  | .call id, w =>
    match w.phases id with
    | .calling handler => some { w.withPhase id .idle with invoked := (handler, w.data) :: w.invoked }
    | _ => none
  | .enable id kind, w =>
    if group ≠ .notifications ∨ w.phases id ≠ .idle then none
    else if valid .notifications kind = false ∨ w.state ≠ .installed then some w
    else some (w.withPhase id (.wanting kind (decide (∀ refusal ∈ w.refusals, refusal.2 ≠ kind))))
  | .setBit id, w =>
    match w.phases id with
    | .wanting kind clean =>
      some { w with
        enabled := update w.enabled kind true
        phases := update (fun other ↦ (w.phases other).overtake kind) id
          (.enabling kind (w.enabled kind) clean false) }
    | _ => none
  | .enabled id ok, w =>
    match w.phases id with
    | .enabling kind before clean overtaken =>
      if ok then some { w.withPhase id .idle with kept := update w.kept kind (w.kept kind || clean) }
      else some (w.withPhase id (if before then .idle else .retracting kind overtaken))
    | _ => none
  | .retract id, w =>
    match w.phases id with
    | .retracting kind _ => some { w.withPhase id .idle with enabled := update w.enabled kind false }
    | _ => none
  | .disable id kind, w =>
    if group ≠ .notifications ∨ w.phases id ≠ .idle then none
    else if valid .notifications kind = false ∨ w.state ≠ .installed then some w
    else some { w with
      phases := update (fun other ↦ (w.phases other).disturb kind) id (.refusing kind)
      refusals := (id, kind) :: w.refusals
      kept := update w.kept kind false }
  | .clearBit id, w =>
    match w.phases id with
    | .refusing kind => some { w.withPhase id (.disabling kind) with enabled := update w.enabled kind false }
    | _ => none
  | .disabled id, w =>
    match w.phases id with
    | .disabling kind => some { w.withPhase id .idle with refusals := w.refusals.filter (· ≠ (id, kind)) }
    | _ => none

def initial : Handlers := ⟨.empty, 0, 0, fun _ ↦ false, fun _ ↦ .idle, [], [], [], [], fun _ ↦ false⟩

def machine (group : Group) : Machine Handlers Action := ⟨initial, next group⟩

/-! ## One install -/

/-- What an install relies on. -/
def Backed (w : Handlers) : Phase → Prop
  | .claimed handler data => w.handler = 0 ∧ handler ≠ 0 ∧ (handler, data) ∈ w.given
  | .paired handler data => w.handler = 0 ∧ handler ≠ 0 ∧ (handler, data) ∈ w.given ∧ w.data = data
  | .asking _ _ | .started => w.handler ≠ 0
  | .withdrawn => w.handler = 0
  | _ => True

/-- The installs that returned OK. -/
def oks (w : Handlers) : ℕ := w.answers.count .ok

structure Paired (w : Handlers) : Prop where
  one : ∀ id other, (w.phases id).installs = true → (w.phases other).installs = true → id = other
  claimed : ∀ id, (w.phases id).installs = true → w.state = .installing
  backed : ∀ id, Backed w (w.phases id)
  pair : w.handler ≠ 0 → (w.handler, w.data) ∈ w.given
  free : w.state = .empty → w.handler = 0
  stays : w.state = .installed → w.handler ≠ 0
  single : w.oks = if w.state = .installed then 1 else 0

variable {w w' : Handlers} {id : ℕ} {phase : Phase}

theorem paired_initial : Paired initial where
  one _ _ h := by simp [initial, Phase.installs] at h
  claimed _ h := by simp [initial, Phase.installs] at h
  backed _ := trivial
  pair h := absurd rfl h
  free _ := rfl
  stays h := by simp [initial] at h
  single := rfl

theorem backed_of_not_installs (hinstalls : phase.installs = false) : Backed w phase := by
  cases phase <;> simp_all [Phase.installs, Backed]

variable (h : Paired w)
include h

variable {phases : ℕ → Phase}

/-- A step of a call that does not install; the others stay, or do not install after it. -/
theorem Paired.step {enabled kept : ℕ → Bool} {invoked refusals : List (ℕ × ℕ)}
    (hinstalls : phase.installs = false)
    (hothers : ∀ j, phases j = w.phases j ∨ (phases j).installs = false) :
    Paired { w with
      enabled := enabled, phases := update phases id phase, invoked := invoked, refusals :=
        refusals, kept := kept } := by
  have hcases : ∀ j, update phases id phase j = w.phases j ∨
      (update phases id phase j).installs = false := by
    intro j
    by_cases hne : j = id
    · rw [hne, update_self]
      exact .inr hinstalls
    · rw [update_of_ne hne]
      exact hothers j
  have hwas : ∀ j, (update phases id phase j).installs = true → (w.phases j).installs = true := by
    intro j hj
    rcases hcases j with heq | hnot
    · rwa [← heq]
    · simp [hnot] at hj
  refine ⟨fun a b ha hb ↦ h.one a b (hwas a ha) (hwas b hb),
    fun j hj ↦ h.claimed j (hwas j hj), fun j ↦ ?_, h.pair, h.free, h.stays, h.single⟩
  rcases hcases j with heq | hnot
  · have hbacked := h.backed j
    rw [← heq] at hbacked
    cases hcase : update phases id phase j <;> simp_all [Backed]
  · exact backed_of_not_installs hnot

omit h in
/-- A step of the one install that runs. -/
theorem Paired.install {state : InstallState} {handler data : ℕ} {given : List (ℕ × ℕ)}
    {answers : List InstallAnswer} (hothers : ∀ j, j ≠ id → (w.phases j).installs = false)
    (hfinal : w' = { w.withPhase id phase with
      state := state, handler := handler, data := data, given := given, answers := answers })
    (hclaimed : phase.installs = true → state = .installing) (hbacked : Backed w' phase)
    (hpair : handler ≠ 0 → (handler, data) ∈ given) (hfree : state = .empty → handler = 0)
    (hstays : state = .installed → handler ≠ 0)
    (hsingle : answers.count .ok = if state = .installed then 1 else 0) : Paired w' := by
  subst hfinal
  have hself : update w.phases id phase id = phase := update_self ..
  have honly : ∀ j, (update w.phases id phase j).installs = true → j = id := by
    intro j hj
    by_contra hne
    rw [update_of_ne hne, hothers j hne] at hj
    cases hj
  refine ⟨fun a b ha hb ↦ (honly a ha).trans (honly b hb).symm, fun j hj ↦ ?_,
    fun j ↦ ?_, hpair, hfree, hstays, hsingle⟩
  · obtain rfl := honly j hj
    exact hclaimed (by simpa [withPhase] using hj)
  · change Backed _ (update w.phases id phase j)
    by_cases hne : j = id
    · rw [hne, hself]
      exact hbacked
    · rw [update_of_ne hne]
      exact backed_of_not_installs (hothers j hne)

/-- Where one install runs, no other does. -/
theorem Paired.others (hid : (w.phases id).installs = true) :
    ∀ j, j ≠ id → (w.phases j).installs = false := by
  intro j hne
  rw [← Bool.not_eq_true]
  exact fun hj ↦ hne (h.one j id hj hid)

theorem Paired.claim {handler data : ℕ} (hhandler : handler ≠ 0) (hstate : w.state = .empty) :
    Paired { w.withPhase id (.claimed handler data) with
      state := .installing, given := (handler, data) :: w.given } := by
  have hnone : ∀ j, j ≠ id → (w.phases j).installs = false := by
    intro j _
    rw [← Bool.not_eq_true]
    intro hj
    simpa [hstate] using h.claimed j hj
  have hfree := h.free hstate
  refine Paired.install hnone rfl (fun _ ↦ rfl) ⟨hfree, hhandler, List.mem_cons_self⟩
    (fun hne ↦ absurd hfree hne) (by simp)
    (by simp) ?_
  simpa [oks, hstate] using h.single

theorem Paired.storeData {handler data : ℕ} (hp : w.phases id = .claimed handler data) :
    Paired { w.withPhase id (.paired handler data) with data := data } := by
  have hinstalls : (w.phases id).installs = true := by simp [hp, Phase.installs]
  have hbacked := h.backed id
  rw [hp] at hbacked
  obtain ⟨hnull, hhandler, hgiven⟩ := hbacked
  have hstate := h.claimed id hinstalls
  exact Paired.install (h.others hinstalls) rfl
    (fun _ ↦ hstate) ⟨hnull, hhandler, hgiven, rfl⟩ (fun hne ↦ absurd hnull hne) h.free h.stays h.single

theorem Paired.storeHandler {handler data : ℕ} (hp : w.phases id = .paired handler data) :
    Paired { w.withPhase id (.asking handler data) with handler := handler } := by
  have hinstalls : (w.phases id).installs = true := by simp [hp, Phase.installs]
  have hbacked := h.backed id
  rw [hp] at hbacked
  obtain ⟨_, hhandler, hgiven, hdata⟩ := hbacked
  have hstate := h.claimed id hinstalls
  exact Paired.install (h.others hinstalls) rfl
    (fun _ ↦ hstate) hhandler (fun _ ↦ hdata ▸ hgiven) (by simp [hstate]) (by simp [hstate]) h.single

/-- The port answered an install. -/
theorem Paired.asked (hinstalls : (w.phases id).installs = true) (hp : Backed w phase)
    (hkind : phase = .started ∨ phase = .failing) : Paired (w.withPhase id phase) := by
  have hstate := h.claimed id hinstalls
  refine Paired.install (h.others hinstalls) rfl (fun _ ↦ hstate) ?_ h.pair h.free h.stays h.single
  rcases hkind with rfl | rfl <;> exact hp

theorem Paired.withdraw (hp : w.phases id = .failing) :
    Paired { w.withPhase id .withdrawn with handler := 0 } := by
  have hinstalls : (w.phases id).installs = true := by simp [hp, Phase.installs]
  have hstate := h.claimed id hinstalls
  exact Paired.install (h.others hinstalls) rfl
    (fun _ ↦ hstate) rfl (fun hne ↦ absurd rfl hne) (fun _ ↦ rfl) (by simp [hstate]) h.single

theorem Paired.reset (hp : w.phases id = .withdrawn) :
    Paired { (w.withPhase id .idle).answered .failed with state := .empty } := by
  have hinstalls : (w.phases id).installs = true := by simp [hp, Phase.installs]
  have hbacked := h.backed id
  rw [hp] at hbacked
  have hstate := h.claimed id hinstalls
  have hn := h.single
  refine Paired.install (h.others hinstalls) rfl
    (by simp [Phase.installs]) trivial (fun hne ↦ absurd hbacked hne) (fun _ ↦ hbacked) (by simp) ?_
  simpa [answered, oks, hstate] using hn

theorem Paired.complete (hp : w.phases id = .started) :
    Paired { (w.withPhase id .idle).answered .ok with state := .installed } := by
  have hinstalls : (w.phases id).installs = true := by simp [hp, Phase.installs]
  have hbacked := h.backed id
  rw [hp] at hbacked
  have hstate := h.claimed id hinstalls
  have hn := h.single
  refine Paired.install (h.others hinstalls) rfl (by simp [Phase.installs]) trivial h.pair (by simp)
    (fun _ ↦ hbacked) ?_
  simpa [answered, oks, hstate] using hn

/-- An install is refused at once. -/
theorem Paired.refuse {answer : InstallAnswer} {given : List (ℕ × ℕ)} (hanswer : answer ≠ .ok)
    (hgiven : ∀ pair ∈ w.given, pair ∈ given) : Paired { w.answered answer with given := given } := by
  refine ⟨h.one, h.claimed, fun j ↦ ?_, fun hne ↦ hgiven _ (h.pair hne), h.free, h.stays, ?_⟩
  · have hold := h.backed j
    change Backed _ (w.phases j)
    cases hcase : w.phases j with
    | claimed x v =>
      rw [hcase] at hold
      exact ⟨hold.1, hold.2.1, hgiven _ hold.2.2⟩
    | paired x v =>
      rw [hcase] at hold
      exact ⟨hold.1, hold.2.1, hgiven _ hold.2.2.1, hold.2.2.2⟩
    | _ =>
      rw [hcase] at hold
      exact hold
  · change (answer :: w.answers).count .ok = if w.state = .installed then 1 else 0
    rw [List.count_cons_of_ne hanswer]
    exact h.single

omit h

theorem installs_overtake (kind : ℕ) (phase : Phase) :
    phase.overtake kind = phase ∨ (phase.overtake kind).installs = false := by
  cases phase <;> simp [Phase.overtake, Phase.installs]

theorem installs_disturb (kind : ℕ) (phase : Phase) :
    phase.disturb kind = phase ∨ (phase.disturb kind).installs = false := by
  cases phase <;> simp [Phase.disturb, Phase.installs]

variable {group : Group}

theorem Paired.next {action : Action} (h : Paired w) (hnext : next group action w = some w') :
    Paired w' := by
  cases action with
  | install id handler data =>
    obtain ⟨_, hnext⟩ := ite_none_left_eq_some.mp hnext
    split_ifs at hnext with hnull hstate <;> cases hnext
    · exact h.refuse (by decide) fun _ hpair ↦ hpair
    · exact h.claim hnull hstate
    · exact h.refuse (by decide) fun _ hpair ↦ List.mem_cons_of_mem _ hpair
  | storeData id =>
    simp only [Handlers.next] at hnext
    split at hnext <;> cases hnext
    exact h.storeData ‹_›
  | storeHandler id =>
    simp only [Handlers.next] at hnext
    split at hnext <;> cases hnext
    exact h.storeHandler ‹_›
  | start id ok =>
    simp only [Handlers.next] at hnext
    split at hnext
    · next handler data hp =>
      cases hnext
      have hbacked := h.backed id
      rw [hp] at hbacked
      have hinstalls : (w.phases id).installs = true := by simp [hp, Phase.installs]
      cases ok with
      | true => exact h.asked hinstalls hbacked (.inl rfl)
      | false => exact h.asked hinstalls trivial (.inr rfl)
    · cases hnext
  | withdraw id =>
    simp only [Handlers.next] at hnext
    split at hnext <;> cases hnext
    exact h.withdraw ‹_›
  | reset id =>
    simp only [Handlers.next] at hnext
    split at hnext <;> cases hnext
    exact h.reset ‹_›
  | complete id =>
    simp only [Handlers.next] at hnext
    split at hnext <;> cases hnext
    exact h.complete ‹_›
  | deliver id kind | enable id kind =>
    obtain ⟨_, hnext⟩ := ite_none_left_eq_some.mp hnext
    split_ifs at hnext <;> cases hnext
    · exact h
    · exact h.step rfl fun _ ↦ .inl rfl
  | check id =>
    simp only [Handlers.next] at hnext
    split at hnext <;> cases hnext
    split
    · exact h.step rfl fun _ ↦ .inl rfl
    · exact h.step rfl fun _ ↦ .inl rfl
  | setBit id =>
    simp only [Handlers.next] at hnext
    split at hnext <;> cases hnext
    exact h.step rfl fun _ ↦ installs_overtake _ _
  | enabled id ok =>
    simp only [Handlers.next] at hnext
    split at hnext
    · split_ifs at hnext <;> cases hnext
      · exact h.step rfl fun _ ↦ .inl rfl
      · exact h.step rfl fun _ ↦ .inl rfl
      · exact h.step rfl fun _ ↦ .inl rfl
    · cases hnext
  | disable id kind =>
    obtain ⟨_, hnext⟩ := ite_none_left_eq_some.mp hnext
    split_ifs at hnext <;> cases hnext
    · exact h
    · exact h.step rfl fun _ ↦ installs_disturb _ _
  | call id | retract id | clearBit id | disabled id =>
    simp only [Handlers.next] at hnext
    split at hnext <;> cases hnext
    exact h.step rfl fun _ ↦ .inl rfl

/-! ## The data of every handler -/

/-- No install stores its data while a delivery is between its reads of a handler and of the data. -/
def Action.Unheld : Action → Handlers → Prop
  | .storeData _, w => ∀ id, (w.phases id).held = none
  | _, _ => True

/-- What deliveries hold, and what they called, was given together. -/
structure Delivered (w : Handlers) : Prop where
  held : ∀ id handler, (w.phases id).held = some handler → (handler, w.data) ∈ w.given
  invoked : ∀ pair ∈ w.invoked, pair ∈ w.given

/-- A call that holds no new handler, and others that hold what they did. -/
theorem held_of_update (hheld : phase.held = none ∨ phase.held = (w.phases id).held)
    (hothers : ∀ j, (phases j).held = (w.phases j).held) (j handler : ℕ)
    (hj : (update phases id phase j).held = some handler) : (w.phases j).held = some handler := by
  by_cases hne : j = id
  · subst hne
    rw [update_self] at hj
    rcases hheld with hnone | hsame
    · simp [hnone] at hj
    · rwa [← hsame]
  · rwa [update_of_ne hne, hothers] at hj

/-- A step after which no call holds a new handler. -/
theorem Delivered.step (h : Delivered w) (hdata : w'.data = w.data)
    (hgiven : ∀ pair ∈ w.given, pair ∈ w'.given) (hinvoked : w'.invoked = w.invoked)
    (hphases : ∀ j handler, (w'.phases j).held = some handler → (w.phases j).held = some handler) :
    Delivered w' := by
  refine ⟨fun j handler hj ↦ ?_, fun pair hpair ↦ ?_⟩
  · rw [hdata]
    exact hgiven _ (h.held j handler (hphases j handler hj))
  · rw [hinvoked] at hpair
    exact hgiven pair (h.invoked pair hpair)

theorem Delivered.next {action : Action} (h : Delivered w) (hpaired : Paired w)
    (hunheld : action.Unheld w) (hnext : next group action w = some w') : Delivered w' := by
  have hsame : ∀ pair ∈ w.given, pair ∈ w.given := fun _ hpair ↦ hpair
  cases action with
  | install id handler data =>
    obtain ⟨_, hnext⟩ := ite_none_left_eq_some.mp hnext
    split_ifs at hnext <;> cases hnext
    · exact h.step rfl hsame rfl fun _ _ hheld ↦ hheld
    · exact h.step rfl (fun _ hpair ↦ List.mem_cons_of_mem _ hpair) rfl
        (held_of_update (.inl rfl) fun _ ↦ rfl)
    · exact h.step rfl (fun _ hpair ↦ List.mem_cons_of_mem _ hpair) rfl fun _ _ hheld ↦ hheld
  | storeData id =>
    simp only [Handlers.next] at hnext
    split at hnext
    · next handler data hp =>
      cases hnext
      -- Nobody holds a handler now.
      refine ⟨fun j x hj ↦ ?_, h.invoked⟩
      have hnone := held_of_update (.inl rfl) (fun _ ↦ rfl) j x hj
      simp [hunheld j] at hnone
    · cases hnext
  | start id ok =>
    simp only [Handlers.next] at hnext
    split at hnext <;> cases hnext
    cases ok with
    | true | false => exact h.step rfl hsame rfl (held_of_update (.inl rfl) fun _ ↦ rfl)
  | deliver id kind =>
    obtain ⟨_, hnext⟩ := ite_none_left_eq_some.mp hnext
    split_ifs at hnext with hnull <;> cases hnext
    · exact h
    · refine ⟨fun j x hj ↦ ?_, h.invoked⟩
      by_cases hne : j = id
      · rw [hne, phases_withPhase_self] at hj
        rw [← some.inj hj]
        exact hpaired.pair hnull
      · rw [phases_withPhase_of_ne _ _ _ hne] at hj
        exact h.held j x hj
  | check id =>
    simp only [Handlers.next] at hnext
    split at hnext
    · next handler kind hp =>
      cases hnext
      split
      · exact h.step rfl hsame rfl (held_of_update (.inr (by rw [hp]; rfl)) fun _ ↦ rfl)
      · exact h.step rfl hsame rfl (held_of_update (.inl rfl) fun _ ↦ rfl)
    · cases hnext
  | call id =>
    simp only [Handlers.next] at hnext
    split at hnext
    · next handler hp =>
      cases hnext
      refine ⟨fun j x hj ↦ h.held j x (held_of_update (.inl rfl) (fun _ ↦ rfl) j x hj), fun pair hpair ↦ ?_⟩
      rcases List.mem_cons.mp hpair with rfl | hold
      · exact h.held id handler (by rw [hp]; rfl)
      · exact h.invoked pair hold
    · cases hnext
  | enable id kind =>
    obtain ⟨_, hnext⟩ := ite_none_left_eq_some.mp hnext
    split_ifs at hnext <;> cases hnext
    · exact h
    · exact h.step rfl hsame rfl (held_of_update (.inl rfl) fun _ ↦ rfl)
  | setBit id =>
    simp only [Handlers.next] at hnext
    split at hnext <;> cases hnext
    exact h.step rfl hsame rfl (held_of_update (.inl rfl) fun j ↦ by cases w.phases j <;> rfl)
  | enabled id ok =>
    simp only [Handlers.next] at hnext
    split at hnext
    · split_ifs at hnext <;> cases hnext
      · exact h.step rfl hsame rfl (held_of_update (.inl rfl) fun _ ↦ rfl)
      · exact h.step rfl hsame rfl (held_of_update (.inl rfl) fun _ ↦ rfl)
      · exact h.step rfl hsame rfl (held_of_update (.inl rfl) fun _ ↦ rfl)
    · cases hnext
  | disable id kind =>
    obtain ⟨_, hnext⟩ := ite_none_left_eq_some.mp hnext
    split_ifs at hnext <;> cases hnext
    · exact h
    · exact h.step rfl hsame rfl (held_of_update (.inl rfl) fun j ↦ by cases w.phases j <;> rfl)
  | storeHandler id | withdraw id | reset id | complete id | retract id | clearBit id | disabled id =>
    simp only [Handlers.next] at hnext
    split at hnext <;> cases hnext
    exact h.step rfl hsame rfl (held_of_update (.inl rfl) fun _ ↦ rfl)

theorem paired_of_reachable {allowed : Action → Handlers → Prop}
    (hreach : ((machine group).system allowed).Reachable w) : Paired w :=
  Machine.invariant paired_initial (fun _ _ _ _ h hnext ↦ h.next hnext) hreach

def Sound (w : Handlers) : Prop := Paired w ∧ Delivered w

theorem delivered_of_reachable (hreach : ((machine group).system Action.Unheld).Reachable w) :
    Delivered w := by
  have hstart : Delivered initial :=
    ⟨fun _ _ h ↦ by simp [initial, Phase.held] at h, fun _ h ↦ by simp [initial] at h⟩
  have hboth : Sound w :=
    Machine.invariant ⟨paired_initial, hstart⟩
      (fun _ _ _ hunheld h hnext ↦ ⟨h.1.next hnext, h.2.next h.1 hunheld hnext⟩) hreach
  exact hboth.2

/-- Where no install stores its data beside a delivery that holds a handler: at most one
install returns OK, every install after it answers BUSY, and a handler is called with the data
it was given with. -/
theorem data_of_unheld {group : Group}
    (hreach : ((machine group).system Action.Unheld).Reachable w) : w.oks ≤ 1 ∧
    (.ok ∈ w.answers → ∀ id handler data, w.phases id = .idle → handler ≠ 0 →
      next group (.install id handler data) w =
        some { w.answered .busy with given := (handler, data) :: w.given }) ∧
    ∀ pair ∈ w.invoked, pair ∈ w.given := by
  have hsingle := (paired_of_reachable hreach).single
  refine ⟨?_, fun hok id handler data hidle hhandler ↦ ?_, (delivered_of_reachable hreach).invoked⟩
  · rw [hsingle]
    split <;> simp
  · have hinstalled : w.state = .installed := by
      by_contra hstate
      rw [oks, if_neg hstate, List.count_eq_zero] at hsingle
      exact hsingle hok
    simp only [next, hidle, hinstalled, hhandler]
    rfl

/-- An install returns OK, and a fault is delivered. -/
theorem data_of_unheld_oneFault :
    ∃ w, ((machine .faults).system Action.Unheld).Reachable w ∧ w.invoked = [(1, 10)] ∧
      ∀ pair ∈ w.invoked, pair ∈ w.given := by
  have hclaimed : ((machine .faults).system Action.Unheld).Reachable
      { initial.withPhase 0 (.claimed 1 10) with state := .installing, given := [(1, 10)] } :=
    (System.Reachable.of_start rfl).of_step ⟨.install 0 1 10, trivial, rfl⟩
  have hstored := hclaimed.of_step ⟨.storeData 0, fun id ↦ by
    by_cases hid : id = 0
    · rw [hid]
      rfl
    · simp [withPhase, initial, hid, Phase.held], rfl⟩
  have hfree : ∀ action ∈
    ([.storeHandler 0, .start 0 true, .complete 0, .deliver 1 1, .check 1, .call 1] : List Action),
      ∀ state, action.Unheld state := by
    simp [Action.Unheld]
  have hrun := Machine.Reachable.of_free hstored hfree rfl
  exact ⟨_, hrun, rfl, (data_of_unheld hrun).2.2⟩

/-- A first install fails while a delivery is about to look at its handler, and a
second one follows. -/
def staleHandler : List Action :=
  [.install 0 1 10, .storeData 0, .storeHandler 0, .deliver 1 1, .start 0 false, .withdraw 0, .reset 0,
    .install 0 2 20, .storeData 0, .storeHandler 0, .start 0 true, .complete 0]

theorem foreign_data : (∃ w, (machine .faults).run (staleHandler ++ [.check 1, .call 1]) initial = some w ∧
      (1, 20) ∈ w.invoked ∧ (1, 20) ∉ w.given) ∧
    ∃ w, (machine .notifications).run
      (staleHandler ++ [.enable 2 1, .setBit 2, .enabled 2 true, .check 1, .call 1]) initial = some w ∧
      (1, 20) ∈ w.invoked ∧ (1, 20) ∉ w.given :=
  ⟨⟨_, rfl, by decide, by decide⟩, ⟨_, rfl, by decide, by decide⟩⟩

end Handlers

end DotnetPal.Boundary
