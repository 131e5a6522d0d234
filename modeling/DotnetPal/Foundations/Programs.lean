import Mathlib.Algebra.Order.Ring.Nat
import Mathlib.Logic.Relation

/-!
# Fallible programs over a state, and runs of a system

`EStateM ε σ α` is a program that may fail and that keeps what it changed before it failed, which is
how an early return leaves a structure behind a lock. The rules below take such a program apart at
its first bind; `after` is the state a program leaves, whichever way it ends. Two judgements describe
whole programs: `Returns` says that a program returns with a postcondition, `Atomic` that it does so
or refuses with the state untouched. `Yields` is the judgement of a computation that has no state.

A `System` is a set of starting states and a step relation. `System.invariant` is the one induction
over runs that every safety result of the development goes through.
-/

namespace DotnetPal.Programs

variable {ε σ α β : Type}

/-- A computation that only looks at the state. -/
def reading (look : σ → Except ε α) : EStateM ε σ α := fun s ↦
  match look s with
  | .ok value => .ok value s
  | .error fault => .error fault s

/-- Fails when the condition holds. -/
def refuseIf (condition : Prop) [Decidable condition] (fault : ε) : EStateM ε σ Unit :=
  if condition then throw fault else pure ()

/-- The state a program leaves, whether it returns or fails. -/
def after (program : EStateM ε σ α) (s : σ) : σ :=
  match program s with
  | .ok _ s' => s'
  | .error _ s' => s'

variable {p : EStateM ε σ α} {v : α} {s : σ}

variable {s' : σ}

theorem after_of_ok (h : p s = .ok v s') : after p s = s' := by
  simp [after, h]

variable {fault : ε}

theorem after_of_error (h : p s = .error fault s') : after p s = s' := by
  simp [after, h]

variable {rest : α → EStateM ε σ β}

theorem bind_of_ok {middle : σ} (h : p s = .ok v middle) : (p >>= rest) s = rest v middle := by
  change EStateM.bind p rest s = _
  simp [EStateM.bind, h]

theorem bind_of_error {middle : σ} (h : p s = .error fault middle) :
    (p >>= rest) s = .error fault middle := by
  change EStateM.bind p rest s = _
  simp [EStateM.bind, h]

/-- A sequence returns exactly when both of its parts do. -/
theorem bind_eq_ok_iff {v : β} : (p >>= rest) s = .ok v s' ↔
      ∃ a middle, p s = .ok a middle ∧ rest a middle = .ok v s' := by
  cases h : p s with
  | ok a middle => simp [bind_of_ok h, and_assoc]
  | error fault middle => simp [bind_of_error h]

variable {f : α → β}

theorem map_of_ok (h : p s = .ok v s') : (f <$> p) s = .ok (f v) s' := by
  change EStateM.map f p s = _
  rw [EStateM.map, h]

theorem map_of_error (h : p s = .error fault s') : (f <$> p) s = .error fault s' := by
  change EStateM.map f p s = _
  rw [EStateM.map, h]

theorem map_eq_ok_iff {v : β} :
    (f <$> p) s = .ok v s' ↔ ∃ a, p s = .ok a s' ∧ f a = v := by
  cases h : p s with
  | ok a middle => simp [map_of_ok h, and_comm]
  | error fault middle => simp [map_of_error h]

@[simp]
theorem pure_apply (v : α) (s : σ) : (pure v : EStateM ε σ α) s = .ok v s := rfl

@[simp]
theorem throw_apply (fault : ε) (s : σ) : (throw fault : EStateM ε σ α) s = .error fault s := rfl

@[simp]
theorem modify_apply (change : σ → σ) (s : σ) :
    (modify change : EStateM ε σ Unit) s = .ok () (change s) := rfl

variable {look : σ → Except ε α}

theorem reading_of_ok (h : look s = .ok v) : reading look s = .ok v s := by
  simp [reading, h]

theorem reading_of_error (h : look s = .error fault) : reading look s = .error fault s := by
  simp [reading, h]

theorem reading_eq_ok_iff : reading look s = .ok v s' ↔ look s = .ok v ∧ s' = s := by
  cases h : look s <;> simp [reading, h, eq_comm]

variable {condition : Prop}

theorem refuseIf_eq_ok_iff [Decidable condition] :
    (refuseIf condition fault : EStateM ε σ Unit) s = .ok () s' ↔
      ¬condition ∧ s' = s := by
  by_cases h : condition <;> simp [refuseIf, h, eq_comm]

theorem refuseIf_eq_error_iff [Decidable condition] {j : ε} :
    (refuseIf condition fault : EStateM ε σ Unit) s = .error j s' ↔ condition ∧ j = fault ∧ s' = s := by
  by_cases h : condition <;> simp [refuseIf, h, eq_comm]

/-- Applies a change when the condition holds. -/
def applyIf (condition : Prop) [Decidable condition] (change : σ → σ) (s : σ) : σ :=
  if condition then change s else s

/-! ## Programs that return, and programs that refuse without a trace -/

/-- The program returns, and what it returns and leaves satisfies `post`. -/
def Returns (program : EStateM ε σ α) (s : σ) (post : α → σ → Prop) : Prop :=
  ∃ value s', program s = .ok value s' ∧ post value s'

/-- The program returns with `post`, or fails with a refusal and leaves the state as it was. -/
def Atomic (refusal : ε → Prop) (program : EStateM ε σ α) (s : σ) (post : α → σ → Prop) : Prop :=
  (∃ fault, refusal fault ∧ program s = .error fault s) ∨ Returns program s post

/-- The computation gives a value that satisfies `post`, or fails with a refusal. -/
structure Yields (refusal : ε → Prop) (result : Except ε α) (post : α → Prop) : Prop where
  of_ok : ∀ {value}, result = .ok value → post value
  of_error : ∀ {fault}, result = .error fault → refusal fault

variable {result : Except ε α}

section Judgements

variable {refusal : ε → Prop} {s : σ}

theorem Returns.imp {post weaker : α → σ → Prop}
    (h : Returns p s post) (himp : ∀ v s', post v s' → weaker v s') :
    Returns p s weaker := by
  obtain ⟨v, s', hrun, hpost⟩ := h
  exact ⟨v, s', hrun, himp v s' hpost⟩

variable {post : β → σ → Prop}

theorem Returns.bind (h : Returns p s fun v middle ↦ Returns (rest v) middle post) :
    Returns (p >>= rest) s post := by
  obtain ⟨v, middle, hrun, hrest⟩ := h
  unfold Returns
  rw [bind_of_ok hrun]
  exact hrest

theorem Returns.pure {post : α → σ → Prop} (h : post v s) : Returns (pure v : EStateM ε σ α) s post :=
  ⟨v, s, rfl, h⟩

theorem Returns.modify {change : σ → σ} {post : Unit → σ → Prop} (h : post () (change s)) :
    Returns (modify change : EStateM ε σ Unit) s post :=
  ⟨(), change s, rfl, h⟩

theorem Returns.reading {post : α → σ → Prop}
    (hlook : look s = .ok v) (h : post v s) : Returns (reading look) s post :=
  ⟨v, s, reading_of_ok hlook, h⟩

theorem Atomic.imp {post weaker : α → σ → Prop} (h : Atomic refusal p s post)
    (himp : ∀ v s', post v s' → weaker v s') :
    Atomic refusal p s weaker :=
  h.imp_right fun hreturns ↦ hreturns.imp himp

theorem Atomic.of_ok {post : α → σ → Prop}
    (hrun : p s = .ok v s') (h : post v s') : Atomic refusal p s post :=
  .inr ⟨v, s', hrun, h⟩

theorem Atomic.map (h : Atomic refusal p s fun v s' ↦ post (f v) s') :
    Atomic refusal (f <$> p) s post := by
  have hmap : (f <$> p) s = (p >>= fun v ↦ Pure.pure (f v)) s := by
    change EStateM.map f p s = EStateM.bind p _ s
    simp only [EStateM.map, EStateM.bind]
    cases p s <;> rfl
  unfold Atomic Returns
  rw [hmap]
  rcases h with ⟨fault, hrefusal, hrun⟩ | ⟨v, s', hrun, hpost⟩
  · exact .inl ⟨fault, hrefusal, bind_of_error hrun⟩
  · exact .inr ⟨f v, s', by rw [bind_of_ok hrun]; rfl, hpost⟩

/-- A look that may refuse. -/
theorem Atomic.reading {post : α → σ → Prop} (h : Yields refusal (look s) fun v ↦ post v s) :
    Atomic refusal (Programs.reading look) s post := by
  cases hv : look s with
  | error fault => exact .inl ⟨fault, h.of_error hv, reading_of_error hv⟩
  | ok v => exact .of_ok (reading_of_ok hv) (h.of_ok hv)

/-- After a part that refuses without a trace comes one that returns. -/
theorem Atomic.bind_returns (h : Atomic refusal p s fun v middle ↦ Returns (rest v) middle post) :
    Atomic refusal (p >>= rest) s post := by
  rcases h with ⟨fault, hrefusal, hrun⟩ | hreturns
  · exact .inl ⟨fault, hrefusal, bind_of_error hrun⟩
  · exact .inr hreturns.bind

theorem Atomic.bind_ok (hrun : p s = .ok v s) (h : Atomic refusal (rest v) s post) :
    Atomic refusal (p >>= rest) s post := by
  unfold Atomic Returns
  rw [bind_of_ok hrun]
  exact h

/-- After a part that leaves the state alone comes one that refuses without a trace. -/
theorem Atomic.bind_reading {x : α → Prop} (hlook : Yields refusal (look s) x)
    (h : ∀ v, x v → Atomic refusal (rest v) s post) :
    Atomic refusal (Programs.reading look >>= rest) s post := by
  cases hv : look s with
  | error fault => exact .inl ⟨fault, hlook.of_error hv, bind_of_error (reading_of_error hv)⟩
  | ok v => exact .bind_ok (reading_of_ok hv) (h v (hlook.of_ok hv))

theorem Atomic.bind_refuseIf [Decidable condition] {rest : Unit → EStateM ε σ β} (hfault : refusal fault)
    (h : ¬condition → Atomic refusal (rest ()) s post) :
    Atomic refusal (refuseIf condition fault >>= rest) s post := by
  by_cases hcondition : condition
  · exact .inl ⟨fault, hfault, bind_of_error (refuseIf_eq_error_iff.mpr ⟨hcondition, rfl, rfl⟩)⟩
  · exact .bind_ok (refuseIf_eq_ok_iff.mpr ⟨hcondition, rfl⟩) (h hcondition)

theorem Yields.ok {post : α → Prop} (h : post v) : Yields refusal (.ok v) post :=
  ⟨by rintro _ ⟨⟩; exact h, by rintro _ ⟨⟩⟩

theorem Yields.error {post : α → Prop} (h : refusal fault) : Yields refusal (.error fault) post :=
  ⟨by rintro _ ⟨⟩, by rintro _ ⟨⟩; exact h⟩

theorem Yields.imp {post weaker : α → Prop} (h : Yields refusal result post)
    (himp : ∀ v, post v → weaker v) : Yields refusal result weaker :=
  ⟨fun hv ↦ himp _ (h.of_ok hv), h.of_error⟩

theorem Yields.with_eq {post : α → Prop} (h : Yields refusal result post) :
    Yields refusal result fun v ↦ result = .ok v ∧ post v :=
  ⟨fun hv ↦ ⟨hv, h.of_ok hv⟩, h.of_error⟩

theorem Yields.weaken {weaker : ε → Prop} {post : α → Prop} (h : Yields refusal result post)
    (himp : ∀ fault, refusal fault → weaker fault) : Yields weaker result post :=
  ⟨h.of_ok, fun hfault ↦ himp _ (h.of_error hfault)⟩

theorem Yields.bind {rest : α → Except ε β} {x : α → Prop} {post : β → Prop}
    (hresult : Yields refusal result x) (hrest : ∀ v, x v → Yields refusal (rest v) post) :
    Yields refusal (result >>= rest) post := by
  cases hv : result with
  | error fault => exact .error (hresult.of_error hv)
  | ok v => exact hrest v (hresult.of_ok hv)

theorem Yields.map {post : β → Prop}
    (hresult : Yields refusal result fun v ↦ post (f v)) : Yields refusal (f <$> result) post := by
  cases hv : result with
  | error fault => exact .error (hresult.of_error hv)
  | ok v => exact .ok (hresult.of_ok hv)

theorem Yields.foldlM {γ : Type} {f : β → γ → Except ε β} {kept : β → Prop}
    (h : ∀ acc item, kept acc → Yields refusal (f acc item) kept) (items : List γ) {start : β}
    (hstart : kept start) :
    Yields refusal (items.foldlM f start) kept := by
  induction items generalizing start with
  | nil => exact .ok hstart
  | cons item items ih =>
    rw [List.foldlM_cons]
    exact (h start item hstart).bind fun _ ↦ ih

end Judgements

/-- A pure sequence returns exactly when both of its parts do. -/
theorem except_bind_eq_ok_iff {rest : α → Except ε β} {v : β} :
    (result >>= rest) = .ok v ↔ ∃ a, result = .ok a ∧ rest a = .ok v := by
  cases result <;> simp [bind, Except.bind]

/-! ## Runs -/

/-- Starting states and steps. -/
structure System (σ : Type) where
  start : σ → Prop
  step : σ → σ → Prop

namespace System

variable (system : System σ)

/-- The states some finite run from a starting state ends in. -/
def Reachable (s : σ) : Prop :=
  ∃ first, system.start first ∧ Relation.ReflTransGen system.step first s

variable {system}

theorem Reachable.of_start (h : system.start s) : system.Reachable s :=
  ⟨s, h, .refl⟩

theorem Reachable.of_step (h : system.Reachable s) (hstep : system.step s s') : system.Reachable s' := by
  obtain ⟨a, ha, hrun⟩ := h
  exact ⟨a, ha, hrun.tail hstep⟩

theorem Reachable.of_run (h : system.Reachable s)
    (hrun : Relation.ReflTransGen system.step s s') : system.Reachable s' := by
  obtain ⟨a, ha, hold⟩ := h
  exact ⟨a, ha, hold.trans hrun⟩

/-- What holds at the start and is kept by every step of a run holds in every reachable state. -/
theorem invariant {property : σ → Prop} (hstart : ∀ s, system.start s → property s)
    (hstep : ∀ s s', property s → system.step s s' → property s') (h : system.Reachable s) :
    property s := by
  obtain ⟨a, ha, hrun⟩ := h
  induction hrun with
  | refl => exact hstart a ha
  | tail _ hlast ih => exact hstep _ _ ih hlast

end System

end DotnetPal.Programs
