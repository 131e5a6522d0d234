import DotnetPal.Foundations.Programs

/-!
# Machines that take actions

A machine has one starting state and says, for each action, whether a state can take it and what it
leaves. Actions are what the parties of a concurrent program do between two points where another may
come in, so a run of the machine is an interleaving. `Machine.system` runs it under a condition on
the actions taken; `Machine.run` takes a given list of them.
-/

namespace DotnetPal.Programs

structure Machine (σ α : Type) where
  start : σ
  next : α → σ → Option σ

namespace Machine

variable {σ α : Type} (machine : Machine σ α)

/-- The runs whose actions are all allowed in the state that takes them. -/
def system (allowed : α → σ → Prop) : System σ where
  start s := s = machine.start
  step s s' := ∃ action, allowed action s ∧ machine.next action s = some s'

/-- All runs. -/
def runs : System σ := machine.system fun _ _ ↦ True

/-- The state a list of actions leads to. -/
def run (actions : List α) (s : σ) : Option σ := actions.foldlM (fun s action ↦ machine.next action s) s

variable {machine} {allowed : α → σ → Prop}

variable {actions : List α}

/-- Actions that every state allows keep a run allowed. -/
theorem Reachable.of_free {s s' : σ} (h : (machine.system allowed).Reachable s)
    (hfree : ∀ action ∈ actions, ∀ s, allowed action s) (hrun : machine.run actions s = some s') :
    (machine.system allowed).Reachable s' := by
  induction actions generalizing s with
  | nil => rwa [← Option.some.inj hrun]
  | cons action rest ih =>
    simp only [run, List.foldlM_cons, Option.bind_eq_bind, Option.bind_eq_some_iff] at hrun
    obtain ⟨middle, hnext, hrest⟩ := hrun
    exact ih (h.of_step ⟨action, hfree action List.mem_cons_self s, hnext⟩)
      (fun j hj ↦ hfree j (List.mem_cons_of_mem _ hj)) hrest

theorem Reachable.of_list {s s' : σ} (h : machine.runs.Reachable s)
    (hrun : machine.run actions s = some s') : machine.runs.Reachable s' :=
  Reachable.of_free h (fun _ _ _ ↦ trivial) hrun

/-- What a list of actions leads to from the start is reachable. -/
theorem reachable_of_run {s' : σ} (hrun : machine.run actions machine.start = some s') :
    machine.runs.Reachable s' :=
  Reachable.of_list (.of_start rfl) hrun

/-- A property of the start that every allowed action keeps holds in every state of the
allowed runs. -/
theorem invariant {property : σ → Prop} (hstart : property machine.start)
    (hnext : ∀ action s s', allowed action s → property s → machine.next action s = some s' → property s')
    {s : σ} (h : (machine.system allowed).Reachable s) : property s := by
  refine System.invariant (fun a ha ↦ ?_) (fun old s' hold hstep ↦ ?_) h
  · rwa [show a = machine.start from ha]
  · obtain ⟨action, hallowed, hfinal⟩ := hstep
    exact hnext action old s' hallowed hold hfinal

end Machine

end DotnetPal.Programs
