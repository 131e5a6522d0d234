import Mathlib.Data.List.Perm.Subperm
import Mathlib.Data.List.Nodup
import Mathlib.Logic.Function.Basic

/-!
# Hierarchies given by a parent function

A hierarchy is a partial parent function with a distinguished root. `Climbs` says that following
parents from an element ends at the root, which excludes cycles and detached parts at once. The
three ways a hierarchy changes (a new leaf, a removed leaf, an element moved below another one)
keep every climb, the last under the condition that the new parent does not lie below the moved
element. A climb is no longer than any list that is closed under parents, which bounds the loops
that walk upwards.
-/

namespace DotnetPal.Hierarchy

variable {α : Type}

/-- Following parents from the element ends at the root after finitely many steps. -/
inductive Climbs (parent : α → Option α) (root : α) : α → Prop
  | root : Climbs parent root root
  | step {element above : α} : parent element = some above → Climbs parent root above →
      Climbs parent root element

/-- A climb to the root that does not pass through `barred` on its way. -/
inductive Avoids (parent : α → Option α) (root barred : α) : α → Prop
  | root : Avoids parent root barred root
  | step {element above : α} : element ≠ root → element ≠ barred → parent element = some above →
      Avoids parent root barred above → Avoids parent root barred element

variable {p next : α → Option α} {root : α}

variable {x : α}

variable (h : Climbs p root x)
include h

/-- A climb survives wherever the parents it uses do. -/
theorem Climbs.mono
    (hkeep : ∀ lower above, lower ≠ root → p lower = some above → next lower = some above) :
    Climbs next root x := by
  induction h with
  | root => exact .root
  | @step lower above hparent _ ih =>
    by_cases hroot : lower = root
    · rw [hroot]
      exact .root
    · exact .step (hkeep lower above hroot hparent) ih

omit h in
/-- A climb that avoids an element uses no parent of it. -/
theorem Avoids.climbs {barred : α} (h : Avoids p root barred x)
    (hkeep : ∀ lower above, lower ≠ barred → p lower = some above → next lower = some above) :
    Climbs next root x := by
  induction h with
  | root => exact .root
  | step _ hbarred hparent _ ih => exact .step (hkeep _ _ hbarred hparent) ih

/-- Moving `moved` below `target` keeps every climb if the climb from `target` avoids `moved`. -/
theorem Climbs.reparent {moved target : α}
    (htarget : Avoids p root moved target) (hmoved : next moved = some target)
    (hkeep : ∀ lower above, lower ≠ moved → p lower = some above → next lower = some above) :
    Climbs next root x := by
  induction h with
  | root => exact .root
  | @step lower above hparent _ ih =>
    by_cases hlower : lower = moved
    · rw [hlower]
      exact .step hmoved (htarget.climbs hkeep)
    · exact .step (hkeep lower above hlower hparent) ih

/-- Removing an element that is nobody's parent keeps the climbs of all others. -/
theorem Climbs.prune {removed : α}
    (hleaf : ∀ lower, lower ≠ removed → p lower ≠ some removed) (helement : x ≠ removed)
    (hkeep : ∀ lower, lower ≠ removed → next lower = p lower) :
    Climbs next root x := by
  induction h with
  | root => exact .root
  | @step lower above hparent _ ih =>
    have habove : above ≠ removed := by
      rintro rfl
      exact hleaf lower helement hparent
    exact .step (by rw [hkeep lower helement, hparent]) (ih habove)

omit h

/-! ## The length of a climb -/

/-- The root is reached for the first time after exactly this many steps. -/
inductive ClimbsIn (parent : α → Option α) (root : α) : ℕ → α → Prop
  | root : ClimbsIn parent root 0 root
  | step {element above : α} {count : ℕ} : element ≠ root → parent element = some above →
      ClimbsIn parent root count above → ClimbsIn parent root (count + 1) element

theorem Climbs.exists_count (h : Climbs p root x) : ∃ n, ClimbsIn p root n x := by
  induction h with
  | root => exact ⟨0, .root⟩
  | @step lower above hparent _ ih =>
    obtain ⟨n, hn⟩ := ih
    by_cases hroot : lower = root
    · rw [hroot]
      exact ⟨0, .root⟩
    · exact ⟨n + 1, .step hroot hparent hn⟩

theorem ClimbsIn.unique {a b : ℕ} (ha : ClimbsIn p root a x)
    (hb : ClimbsIn p root b x) : a = b := by
  induction ha generalizing b with
  | root =>
    cases hb with
    | root => rfl
    | step hroot _ _ => exact absurd rfl hroot
  | step hroot hparent _ ih =>
    cases hb with
    | root => exact absurd rfl hroot
    | step _ hj hrest =>
      rw [hparent, Option.some.injEq] at hj
      subst hj
      rw [ih hrest]

/-- A climb does not pass through what is farther from the root than where it begins. -/
theorem ClimbsIn.avoids {barred : α} {n distance : ℕ} (h : ClimbsIn p root n x)
    (hbarred : ClimbsIn p root distance barred) (hless : n < distance) : Avoids p root barred x := by
  induction h with
  | root => exact .root
  | @step lower above n hroot hparent hrest ih =>
    refine .step hroot ?_ hparent (ih (by omega))
    rintro rfl
    have hequal := hbarred.unique (.step hroot hparent hrest)
    omega

/-- The elements of a climb are pairwise distinct, because each has its own distance to the root. -/
theorem ClimbsIn.exists_path {n : ℕ} (h : ClimbsIn p root n x)
    {members : List α} (helement : x ∈ members)
    (hclosed : ∀ lower above, lower ∈ members → p lower = some above → above ∈ members) :
    ∃ path : List α, path.length = n + 1 ∧ path.Nodup ∧ path ⊆ members ∧
      ∀ visited ∈ path, ∃ distance ≤ n, ClimbsIn p root distance visited := by
  induction h with
  | root => exact ⟨[root], by simp, by simp, by simpa using helement, by simpa using ClimbsIn.root⟩
  | @step lower above n hroot hparent hrest ih =>
    obtain ⟨path, hlen, hnodup, hsubset, hdistance⟩ := ih (hclosed _ _ helement hparent)
    have hnew : lower ∉ path := by
      intro hmem
      obtain ⟨distance, hle, hclimb⟩ := hdistance lower hmem
      have hequal := hclimb.unique (.step hroot hparent hrest)
      omega
    refine ⟨lower :: path, by simp [hlen], List.nodup_cons.mpr ⟨hnew, hnodup⟩,
      List.cons_subset.mpr ⟨helement, hsubset⟩, ?_⟩
    intro visited hvisited
    rcases List.mem_cons.mp hvisited with rfl | hvisited
    · exact ⟨n + 1, Nat.le_refl _, .step hroot hparent hrest⟩
    · obtain ⟨distance, hle, hclimb⟩ := hdistance visited hvisited
      exact ⟨distance, by omega, hclimb⟩

/-- A climb is shorter than any list of elements that is closed under parents. -/
theorem ClimbsIn.lt_length {n : ℕ} (h : ClimbsIn p root n x)
    {members : List α} (helement : x ∈ members)
    (hclosed : ∀ lower above, lower ∈ members → p lower = some above → above ∈ members) :
    n < members.length := by
  obtain ⟨path, hlen, hnodup, hsubset, _⟩ := h.exists_path helement hclosed
  have hle := (hnodup.subperm hsubset).length_le
  omega

end DotnetPal.Hierarchy
