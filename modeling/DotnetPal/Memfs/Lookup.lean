import Mathlib.Data.List.TakeWhile
import DotnetPal.Memfs.CoreFiles

/-!
# Lookups and walks in a sound state

What the lookups of the code find, in the terms of the core. A walk in a sound state ends with a
place that is what it says, or with a refusal: it does not run out of its bound and does not overrun
its texts. The two loops that climb to the root end as well.
-/

open Std List

namespace DotnetPal.Memfs

open Programs Hierarchy DirectoryTree

attribute [local instance] lexOrd

namespace State

variable {s : State} {id : ℕ}

/-! ## Lookups in the terms of the core -/

theorem get_core (id : ℕ) : s.core.nodes[id]? = s.nodes[id]?.map Node.kept := by
  simp [core]

theorem parent?_core (id : ℕ) :
    s.core.parent? id = s.nodes[id]?.bind fun node ↦ node.body.directory?.map Prod.fst := by
  simp only [Core.parent?, parentOf, Core.get_shapes, get_core]
  cases s.nodes[id]? <;> rfl

theorem child?_core (id : ℕ) (name : Bytes) : s.core.child? id name =
      s.nodes[id]?.bind fun node ↦ node.body.directory?.bind fun x ↦ x.2[name]? := by
  simp only [Core.child?, entryOf, Core.get_shapes, get_core]
  cases s.nodes[id]? <;> rfl

theorem content?_core (id : ℕ) : s.core.content? id = s.nodes[id]?.bind fun node ↦ node.body.content? := by
  simp only [Core.content?, Core.get_files, get_core]
  cases s.nodes[id]? <;> rfl

theorem node_eq_ok_iff {node : Node} : s.node id = .ok node ↔ s.nodes[id]? = some node :=
  Result.required_eq_ok_iff

theorem node_yields (id : ℕ) : (s.node id).Yields (s.nodes[id]? = some ·) :=
  Result.required_yields _ _

theorem kind_yields (id : ℕ) :
    (s.kind id).Yields fun kind ↦ ∃ node, s.nodes[id]? = some node ∧ node.body.kind = kind :=
  (node_yields id).bind fun node hnode ↦ .ok ⟨node, hnode, rfl⟩

theorem isDirectory_of_node {node : Node} (h : s.nodes[id]? = some node) :
    s.isDirectory id = .ok (s.core.parent? id).isSome := by
  simp only [isDirectory, State.kind, node_eq_ok_iff.mpr h, parent?_core, h]
  cases hbody : node.body <;> simp [Body.kind, Body.directory?, hbody, bind, Except.bind, pure, Except.pure]

theorem isDirectory_yields (id : ℕ) : (s.isDirectory id).Yields fun dir ↦
      ∃ node, s.nodes[id]? = some node ∧ dir = (s.core.parent? id).isSome := by
  cases hnode : s.nodes[id]? with
  | some node => exact isDirectory_of_node hnode ▸ .ok ⟨node, rfl, rfl⟩
  | none =>
    simp only [isDirectory, State.kind, State.node, hnode]
    exact .refused

/-- The entries the code finds in a directory are the entries the core has. -/
theorem entries_yields (id : ℕ) : (s.entries id).Yields fun entries ↦
      (s.core.parent? id).isSome ∧ ∀ name, s.core.child? id name = entries[name]? := by
  refine (node_yields id).bind fun node hnode ↦ ?_
  cases hbody : node.body with
  | directory parent entries =>
    exact .ok (by simp [parent?_core, child?_core, hnode, hbody, Body.directory?])
  | file | link => exact .refused

theorem parent_eq_ok_iff {parent : ℕ} : s.parent id = .ok parent ↔ s.core.parent? id = some parent := by
  simp only [State.parent, except_bind_eq_ok_iff, node_eq_ok_iff, parent?_core]
  cases hnode : s.nodes[id]? with
  | none => simp
  | some node => cases hbody : node.body <;> simp [Body.directory?, hbody, pure, Except.pure]

theorem content_eq_ok_iff {c : Content} : s.content id = .ok c ↔ s.core.content? id = some c := by
  simp only [State.content, except_bind_eq_ok_iff, node_eq_ok_iff, content?_core]
  cases hnode : s.nodes[id]? with
  | none => simp
  | some node => cases hbody : node.body <;> simp [Body.content?, hbody, pure, Except.pure]

theorem child?_of_entries {entries : Entries} (h : s.entries id = .ok entries) (name : Bytes) :
    s.core.child? id name = entries[name]? :=
  ((entries_yields id).of_ok h).2 name

theorem exists_entries (h : (s.core.parent? id).isSome) : ∃ entries, s.entries id = .ok entries := by
  rw [parent?_core] at h
  cases hnode : s.nodes[id]? with
  | none => simp [hnode] at h
  | some node =>
    cases hbody : node.body with
    | directory parent entries =>
      exact ⟨entries,
        by simp [State.entries, node_eq_ok_iff.mpr hnode, hbody, bind, Except.bind, pure, Except.pure]⟩
    | file | link => simp [hnode, hbody, Body.directory?] at h

theorem exists_node_of_core {kept : Kept} (h : s.core.nodes[id]? = some kept) :
    ∃ node, s.nodes[id]? = some node ∧ node.kept = kept := by
  rw [get_core] at h
  exact Option.map_eq_some_iff.mp h

theorem exists_node_of_parent? (h : (s.core.parent? id).isSome) : ∃ node, s.nodes[id]? = some node := by
  rw [parent?_core] at h
  cases hnode : s.nodes[id]? with
  | none => simp [hnode] at h
  | some node => exact ⟨node, rfl⟩

theorem parent_yields (id : ℕ) : (s.parent id).Yields (s.core.parent? id = some ·) := by
  refine (node_yields id).bind fun node hnode ↦ ?_
  cases hbody : node.body with
  | directory parent entries => exact .ok (by simp [parent?_core, hnode, hbody, Body.directory?])
  | file | link => exact .refused

theorem content_yields (id : ℕ) : (s.content id).Yields (s.core.content? id = some ·) := by
  refine (node_yields id).bind fun node hnode ↦ ?_
  cases hbody : node.body with
  | file c => exact .ok (by simp [content?_core, hnode, hbody, Body.content?])
  | directory | link => exact .refused

end State

/-! ## Components of a path -/

namespace Pending

/-- A component is not empty and holds no slash, and it comes off the texts. -/
theorem nextOf_some {texts : List Bytes} {seen : Bool} {component : Bytes} {rest : List Bytes} {new : Bool}
    (h : nextOf texts seen = (some component, rest, new)) :
    component ≠ [] ∧ Memfs.slash ∉ component ∧ rest.length ≤ texts.length ∧
      (rest.map length).sum < (texts.map length).sum := by
  induction texts generalizing seen with
  | nil => simp [nextOf] at h
  | cons text texts ih =>
    simp only [nextOf] at h
    split at h
    · obtain ⟨hne, hslash, hdepth, hless⟩ := ih h
      refine ⟨hne, hslash, Nat.le_succ_of_le hdepth, ?_⟩
      simp only [map_cons, sum_cons]
      omega
    · rename_i hrest
      simp only [Prod.mk.injEq, Option.some.injEq] at h
      obtain ⟨rfl, rfl, _⟩ := h
      have hne : text.dropWhile (· == Memfs.slash) ≠ [] := fun hnil ↦ hrest (by rw [hnil]; rfl)
      obtain ⟨a, tail, hcons⟩ := exists_cons_of_ne_nil hne
      have ha : (a != Memfs.slash) = true := by
        have hhead := head?_dropWhile_not (· == Memfs.slash) text
        rw [hcons] at hhead
        simpa [bne, Bool.not_eq_true] using hhead
      refine ⟨?_, ?_, by simp, ?_⟩
      · rw [hcons]
        simp [takeWhile, ha]
      · intro hmem
        have hall := mem_takeWhile_imp hmem
        simp at hall
      · have hlen := congrArg length
          (takeWhile_append_dropWhile (p := (· != Memfs.slash)) (l := text.dropWhile (· == Memfs.slash)))
        have hpos : 0 < ((text.dropWhile (· == Memfs.slash)).takeWhile (· != Memfs.slash)).length := by
          rw [hcons]
          simp [takeWhile, ha]
        have hsuffix := (dropWhile_suffix (l := text) (· == Memfs.slash)).length_le
        rw [length_append] at hlen
        simp only [map_cons, sum_cons]
        omega

end Pending

end DotnetPal.Memfs
