import Mathlib.Data.List.Induction
import DotnetPal.Foundations.DirectoryTree

/-!
# Descents in a tree of named directories

A list of names leads from a directory to a node, through the entry of each name in the directory
the names before it lead to. In a tree no two lists lead from the root to the same directory, and
none leads from a directory to one above it.
-/

set_option linter.unusedSectionVars false

open Std Option

namespace DotnetPal.DirectoryTree

open Hierarchy

variable {ι ν : Type} {order : ι → ι → Ordering} {names : ν → ν → Ordering}
variable [TransCmp order] [LawfulEqCmp order] [TransCmp names] [LawfulEqCmp names]
variable [DecidableEq ι] [DecidableEq ν]
variable {shapes : ExtTreeMap ι (Shape ι ν names) order} {root : ι} {valid : ν → Prop} {loose : Option ι}

/-- Where the names lead to from a directory. -/
def descend (shapes : ExtTreeMap ι (Shape ι ν names) order) (dir : ι) (path : List ν) : Option ι :=
  path.foldlM (entryOf shapes) dir

@[simp]
theorem descend_nil (dir : ι) : descend shapes dir [] = some dir := rfl

theorem descend_cons (dir : ι) (name : ν) (path : List ν) :
    descend shapes dir (name :: path) = (entryOf shapes dir name).bind (descend shapes · path) := rfl

theorem descend_append (dir : ι) (a b : List ν) :
    descend shapes dir (a ++ b) = (descend shapes dir a).bind (descend shapes · b) := by
  simp [descend, List.foldlM_append]

variable {path : List ν} {id : ι}

theorem descend_concat_eq_some_iff {dir : ι} {name : ν} : descend shapes dir (path ++ [name]) = some id ↔
      ∃ above, descend shapes dir path = some above ∧ entryOf shapes above name = some id := by
  rw [descend_append, bind_eq_some_iff]
  simp only [descend_cons, descend_nil, bind_fun_some]

theorem isSome_parentOf_of_descend {dir : ι} (h : descend shapes dir path = some id)
    (hpath : path ≠ []) : (parentOf shapes dir).isSome := by
  cases path with
  | nil => exact absurd rfl hpath
  | cons name path =>
    obtain ⟨next, he, _⟩ := bind_eq_some_iff.mp h
    exact isSome_parentOf_of_entryOf he

variable (tree : Tree root valid loose shapes)
include tree

theorem Tree.descend_valid {dir : ι}
    (h : descend shapes dir path = some id) : ∀ name ∈ path, valid name := by
  induction path generalizing dir with
  | nil => simp
  | cons a path ih =>
    obtain ⟨next, he, hrest⟩ := bind_eq_some_iff.mp h
    intro name hname
    rcases List.mem_cons.mp hname with rfl | hname
    · exact tree.valid_names dir name next he
    · exact ih hrest name hname

/-- A directory has one path. -/
theorem Tree.descend_injective {a b : List ν}
    (ha : descend shapes root a = some id) (hb : descend shapes root b = some id)
    (hid : (parentOf shapes id).isSome) : a = b := by
  -- The last names are equal because a directory has one name, and so are the directories they are in.
  induction a using List.reverseRecOn generalizing b id with
  | nil =>
    obtain rfl : root = id := some.inj ha
    rcases List.eq_nil_or_concat' b with rfl | ⟨path, name, rfl⟩
    · rfl
    · obtain ⟨above, _, he⟩ := descend_concat_eq_some_iff.mp hb
      exact absurd rfl (tree.entry_parent above name root root he tree.root_parent).1
  | append_singleton path name ih =>
    obtain ⟨above, hpath, he⟩ := descend_concat_eq_some_iff.mp ha
    obtain ⟨parent, hparent⟩ := isSome_iff_exists.mp hid
    obtain ⟨hroot, rfl⟩ := tree.entry_parent above name id parent he hparent
    rcases List.eq_nil_or_concat' b with rfl | ⟨j, last, rfl⟩
    · exact absurd (some.inj hb).symm hroot
    · obtain ⟨dir, hj, hlast⟩ := descend_concat_eq_some_iff.mp hb
      obtain ⟨_, rfl⟩ := tree.entry_parent dir last id parent hlast hparent
      rw [ih hpath hj (isSome_parentOf_of_entryOf he), tree.one_name parent name last id he hlast hid]

/-! ## What lies inside a directory -/

/-- No descent leads from a directory to one whose climb avoids it. -/
theorem Tree.descend_ne_of_avoids {barred : ι} (hbarred : barred ≠ root)
    (h : Avoids (parentOf shapes) root barred id) (path : List ν) :
    descend shapes barred path ≠ some id := by
  induction h generalizing path with
  | root =>
    intro hpath
    rcases List.eq_nil_or_concat' path with rfl | ⟨init, name, rfl⟩
    · exact hbarred (some.inj hpath)
    · obtain ⟨above, _, he⟩ := descend_concat_eq_some_iff.mp hpath
      exact (tree.entry_parent above name root root he tree.root_parent).1 rfl
  | @step element above _ hne hparent _ ih =>
    intro hpath
    rcases List.eq_nil_or_concat' path with rfl | ⟨init, name, rfl⟩
    · exact hne (some.inj hpath).symm
    · obtain ⟨dir, hinit, he⟩ := descend_concat_eq_some_iff.mp hpath
      obtain ⟨_, rfl⟩ := tree.entry_parent dir name element above he hparent
      exact ih init hinit

/-- The climb from the directory that a directory is in does not come back to it. -/
theorem Tree.avoids_holder {holder : ι} {name : ν}
    (he : entryOf shapes holder name = some id) (hid : (parentOf shapes id).isSome) :
    Avoids (parentOf shapes) root id holder := by
  obtain ⟨parent, hparent⟩ := isSome_iff_exists.mp hid
  obtain ⟨hroot, rfl⟩ := tree.entry_parent holder name id parent he hparent
  obtain ⟨n, hn⟩ := (tree.climbs parent (isSome_parentOf_of_entryOf he)).exists_count
  exact hn.avoids (.step hroot hparent hn) (Nat.lt_succ_self _)

omit tree

/-- A descent only depends on the entries of the directories it passes. -/
theorem descend_congr {next : ExtTreeMap ι (Shape ι ν names) order}
    (h : ∀ path dir, descend shapes id path = some dir →
      ∀ name, entryOf next dir name = entryOf shapes dir name) (path : List ν) :
    descend next id path = descend shapes id path := by
  induction path generalizing id with
  | nil => rfl
  | cons name path ih =>
    rw [descend_cons, descend_cons, h [] id rfl name]
    cases he : entryOf shapes id name with
    | none => rfl
    | some below =>
      refine ih fun rest dir hrest ↦ h (name :: rest) dir ?_
      rw [descend_cons, he]
      exact hrest

end DotnetPal.DirectoryTree
