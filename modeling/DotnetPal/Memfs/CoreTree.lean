import DotnetPal.Memfs.Core

/-!
# The core keeps its tree

How each change of the core looks to the tree, and to what handles and mappings depend on. A change
of names leaves the file parts alone, a change of a file leaves the shapes alone, and what is left
are the five changes of a tree of directories.
-/

open Std

namespace DotnetPal.Memfs

open Hierarchy DirectoryTree OrderedMap Kept

/-! ## Shapes and file parts of changed nodes -/

namespace Kept

variable (kept : Kept)

@[simp]
theorem shape_withEntries (change : Entries → Entries) :
    (kept.withEntries change).shape = kept.shape.withEntries change := by
  cases hbody : kept.body <;>
    simp [withEntries, shape, Shape.withEntries, Body.directory?, hbody]

@[simp]
theorem shape_withParent (p : ℕ) : (kept.withParent p).shape = kept.shape.withParent p := by
  cases hbody : kept.body <;>
    simp [withParent, shape, Shape.withParent, Body.directory?, hbody]

@[simp]
theorem shape_withLinks (change : ℕ → ℕ) : (kept.withLinks change).shape = kept.shape.withLinks change := rfl

theorem shape_withMaps (change : ℕ → ℕ) : (kept.withMaps change).shape = kept.shape := rfl

theorem filePart_withMaps (change : ℕ → ℕ) :
    (kept.withMaps change).filePart = kept.filePart.withMaps change := rfl

theorem filePart_withContent (c : Content) :
    (kept.withContent c).filePart = kept.filePart.withContent c := rfl

@[simp]
theorem filePart_withEntries (change : Entries → Entries) :
    (kept.withEntries change).filePart = kept.filePart := by
  cases hbody : kept.body <;> simp [withEntries, filePart, Body.content?, hbody]

@[simp]
theorem filePart_withParent (p : ℕ) : (kept.withParent p).filePart = kept.filePart := by
  cases hbody : kept.body <;> simp [withParent, filePart, Body.content?, hbody]

@[simp]
theorem filePart_withLinks (change : ℕ → ℕ) : (kept.withLinks change).filePart = kept.filePart := rfl

end Kept

namespace Core

variable {core : Core}

variable {change : Kept → Kept} {id : ℕ}

theorem shapes_modifyNode {follow : Shape ℕ Bytes compare → Shape ℕ Bytes compare}
    (h : ∀ kept, (change kept).shape = follow kept.shape) :
    (core.modifyNode id change).shapes = core.shapes.modify id follow :=
  map_modify _ _ _ _ _ h

theorem files_modifyNode {follow : FilePart → FilePart}
    (h : ∀ kept, (change kept).filePart = follow kept.filePart) :
    (core.modifyNode id change).files = core.files.modify id follow :=
  map_modify _ _ _ _ _ h

theorem files_modifyNode_same
    (h : ∀ kept, (change kept).filePart = kept.filePart) : (core.modifyNode id change).files = core.files :=
  map_modify_same _ _ _ _ fun kept _ ↦ h kept

theorem shapes_modifyNode_same
    (h : ∀ kept, core.nodes[id]? = some kept → (change kept).shape = kept.shape) :
    (core.modifyNode id change).shapes = core.shapes :=
  map_modify_same _ _ _ _ h

theorem get_shapes (id : ℕ) : core.shapes[id]? = core.nodes[id]?.map shape := by
  simp [shapes]

theorem get_files (id : ℕ) : core.files[id]? = core.nodes[id]?.map filePart := by
  simp [files]

/-- A node with content is no directory. -/
theorem parent?_of_content? {c : Content} (h : core.content? id = some c) : core.parent? id = none := by
  unfold content? at h
  unfold parent? parentOf
  rw [get_files] at h
  rw [get_shapes]
  cases hkept : core.nodes[id]? with
  | none => rfl
  | some kept =>
    rw [hkept] at h
    cases hbody : kept.body <;>
      simp_all [filePart, Body.content?, shape, Shape.parent, Body.directory?]

/-! ## The changes of names -/

@[simp]
theorem files_linked (p : ℕ) (name : Bytes) (id : ℕ) : (core.linked p name id).files = core.files := by
  unfold linked
  rw [files_modifyNode_same (filePart_withLinks · _), files_modifyNode_same (filePart_withEntries · _)]

theorem shapes_linked (p : ℕ) (name : Bytes) (id : ℕ) :
    (core.linked p name id).shapes = named core.shapes p name id := by
  unfold linked named
  rw [shapes_modifyNode (shape_withLinks · _), shapes_modifyNode (shape_withEntries · _)]

/-- The core after a name is taken away from a node, before the node is looked at. -/
def unnamed (parent : ℕ) (name : Bytes) (id : ℕ) (core : Core) : Core :=
  (core.modifyNode parent (withEntries (·.erase name))).modifyNode id (withLinks (· - 1))

@[simp]
theorem files_unnamed (p : ℕ) (name : Bytes) (id : ℕ) : (core.unnamed p name id).files = core.files := by
  unfold unnamed
  rw [files_modifyNode_same (filePart_withLinks · _), files_modifyNode_same (filePart_withEntries · _)]

theorem shapes_unnamed (p : ℕ) (name : Bytes) (id : ℕ) :
    (core.unnamed p name id).shapes = DirectoryTree.unnamed core.shapes p name id := by
  unfold unnamed DirectoryTree.unnamed
  rw [shapes_modifyNode (shape_withLinks · _), shapes_modifyNode (shape_withEntries · _)]

@[simp]
theorem files_moved (source : ℕ) (old : Bytes) (target : ℕ) (new : Bytes) (id : ℕ) :
    (core.moved source old target new id).files = core.files := by
  unfold moved
  rw [files_modifyNode_same (filePart_withParent · _), files_modifyNode_same (filePart_withEntries · _),
    files_modifyNode_same (filePart_withEntries · _)]

/-- A move takes one name away, moves the node and gives it another. -/
theorem shapes_moved (source : ℕ) (old : Bytes) (target : ℕ) (new : Bytes) {shape : Shape ℕ Bytes compare}
    (hshape : core.shapes[id]? = some shape) (hlinks : 0 < shape.links) :
    (core.moved source old target new id).shapes =
      DirectoryTree.moved core.shapes source old target new id := by
  unfold moved DirectoryTree.moved
  rw [shapes_modifyNode (shape_withParent · _), shapes_modifyNode (shape_withEntries · _),
    shapes_modifyNode (shape_withEntries · _)]
  apply ExtTreeMap.ext_getElem?
  intro j
  simp only [named, DirectoryTree.unnamed, get_modify]
  by_cases hid : id = j
  · subst hid
    rw [hshape]
    by_cases hsource : source = id <;> by_cases htarget : target = id <;>
      cases hx : shape.directory <;>
      simp [hsource, htarget, Shape.withParent, Shape.withEntries, Shape.withLinks, hx,
        Nat.sub_add_cancel hlinks]
  · simp [hid]

/-- A new node arrives without a name and gets one. -/
theorem shapes_attached {p : ℕ} (name : Bytes) (body : Body) (hparent : p ≠ core.nextId)
    (hnew : core.shapes[core.nextId]? = none) :
    (core.attached p name body).shapes =
      named (core.shapes.insert core.nextId ⟨0, body.directory?⟩) p name core.nextId := by
  apply ExtTreeMap.ext_getElem?
  intro j
  have hnodes : core.nodes[core.nextId]? = none := by simpa [get_shapes] using hnew
  simp only [shapes, attached, named, ExtTreeMap.getElem?_map, get_modify, get_insert]
  by_cases hid : core.nextId = j
  · subst hid
    simp [hparent, shape, Shape.withLinks]
  · by_cases hj : p = j
    · subst hj
      cases hkept : core.nodes[p]? <;> simp [Ne.symm hparent]
    · simp [hid, hj]

theorem files_attached {p : ℕ} (name : Bytes) (body : Body) :
    (core.attached p name body).files = core.files.insert core.nextId ⟨0, 0, body.content?⟩ := by
  unfold attached files
  simp only
  rw [map_insert, map_modify_same _ _ _ _ fun kept _ ↦ filePart_withEntries kept _]
  rfl

end Core

end DotnetPal.Memfs
