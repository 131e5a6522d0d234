import DotnetPal.Memfs.WalkSound

/-!
# What the calls leave

The states that the programs of the calls leave where they return, as functions of the state before,
and what each of them is in the core. Times, modes, locks and watchers are not part of the core, so
most changes are invisible there.
-/

open Std

namespace DotnetPal.Memfs

open Programs OrderedMap State DotnetPal.Memfs.Core

attribute [local instance] lexOrd

/-! ## Nodes in the core -/

namespace Node

variable (node : Node)

@[simp]
theorem kept_touched (now : ℕ) : (node.touched now).kept = node.kept := rfl

@[simp]
theorem kept_withLocks (locks : Vec Lock) : (node.withLocks locks).kept = node.kept := rfl

@[simp]
theorem kept_withEntries (change : Entries → Entries) :
    (node.withEntries change).kept = node.kept.withEntries change := by
  cases hbody : node.body <;> simp [Node.withEntries, Kept.withEntries, Node.kept, hbody]

@[simp]
theorem kept_unlinked (now : ℕ) : (node.unlinked now).kept = node.kept.withLinks (· - 1) := rfl

@[simp]
theorem kept_linked (now : ℕ) : (node.linked now).kept = node.kept.withLinks (· + 1) := rfl

@[simp]
theorem kept_opened : node.opened.kept = node.kept.withOpens (· + 1) := rfl

@[simp]
theorem kept_closed (owner : ℕ) : (node.closed owner).kept = node.kept.withOpens (· - 1) := rfl

@[simp]
theorem kept_moved (parent now : ℕ) : (node.moved parent now).kept = node.kept.withParent parent := by
  cases hbody : node.body <;> simp [Node.moved, Kept.withParent, Node.kept, hbody]

@[simp]
theorem kept_withContent (c : Content) : (node.withContent c).kept = node.kept.withContent c := rfl

@[simp]
theorem kept_mapped : node.mapped.kept = node.kept.withMaps (· + 1) := rfl

@[simp]
theorem kept_unmapped : node.unmapped.kept = node.kept.withMaps (· - 1) := rfl

end Node

namespace State

variable {s : State}

/-! ## Small changes in the core -/

variable {change : Node → Node}

theorem core_modifyNode {id : ℕ} {follow : Kept → Kept}
    (h : ∀ node, (change node).kept = follow node.kept) :
    (s.modifyNode id change).core = s.core.modifyNode id follow := by
  simp only [core, modifyNode, Core.modifyNode, Core.mk.injEq, and_true]
  exact map_modify _ _ _ _ _ h

theorem core_modifyNode_same {id : ℕ}
    (h : ∀ node, (change node).kept = node.kept) : (s.modifyNode id change).core = s.core := by
  simp only [core, modifyNode, Core.mk.injEq, and_true]
  exact map_modify_same _ _ _ _ fun node _ ↦ h node

@[simp]
theorem core_report (env : Env) (id : ℕ) (kinds : UInt32) : (s.report env id kinds).core = s.core := rfl

@[simp]
theorem core_reportEntry (env : Env) (dir : ℕ) (name : Bytes) (kinds cookie : UInt32) :
    (s.reportEntry env dir name kinds cookie).core = s.core := rfl

@[simp]
theorem core_ended (env : Env) (id : ℕ) : (s.ended env id).core = s.core := rfl

theorem core_applyIf {condition : Prop} [Decidable condition] {change : State → State}
    (h : (change s).core = s.core) : (applyIf condition change s).core = s.core := by
  unfold applyIf
  split
  · exact h
  · rfl

@[simp]
theorem core_addHandle (addr : ℕ) (handle : Handle) :
    (s.addHandle addr handle).core = s.core.withHandle addr handle.node? := by
  simp only [core, addHandle, withHandle, map_insert]

@[simp]
theorem core_dropHandle (addr : ℕ) : (s.dropHandle addr).core = s.core.withoutHandle addr := by
  simp only [core, dropHandle, withoutHandle, map_erase]

theorem core_reaped (id : ℕ) : (s.reaped id).core = s.core.reaped id := by
  unfold reaped Core.reaped
  rw [get_core]
  cases hnode : s.nodes[id]? with
  | none => rfl
  | some node =>
    by_cases hfree : node.links = 0 ∧ node.opens = 0 ∧ node.maps = 0
    · simp only [Option.map_some, Node.kept, hfree, and_self, if_true]
      cases node.body <;>
        simp [core, Kept.filePart, FilePart.size, Body.content?, map_erase]
    · simp only [Option.map_some, Node.kept, if_neg hfree]

/-! ## What larger changes leave -/

/-- A node that lost a directory entry. -/
def unlinked (env : Env) (id : ℕ) (counted : Bool) (s : State) : State :=
  let fewer := s.modifyNode id (Node.unlinked env.now)
  let told := applyIf (counted = true) (report env id Watches.attributes) fewer
  let silent := applyIf (fewer.nodes[id]?.map Node.links = some 0) (ended env id) told
  silent.reaped id

/-- A new node under a new name, before anyone hears of it. -/
def added (env : Env) (place : Place) (mode : UInt32) (body : Body) (s : State) : State :=
  (((s.modifyNode place.parent (Node.withEntries (·.insert place.name s.nextId))).countId).addNode
    s.nextId (Node.new mode body env.now)).modifyNode place.parent (Node.touched env.now)

def created (env : Env) (place : Place) (mode : UInt32) (body : Body) (s : State) : State :=
  (s.added env place mode body).reportEntry env place.parent place.name
    (Watches.create ||| mark body.directory?.isSome) 0

/-- A file with other content. -/
def changed (env : Env) (id : ℕ) (told : Bool) (before after : Content) (s : State) : State :=
  applyIf (told = true ∨ before.len ≠ after.len) (report env id Watches.modify)
    (s.settled id env.now before after)

@[simp]
theorem core_unlinked (env : Env) (id : ℕ) (counted : Bool) :
    (s.unlinked env id counted).core = (s.core.modifyNode id (Kept.withLinks (· - 1))).reaped id := by
  unfold unlinked
  rw [core_reaped, core_applyIf (core_ended _ _), core_applyIf (core_report _ _ _),
    core_modifyNode fun node ↦ Node.kept_unlinked node _]

@[simp]
theorem core_added (env : Env) (p : Place) (mode : UInt32) (body : Body) :
    (s.added env p mode body).core = s.core.attached p.parent p.name body := by
  unfold added
  rw [core_modifyNode_same fun node ↦ Node.kept_touched node _]
  simp only [core, addNode, countId, modifyNode, attached, Core.mk.injEq, and_true]
  rw [map_insert, map_modify _ _ _ _ _ fun node ↦ Node.kept_withEntries node _]
  rfl

@[simp]
theorem core_created (env : Env) (p : Place) (mode : UInt32) (body : Body) :
    (s.created env p mode body).core = s.core.attached p.parent p.name body := by
  unfold created
  rw [core_reportEntry, core_added]

theorem core_settled (id now : ℕ) (old new : Content) :
    (s.settled id now old new).core = s.core.edited id old new := by
  have hnodes : (s.modifyNode id (Node.touched now ∘ Node.withContent new)).core =
      s.core.modifyNode id (Kept.withContent new) := core_modifyNode fun _ ↦ rfl
  unfold settled edited
  rw [← hnodes]
  rfl

@[simp]
theorem core_changed (env : Env) (id : ℕ) (told : Bool) (old new : Content) :
    (s.changed env id told old new).core = s.core.edited id old new := by
  unfold changed
  rw [core_applyIf (core_report _ _ _), core_settled]

end State

namespace Files

/-- An entry and what it named, after they part. -/
def removed (env : Env) (removal : Removal) (counted : Bool) (kinds : UInt32) (s : State) : State :=
  (((s.modifyNode removal.place.parent (Node.withEntries (·.erase removal.place.name))).modifyNode
    removal.place.parent (Node.touched env.now)).unlinked env removal.node counted).reportEntry env
      removal.place.parent removal.place.name kinds 0

/-- The entries after a move and what the directories hear, before the nodes change. -/
def reentered (env : Env) (move : Move) (s : State) : State :=
  let entered := nextCookie ((s.modifyNode move.source.parent
    (Node.withEntries (·.erase move.source.name))).modifyNode move.target.parent
      (Node.withEntries (·.insert move.target.name move.node)))
  (entered.reportEntry env move.source.parent move.source.name
    (Watches.movedFrom ||| mark move.directory) entered.cookie).reportEntry env move.target.parent
      move.target.name (Watches.movedTo ||| mark move.directory) entered.cookie

def replaced (env : Env) (node : Option ℕ) (s : State) : State :=
  match node with
  | some node => s.unlinked env node true
  | none => s

def renamed (env : Env) (move : Move) (s : State) : State :=
  ((((reentered env move s) |> replaced env move.target.node).modifyNode move.node
    (Node.moved move.target.parent env.now)).modifyNode move.source.parent (Node.touched env.now)).modifyNode
      move.target.parent (Node.touched env.now)

def linked (env : Env) (linking : Linking) (s : State) : State :=
  ((((s.report env linking.node Watches.attributes).modifyNode linking.place.parent
    (Node.withEntries (·.insert linking.place.name linking.node))).modifyNode linking.node
      (Node.linked env.now)).modifyNode linking.place.parent (Node.touched env.now)).reportEntry env
        linking.place.parent linking.place.name Watches.create 0

end Files

/-! ## Changes of the core that commute -/

theorem Kept.withEntries_withEntries (a b : Entries → Entries) (kept : Kept) :
    (kept.withEntries a).withEntries b = kept.withEntries (b ∘ a) := by
  cases hbody : kept.body <;> simp [Kept.withEntries, hbody]

namespace Core

variable {core : Core}

theorem modifyNode_comm {a b : ℕ} (f g : Kept → Kept) (h : a ≠ b) :
    (core.modifyNode a f).modifyNode b g = (core.modifyNode b g).modifyNode a f := by
  simp only [modifyNode, Core.mk.injEq, and_true]
  apply ExtTreeMap.ext_getElem?
  intro key
  simp only [get_modify]
  grind

theorem modifyNode_modifyNode (id : ℕ) (f g : Kept → Kept) :
    (core.modifyNode id f).modifyNode id g = core.modifyNode id (g ∘ f) := by
  simp only [modifyNode, modify_modify]

theorem reaped_modifyNode {id j : ℕ} (f : Kept → Kept) (h : id ≠ j) :
    (core.modifyNode id f).reaped j = (core.reaped j).modifyNode id f := by
  have hget : (core.modifyNode id f).nodes[j]? = core.nodes[j]? := by
    simp [modifyNode, get_modify, h]
  unfold reaped
  rw [hget]
  cases hkept : core.nodes[j]? with
  | none => rfl
  | some kept =>
    dsimp only
    split
    · simp only [modifyNode, Core.mk.injEq, and_true]
      apply ExtTreeMap.ext_getElem?
      intro key
      simp only [get_modify, get_erase]
      grind
    · rfl

/-- An entry that is erased before it is overwritten might as well stay. -/
theorem modifyNode_erase_insert (source target : ℕ) (old new : Bytes) (id : ℕ) :
    ((core.modifyNode target (Kept.withEntries (·.erase new))).modifyNode source
      (Kept.withEntries (·.erase old))).modifyNode target (Kept.withEntries (·.insert new id)) =
      (core.modifyNode source (Kept.withEntries (·.erase old))).modifyNode target
        (Kept.withEntries (·.insert new id)) := by
  have hover : ∀ entries : Entries, (entries.erase new).insert new id = entries.insert new id := by
    intro entries
    apply ExtTreeMap.ext_getElem?
    intro key
    simp only [get_insert, get_erase]
    grind
  by_cases hsame : source = target
  · subst hsame
    simp only [modifyNode_modifyNode]
    congr 1
    funext kept
    simp only [Function.comp_apply, Kept.withEntries_withEntries]
    congr 1
    funext entries
    apply ExtTreeMap.ext_getElem?
    intro key
    simp only [Function.comp_apply, get_insert, get_erase]
    grind
  · rw [modifyNode_comm _ _ (Ne.symm hsame), modifyNode_modifyNode]
    congr 1
    funext kept
    simp only [Function.comp_apply, Kept.withEntries_withEntries]
    congr 1
    funext entries
    exact hover entries

end Core

/-! ## Tree changes in the core -/

namespace Files

variable {s : State}

@[simp]
theorem core_removed (env : Env) (removal : Removal) (counted : Bool) (kinds : UInt32) :
    (removed env removal counted kinds s).core =
      s.core.detached removal.place.parent removal.place.name removal.node := by
  unfold removed
  rw [core_reportEntry, core_unlinked, core_modifyNode_same fun node ↦ Node.kept_touched node _,
    core_modifyNode fun node ↦ Node.kept_withEntries node _]
  rfl

@[simp]
theorem core_linked (env : Env) (linking : Linking) : (linked env linking s).core =
      s.core.linked linking.place.parent linking.place.name linking.node := by
  unfold linked
  rw [core_reportEntry, core_modifyNode_same fun node ↦ Node.kept_touched node _,
    core_modifyNode fun node ↦ Node.kept_linked node _,
    core_modifyNode fun node ↦ Node.kept_withEntries node _, core_report]
  rfl

theorem core_reentered (env : Env) (move : Move) : (reentered env move s).core =
      (s.core.modifyNode move.source.parent (Kept.withEntries (·.erase move.source.name))).modifyNode
        move.target.parent (Kept.withEntries (·.insert move.target.name move.node)) := by
  have hcookie : ∀ j : State, (nextCookie j).core = j.core := fun _ ↦ rfl
  unfold reentered
  simp only [core_reportEntry]
  rw [hcookie, core_modifyNode fun node ↦ Node.kept_withEntries node _,
    core_modifyNode fun node ↦ Node.kept_withEntries node _]

theorem core_renamed (env : Env) (move : Move) : (renamed env move s).core =
      ((reentered env move s) |> replaced env move.target.node).core.modifyNode move.node
        (Kept.withParent move.target.parent) := by
  unfold renamed
  rw [core_modifyNode_same fun node ↦ Node.kept_touched node _,
    core_modifyNode_same fun node ↦ Node.kept_touched node _,
    core_modifyNode fun node ↦ Node.kept_moved node _ _]

theorem core_renamed_free (env : Env) {move : Move} (h : move.target.node = none) :
    (renamed env move s).core =
      s.core.moved move.source.parent move.source.name move.target.parent move.target.name move.node := by
  rw [core_renamed, h]
  simp only [replaced, core_reentered]
  rfl

/-- What is replaced is detached first; the events of the code come in another order. -/
theorem core_renamed_replaced (env : Env) {move : Move} {j : ℕ} (h : move.target.node = some j)
    (hsource : move.source.parent ≠ j) (htarget : move.target.parent ≠ j) :
    (renamed env move s).core =
      (s.core.detached move.target.parent move.target.name j).moved move.source.parent
        move.source.name move.target.parent move.target.name move.node := by
  rw [core_renamed, h]
  simp only [replaced, core_unlinked, core_reentered, moved, detached]
  congr 1
  rw [modifyNode_comm _ _ htarget, modifyNode_comm _ _ hsource,
    reaped_modifyNode _ htarget, reaped_modifyNode _ hsource,
    modifyNode_comm _ _ htarget, reaped_modifyNode _ htarget, modifyNode_erase_insert]

end Files

end DotnetPal.Memfs
