import DotnetPal.Memfs.Effects

/-!
# Commits do not fail

Once the refusals of a call are behind it, what it changes goes through: every lookup that comes
after the first change finds what it looks for, and giving back bytes does not underflow. So each
program of a commit is equal to the state it leaves.
-/

open Std Option

namespace DotnetPal.Memfs

open Programs DirectoryTree OrderedMap State

attribute [local instance] lexOrd

variable {content : Content}

theorem Core.Accounted.len_le {core : Core} (h : core.Accounted) {id : ℕ}
    (hc : core.content? id = some content) : content.len ≤ core.used := by
  obtain ⟨part, hpart, hsome⟩ := bind_eq_some_iff.mp hc
  have hle := weight_le_total (fun _ part ↦ FilePart.size part) core.files hpart
  rw [← h, FilePart.size, hsome] at hle
  exact hle

theorem Core.Accounted.congr {core next : Core} (h : core.Accounted) (hfiles : next.files = core.files)
    (hused : next.used = core.used) : next.Accounted := by
  unfold Core.Accounted
  rw [hfiles, hused]
  exact h

namespace State

variable {s : State} {id j : ℕ}

/-! ## What stays in the table -/

theorem mem_nodes_iff : id ∈ s.nodes ↔ ∃ node, s.nodes[id]? = some node := by
  rw [ExtTreeMap.mem_iff_isSome_getElem?, isSome_iff_exists]

@[simp]
theorem mem_modifyNode (change : Node → Node) : j ∈ (s.modifyNode id change).nodes ↔ j ∈ s.nodes :=
  ExtTreeMap.mem_modify

@[simp]
theorem nodes_report (env : Env) (kinds : UInt32) : (s.report env id kinds).nodes = s.nodes := rfl

@[simp]
theorem nodes_reportEntry (env : Env) (name : Bytes) (kinds cookie : UInt32) :
    (s.reportEntry env id name kinds cookie).nodes = s.nodes := rfl

@[simp]
theorem nodes_applyIf_report (condition : Prop) [Decidable condition] (env : Env) (kinds : UInt32) :
    (applyIf condition (report env id kinds) s).nodes = s.nodes := by
  unfold applyIf
  split <;> rfl

@[simp]
theorem nodes_applyIf_ended (condition : Prop) [Decidable condition] (env : Env) :
    (applyIf condition (ended env id) s).nodes = s.nodes := by
  unfold applyIf
  split <;> rfl

theorem get_reaped_of_ne (h : id ≠ j) : (s.reaped id).nodes[j]? = s.nodes[j]? := by
  unfold reaped
  split
  · rfl
  · split
    · simp [h]
    · rfl

theorem get_unlinked_of_ne (env : Env) (counted : Bool) (h : id ≠ j) :
    (s.unlinked env id counted).nodes[j]? = s.nodes[j]? := by
  unfold unlinked
  simp only [get_reaped_of_ne h, nodes_applyIf_ended, nodes_applyIf_report]
  simp [modifyNode, get_modify, h]

theorem mem_of_parent? (h : (s.core.parent? id).isSome) : id ∈ s.nodes :=
  mem_nodes_iff.mpr (exists_node_of_parent? h)

variable {change : Node → Node}

theorem parent?_modifyNode
    (h : ∀ node, (change node).body.directory?.map Prod.fst = node.body.directory?.map Prod.fst) :
    (s.modifyNode id change).core.parent? j = s.core.parent? j := by
  rw [parent?_core, parent?_core, modifyNode, get_modify]
  split
  · cases s.nodes[j]? with
    | none => rfl
    | some node => exact h node
  · rfl

@[simp]
theorem parent?_modifyNode_withEntries (change : Entries → Entries) :
    (s.modifyNode id (Node.withEntries change)).core.parent? j = s.core.parent? j := by
  refine parent?_modifyNode fun node ↦ ?_
  cases hbody : node.body <;> simp [Node.withEntries, Body.directory?, hbody]

theorem child?_erased (dir holder : ℕ) (name wanted : Bytes) :
    (s.modifyNode dir (Node.withEntries (·.erase name))).core.child? holder wanted =
      if dir = holder ∧ name = wanted then none else s.core.child? holder wanted := by
  rw [child?_core, child?_core, modifyNode, get_modify]
  cases hnode : s.nodes[holder]? with
  | none => simp
  | some node =>
    cases hbody : node.body <;>
      by_cases hholder : dir = holder <;>
      simp [hholder, Node.withEntries, Body.directory?, hbody, get_erase]

/-- Content that goes back where it was leaves everything as it was. -/
theorem modifyNode_withContent_self {node : Node} (hnode : s.nodes[id]? = some node)
    (hbody : node.body = .file content) : s.modifyNode id (Node.withContent content) = s := by
  unfold modifyNode
  rw [modify_eq_self]
  rintro _ hv
  rw [hnode, some.injEq] at hv
  rw [← hv, Node.withContent, ← hbody]

/-- The used bytes are the lengths of all files, as the state has them. -/
theorem accounted_iff :
    s.core.Accounted ↔ s.used = total (fun _ node ↦ node.kept.filePart.size) s.nodes := by
  simp only [Core.Accounted, Core.files, core, total_map]

theorem accounted_modifyNode
    (h : ∀ node, (change node).kept.filePart.size = node.kept.filePart.size)
    (haccounted : s.core.Accounted) :
    (s.modifyNode id change).core.Accounted := by
  rw [accounted_iff] at haccounted ⊢
  rw [modifyNode, total_modify_same _ _ fun node _ ↦ h node]
  exact haccounted

end State

/-! ## Changes of one node -/

variable {s : State} {id : ℕ}

theorem updateNode_eq (change : Node → Node) (h : id ∈ s.nodes) :
    updateNode id change s = .ok () (s.modifyNode id change) := by
  obtain ⟨node, hnode⟩ := mem_nodes_iff.mp h
  exact bind_of_ok (reading_of_ok (node_eq_ok_iff.mpr hnode))

theorem updateEntries_eq (change : Entries → Entries) (h : (s.core.parent? id).isSome) :
    updateEntries id change s = .ok () (s.modifyNode id (Node.withEntries change)) := by
  obtain ⟨entries, hentries⟩ := exists_entries h
  exact bind_of_ok (reading_of_ok hentries)

theorem reap_eq (id : ℕ) (h : s.core.Accounted) : reap id s = .ok () (s.reaped id) := by
  unfold reap reaped
  cases hnode : s.nodes[id]? with
  | none => rfl
  | some node =>
    dsimp only
    split
    · have hfits : s.overdrawn id = false := by
        unfold overdrawn
        cases hbody : node.body with
        | file content =>
          have hc : s.core.content? id = some content := by
            rw [content?_core, hnode, bind_some, hbody]
            rfl
          have hle : content.len ≤ s.used := h.len_le hc
          simpa [hnode, hbody] using hle
        | directory | link => simp [hnode, hbody]
      simp_all
    · rfl

theorem unlinked_eq (env : Env) (counted : Bool) (hlive : id ∈ s.nodes) (haccounted : s.core.Accounted) :
    unlinked env id counted s = .ok () (s.unlinked env id counted) := by
  obtain ⟨node, hnode⟩ := mem_nodes_iff.mp hlive
  have hget : (s.modifyNode id (Node.unlinked env.now)).nodes[id]? = some (node.unlinked env.now) := by
    simp [modifyNode, hnode]
  have hread : reading (fun j : State ↦ j.node id) (s.modifyNode id (Node.unlinked env.now)) =
      .ok (node.unlinked env.now) (s.modifyNode id (Node.unlinked env.now)) :=
    reading_of_ok (node_eq_ok_iff.mpr hget)
  have hfewer : (s.modifyNode id (Node.unlinked env.now)).core.Accounted :=
    accounted_modifyNode (fun _ ↦ rfl) haccounted
  unfold unlinked
  rw [bind_of_ok (updateNode_eq _ hlive), bind_of_ok hread, bind_of_ok (modify_apply _ _),
    bind_of_ok (modify_apply _ _), reap_eq]
  · simp only [State.unlinked, hget, map_some, some.injEq]
  · rw [core_applyIf (core_ended _ _), core_applyIf (core_report _ _ _)]
    exact hfewer

/-! ## Commits of the tree -/

theorem create_eq (env : Env) {p : Place} (mode : UInt32) (body : Body)
    (hparent : (s.core.parent? p.parent).isSome) (hbelow : p.parent ≠ s.nextId) :
    create env p mode body s = .ok s.nextId (s.created env p mode body) := by
  have hlive : p.parent ∈ (((s.modifyNode p.parent
      (Node.withEntries (·.insert p.name s.nextId))).countId).addNode s.nextId
        (Node.new mode body env.now)).nodes := by
    refine ExtTreeMap.mem_insert.mpr (.inr ?_)
    exact (mem_modifyNode _).mpr (mem_of_parent? hparent)
  have hnew : (s.added env p mode body).nodes[s.nextId]? = some (Node.new mode body env.now) := by
    rw [added, modifyNode, get_modify, if_neg hbelow, addNode, get_insert, if_pos rfl]
  have hnext : (reading fun j : State ↦ .ok j.nextId : Op ℕ) s = .ok s.nextId s := rfl
  have hkind : reading (fun j : State ↦ j.isDirectory s.nextId) (s.added env p mode body) =
      .ok body.directory?.isSome (s.added env p mode body) := by
    refine reading_of_ok ((isDirectory_of_node hnew).trans ?_)
    rw [parent?_core, hnew]
    cases body <;> rfl
  unfold create touch
  rw [bind_of_ok hnext, bind_of_ok (updateEntries_eq _ hparent), bind_of_ok (modify_apply _ _),
    bind_of_ok (modify_apply _ _), bind_of_ok (updateNode_eq _ hlive)]
  exact (bind_of_ok hkind).trans rfl

/-- A change of content refuses with the file as it was, or leaves it with new content. -/
theorem change_atomic {α : Type} (env : Env) (told : Bool) {edit : ℕ → Bool → Content.Edit α}
    {node : Node} {post : ℕ → Bool → α → Content → Prop} (hs : s.core.Sound none)
    (hnode : s.nodes[id]? = some node) (hbody : node.body = .file content)
    (hedit : ∀ room mapped, content.Valid → Atomic Fault.Refusal (edit room mapped) content
      (post room mapped)) :
    Atomic Fault.Refusal (change env id told edit) s fun v s' ↦
      ∃ new, s' = s.changed env id told content new ∧ post (s.capacity - s.used) (node.maps ≠ 0) v new := by
  have hc : s.core.content? id = some content := by
    rw [content?_core, hnode, bind_some, hbody]
    rfl
  have hfits : ¬s.used < content.len := Nat.not_lt.mpr (hs.accounted.len_le hc)
  rcases hedit (s.capacity - s.used) (node.maps ≠ 0) (hs.memory.content_valid id content hc) with
    ⟨fault, hrefusal, h⟩ | ⟨v, new, h, hpost⟩
  · refine .inl ⟨fault, hrefusal, ?_⟩
    simp only [change, hnode, hbody, h, modifyNode_withContent_self hnode hbody]
  · exact .of_ok (by simp only [change, hnode, hbody, h, if_neg hfits]; rfl) ⟨new, rfl, hpost⟩

namespace Files

theorem commitRemoval_eq (env : Env) {removal : Removal} (counted : Bool) (kinds : UInt32)
    (hparent : (s.core.parent? removal.place.parent).isSome) (hlive : removal.node ∈ s.nodes)
    (haccounted : s.core.Accounted) :
    commitRemoval env removal counted kinds s = .ok () (removed env removal counted kinds s) := by
  unfold commitRemoval touch
  rw [bind_of_ok (updateEntries_eq _ hparent),
    bind_of_ok (updateNode_eq _ (by simpa using mem_of_parent? hparent)),
    bind_of_ok (unlinked_eq _ _ (by simpa using hlive) ?_)]
  · rfl
  · exact accounted_modifyNode (fun _ ↦ rfl)
      (accounted_modifyNode (fun node ↦ by rw [Node.kept_withEntries, Kept.filePart_withEntries])
        haccounted)

theorem commitLinking_eq (env : Env) {linking : Linking}
    (hparent : (s.core.parent? linking.place.parent).isSome) (hlive : linking.node ∈ s.nodes) :
    commitLinking env linking s = .ok () (linked env linking s) := by
  have htold : ((s.report env linking.node Watches.attributes).core.parent? linking.place.parent).isSome :=
    hparent
  unfold commitLinking touch
  rw [bind_of_ok (modify_apply _ _), bind_of_ok (updateEntries_eq _ htold),
    bind_of_ok (updateNode_eq _ (by simpa using hlive)),
    bind_of_ok (updateNode_eq _ (by simpa using mem_of_parent? htold))]
  rfl

/-- What a move finds: an entry of `source` that names the node, a directory and a name to move to,
and what has that name now. -/
structure Move.Sound (s : State) (move : Move) : Prop where
  source_entry : s.core.child? move.source.parent move.source.name = some move.node
  target_directory : (s.core.parent? move.target.parent).isSome
  target_entry : move.target.node = s.core.child? move.target.parent move.target.name
  target_valid : ValidName move.target.name
  other_node : move.target.node ≠ some move.node
  directory_eq : move.directory = (s.core.parent? move.node).isSome
  avoids : move.directory = true → Hierarchy.Avoids s.core.parent? root move.node move.target.parent
  /-- What is replaced is of the same kind, and empty if it is a directory. -/
  replaced_kind : ∀ other, move.target.node = some other →
    (s.core.parent? other).isSome = move.directory ∧
      ((s.core.parent? other).isSome → ∀ name, s.core.child? other name = none)

namespace Move.Sound

variable {move : Move} {j : ℕ}

variable (hmove : move.Sound s)
include hmove

theorem source_directory : (s.core.parent? move.source.parent).isSome :=
  isSome_parentOf_of_entryOf hmove.source_entry

/-- Directories with an entry are not what is replaced. -/
theorem source_ne (h : move.target.node = some j) : move.source.parent ≠ j := by
  rintro rfl
  have hnone := (hmove.replaced_kind _ h).2 hmove.source_directory move.source.name
  rw [hmove.source_entry] at hnone
  cases hnone

theorem target_ne (h : move.target.node = some j) : move.target.parent ≠ j := by
  rintro rfl
  have hnone := (hmove.replaced_kind _ h).2 hmove.target_directory move.target.name
  rw [← hmove.target_entry, h] at hnone
  cases hnone

theorem node_ne (h : move.target.node = some j) : move.node ≠ j := by
  rintro rfl
  exact hmove.other_node h

end Move.Sound

theorem mem_replaced_of_ne (env : Env) {x : Option ℕ} {key : ℕ} (h : ∀ j, x = some j → j ≠ key) :
    key ∈ (replaced env x s).nodes ↔ key ∈ s.nodes := by
  cases x with
  | none => rfl
  | some j =>
    simp only [replaced, mem_nodes_iff, get_unlinked_of_ne env true (h j rfl)]

theorem replace_eq (env : Env) {x : Option ℕ} (hlive : ∀ j, x = some j → j ∈ s.nodes)
    (haccounted : s.core.Accounted) : replace env x s = .ok () (replaced env x s) := by
  cases x with
  | none => rfl
  | some j => exact unlinked_eq env true (hlive j rfl) haccounted

theorem mem_reentered (env : Env) (move : Move) (key : ℕ) :
    key ∈ (reentered env move s).nodes ↔ key ∈ s.nodes := by
  change key ∈ ((s.modifyNode _ _).modifyNode _ _).nodes ↔ _
  simp only [mem_modifyNode]

theorem commitMove_eq (env : Env) {move : Move} (hs : s.core.Sound none) (hmove : move.Sound s) :
    commitMove env move s = .ok () (renamed env move s) := by
  have hsource := hmove.source_directory
  have htarget := hmove.target_directory
  have hlive : ∀ dir name j, s.core.child? dir name = some j → j ∈ s.nodes := by
    intro dir name j he
    obtain ⟨shape, hshape⟩ := hs.tree.entry_live _ _ _ he
    rw [Core.get_shapes, get_core] at hshape
    obtain ⟨kept, hkept, _⟩ := map_eq_some_iff.mp hshape
    obtain ⟨node, hnode, _⟩ := map_eq_some_iff.mp hkept
    exact mem_nodes_iff.mpr ⟨node, hnode⟩
  have hreplaced : ∀ j, move.target.node = some j → j ∈ s.nodes := by
    intro j hj
    rw [hmove.target_entry] at hj
    exact hlive _ _ _ hj
  -- What the target name is looked up in is the table without the source entry.
  have ha : ((s.modifyNode move.source.parent
      (Node.withEntries (·.erase move.source.name))).core.parent? move.target.parent).isSome := by
    rw [parent?_modifyNode_withEntries]
    exact htarget
  obtain ⟨entries, hentries⟩ := exists_entries ha
  have hx : entries[move.target.name]? = move.target.node := by
    rw [← child?_of_entries hentries, hmove.target_entry, child?_erased, if_neg]
    rintro ⟨hparents, hnames⟩
    refine hmove.other_node ?_
    rw [hmove.target_entry, ← hparents, ← hnames, hmove.source_entry]
  have hread : reading (fun j : State ↦ j.entries move.target.parent) (s.modifyNode move.source.parent
      (Node.withEntries (·.erase move.source.name))) = .ok entries _ := reading_of_ok hentries
  have haccounted : (reentered env move s).core.Accounted := by
    refine hs.accounted.congr ?_ rfl
    rw [core_reentered, Core.files_modifyNode_same (Kept.filePart_withEntries · _),
      Core.files_modifyNode_same (Kept.filePart_withEntries · _)]
  have hafter : ∀ key, (∀ j, move.target.node = some j → key ≠ j) → key ∈ s.nodes →
      key ∈ (replaced env move.target.node (reentered env move s)).nodes := by
    intro key hne hkey
    rw [mem_replaced_of_ne env fun j hj ↦ (hne j hj).symm, mem_reentered]
    exact hkey
  have hcookie : ∀ j : State, (reading fun x : State ↦ .ok x.cookie : Op UInt32) j =
      .ok j.cookie j := fun _ ↦ rfl
  have hdone : replace env entries[move.target.name]? (reentered env move s) =
      .ok () (replaced env move.target.node (reentered env move s)) := by
    rw [hx]
    exact replace_eq env (fun j hj ↦ (mem_reentered env move j).mpr (hreplaced j hj)) haccounted
  have hnode := hafter move.node (fun _ hj ↦ hmove.node_ne hj) (hlive _ _ _ hmove.source_entry)
  have hold := hafter _ (fun _ hj ↦ hmove.source_ne hj) (mem_of_parent? hsource)
  have hnew := hafter _ (fun _ hj ↦ hmove.target_ne hj) (mem_of_parent? htarget)
  unfold commitMove touch
  rw [bind_of_ok (updateEntries_eq _ hsource), bind_of_ok hread, bind_of_ok (updateEntries_eq _ ha),
    bind_of_ok (modify_apply _ _), bind_of_ok (hcookie _), bind_of_ok (modify_apply _ _),
    bind_of_ok (modify_apply _ _)]
  refine (bind_of_ok hdone).trans ?_
  rw [bind_of_ok (updateNode_eq _ hnode), bind_of_ok (updateNode_eq _ (by simpa using hold)),
    updateNode_eq _ (by simpa using hnew)]
  rfl

end Files

end DotnetPal.Memfs
