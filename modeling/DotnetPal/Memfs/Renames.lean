import DotnetPal.Memfs.CanonicalPaths

/-!
# What a rename does

A rename takes one entry away, gives the node another one, and takes a link from what had that name.
Everything else keeps its names, links and bytes, so whatever lies in a moved directory is found
under its new name.
-/

open Std Option

namespace DotnetPal.Memfs

open Programs Hierarchy DirectoryTree OrderedMap State

attribute [local instance] lexOrd

/-! ## Nodes after a rename -/

/-- The bytes of a file, or the target of a link. -/
def Body.bytes : Body → Bytes
  | .file content => content.bytes
  | .directory _ _ => []
  | .link target => target

/-- The links of a node, its kind and its bytes. -/
def Node.holding (node : Node) : ℕ × Files.NodeKind × Bytes := (node.links, node.body.kind, node.body.bytes)

theorem Node.holding_withEntries (change : Entries → Entries) (node : Node) :
    (node.withEntries change).holding = node.holding := by
  unfold Node.withEntries
  split
  · rename_i hbody
    simp [holding, hbody, Body.kind, Body.bytes]
  · rfl

theorem Node.holding_moved (parent now : ℕ) (node : Node) :
    (node.moved parent now).holding = node.holding := by
  unfold Node.moved
  split
  · rename_i hbody
    simp [holding, hbody, Body.kind, Body.bytes]
  · rfl

theorem Node.directory?_withEntries (change : Entries → Entries) (node : Node) :
    (node.withEntries change).body.directory? = node.body.directory?.map fun x ↦ (x.1, change x.2) := by
  unfold Node.withEntries
  cases hbody : node.body <;> simp [Body.directory?, hbody]

theorem Node.directory?_moved (parent now : ℕ) (node : Node) :
    (node.moved parent now).body.directory? = node.body.directory?.map fun x ↦ (parent, x.2) := by
  unfold Node.moved
  cases hbody : node.body <;> simp [Body.directory?]

variable {id : ℕ}

namespace Files

variable {s : State} {env : Env} {move : Move}

/-- The node `id` after a move that does not replace it. -/
def Move.shift (env : Env) (move : Move) (id : ℕ) (node : Node) : Node :=
  let left := if move.source.parent = id then node.withEntries (·.erase move.source.name) else node
  let entered :=
    if move.target.parent = id then left.withEntries (·.insert move.target.name move.node) else left
  let placed := if move.node = id then entered.moved move.target.parent env.now else entered
  let touched := if move.source.parent = id then placed.touched env.now else placed
  if move.target.parent = id then touched.touched env.now else touched

theorem Move.holding_shift (id : ℕ) (node : Node) : (move.shift env id node).holding = node.holding := by
  have htouched : ∀ j : Node, (j.touched env.now).holding = j.holding := fun _ ↦ rfl
  unfold Move.shift
  dsimp only
  split_ifs <;> simp only [htouched, Node.holding_moved, Node.holding_withEntries]

/-- The entries of a directory after a move. -/
def Move.entries (move : Move) (id : ℕ) (entries : Entries) : Entries :=
  let left := if move.source.parent = id then entries.erase move.source.name else entries
  if move.target.parent = id then left.insert move.target.name move.node else left

theorem Move.directory?_shift (id : ℕ) (node : Node) :
    (move.shift env id node).body.directory? = node.body.directory?.map fun x ↦
      (if move.node = id then move.target.parent else x.1, move.entries id x.2) := by
  have htouched : ∀ j : Node, (j.touched env.now).body = j.body := fun _ ↦ rfl
  unfold Move.shift Move.entries
  dsimp only
  split_ifs <;> simp [htouched, Node.directory?_moved, Node.directory?_withEntries, Function.comp_def]

theorem nodes_reentered (id : ℕ) : (reentered env move s).nodes[id]? = s.nodes[id]?.map fun node ↦
      let left := if move.source.parent = id then node.withEntries (·.erase move.source.name) else node
      if move.target.parent = id then left.withEntries (·.insert move.target.name move.node) else left := by
  change ((s.nodes.modify move.source.parent _).modify move.target.parent _)[id]? = _
  rw [get_modify, get_modify]
  cases s.nodes[id]? <;> split_ifs <;> rfl

theorem nodes_reaped_congr {j : State} (h : j.nodes = s.nodes) (id : ℕ) :
    (j.reaped id).nodes = (s.reaped id).nodes := by
  unfold reaped
  rw [h]
  cases s.nodes[id]? with
  | none => exact h
  | some node => by_cases hfree : node.links = 0 ∧ node.opens = 0 ∧ node.maps = 0 <;> simp [hfree, h]

/-- Hearing of it changes no node. -/
theorem nodes_unlinked (id : ℕ) (counted : Bool) :
    (s.unlinked env id counted).nodes = ((s.modifyNode id (Node.unlinked env.now)).reaped id).nodes := by
  refine nodes_reaped_congr ?_ id
  rw [nodes_applyIf_ended, nodes_applyIf_report]

/-- What is replaced loses a link, and goes if nothing else refers to it. -/
theorem get_unlinked {node : Node} (counted : Bool) (h : s.nodes[id]? = some node) :
    (s.unlinked env id counted).nodes[id]? =
      if node.links - 1 = 0 ∧ node.opens = 0 ∧ node.maps =
        0 then none else some (node.unlinked env.now) := by
  have hfewer : (s.modifyNode id (Node.unlinked env.now)).nodes[id]? = some (node.unlinked env.now) := by
    rw [modifyNode, get_modify, if_pos rfl, h]
    rfl
  rw [nodes_unlinked, reaped, hfewer]
  have hcounts : (node.unlinked env.now).links = node.links - 1 ∧ (node.unlinked env.now).opens =
    node.opens ∧
      (node.unlinked env.now).maps = node.maps := ⟨rfl, rfl, rfl⟩
  dsimp only
  rw [hcounts.1, hcounts.2.1, hcounts.2.2]
  split
  · rw [get_erase, if_pos rfl]
  · exact hfewer

theorem get_renamed_of_ne (h : move.target.node ≠ some id) :
    (renamed env move s).nodes[id]? = s.nodes[id]?.map (move.shift env id) := by
  have hreplaced : (reentered env move s |> replaced env move.target.node).nodes[id]? =
    (reentered env move s).nodes[id]? := by
    cases hnode : move.target.node with
    | none => rfl
    | some j => exact get_unlinked_of_ne env true fun heq ↦ h (heq ▸ hnode)
  unfold renamed
  simp only [modifyNode, get_modify]
  rw [hreplaced, nodes_reentered]
  unfold Move.shift
  cases s.nodes[id]? <;> split_ifs <;> rfl

theorem get_renamed_replaced (hmove : move.Sound s) {node : Node} (htarget : move.target.node = some id)
    (hnode : s.nodes[id]? = some node) :
    (renamed env move s).nodes[id]? =
      if node.links - 1 = 0 ∧ node.opens = 0 ∧ node.maps =
        0 then none else some (node.unlinked env.now) := by
  have hsource := hmove.source_ne htarget
  have hholder := hmove.target_ne htarget
  have hmoved := hmove.node_ne htarget
  have hentered : (reentered env move s).nodes[id]? = some node := by
    rw [nodes_reentered, hnode]
    simp [hsource, hholder]
  unfold renamed
  simp only [modifyNode, get_modify, if_neg hsource, if_neg hholder, if_neg hmoved]
  rw [htarget]
  exact get_unlinked true hentered

/-! ## Entries and parents after a rename -/

theorem get_entries (id : ℕ) (entries : Entries) (name : Bytes) : (move.entries id entries)[name]? =
      if id = move.target.parent ∧ name = move.target.name then some move.node
      else if id = move.source.parent ∧ name = move.source.name then none else entries[name]? := by
  have hleft : (if move.source.parent = id then entries.erase move.source.name else entries)[name]? =
      if id = move.source.parent ∧ name = move.source.name then none else entries[name]? := by
    by_cases hsource : move.source.parent = id
    · rw [if_pos hsource, get_erase]
      simp only [hsource.symm, true_and, eq_comm]
    · rw [if_neg hsource, if_neg fun h ↦ hsource h.1.symm]
  unfold Move.entries
  dsimp only
  rw [← hleft]
  by_cases htarget : move.target.parent = id
  · rw [if_pos htarget, get_insert]
    simp only [htarget.symm, true_and, eq_comm]
  · have hnot : ¬(id = move.target.parent ∧ name = move.target.name) := fun h ↦ htarget h.1.symm
    rw [if_neg htarget, if_neg hnot]

/-- A rename changes two entries. -/
theorem entryNode_renamed (hs : s.core.Sound none) (hmove : move.Sound s) (dir : ℕ) (name : Bytes) :
    (renamed env move s).entryNode dir name =
      if dir = move.target.parent ∧ name = move.target.name then some move.node
      else if dir = move.source.parent ∧ name = move.source.name then none
      else s.entryNode dir name := by
  by_cases hj : move.target.node = some dir
  · -- What is replaced had no entries, and has none.
    have hsource : dir ≠ move.source.parent := (hmove.source_ne hj).symm
    have htarget : dir ≠ move.target.parent := (hmove.target_ne hj).symm
    have hempty : s.entryNode dir name = none := by
      rw [entryNode_eq]
      cases hparent : s.core.parent? dir with
      | none => exact entryOf_of_parentOf_none hparent name
      | some above => exact (hmove.replaced_kind dir hj).2 (by rw [hparent]; rfl) name
    obtain ⟨node, hnode⟩ : ∃ node, s.nodes[dir]? = some node := by
      obtain ⟨shape, hshape⟩ := hs.tree.entry_live _ _ _ (hmove.target_entry.symm.trans hj)
      rw [Core.get_shapes] at hshape
      obtain ⟨kept, hkept, _⟩ := map_eq_some_iff.mp hshape
      obtain ⟨node, hnode, _⟩ := exists_node_of_core hkept
      exact ⟨node, hnode⟩
    rw [if_neg fun h ↦ htarget h.1, if_neg fun h ↦ hsource h.1, hempty]
    unfold entryNode at hempty ⊢
    rw [hnode] at hempty
    rw [get_renamed_replaced hmove hj hnode]
    split
    · rfl
    · exact hempty
  · have hdir : dir = move.target.parent → (s.parentField dir).isSome := by
      rintro rfl
      rw [parentField_eq]
      exact hmove.target_directory
    unfold entryNode parentField at *
    rw [get_renamed_of_ne hj]
    -- Only a directory has the entries that change.
    cases hnode : s.nodes[dir]? with
    | none =>
      rw [hnode] at hdir
      have hnot : ¬(dir = move.target.parent ∧ name = move.target.name) := fun h ↦ by simpa using hdir h.1
      rw [if_neg hnot]
      exact (ite_self _).symm
    | some node =>
      rw [hnode] at hdir
      simp only [map_some, bind_some, Move.directory?_shift] at hdir ⊢
      cases hbody : node.body.directory? with
      | none =>
        rw [hbody] at hdir
        have hnot : ¬(dir = move.target.parent ∧ name = move.target.name) := fun h ↦ by simpa using hdir h.1
        rw [if_neg hnot]
        exact (ite_self _).symm
      | some x => exact get_entries dir x.2 name

theorem parentField_renamed (h : move.target.node ≠ some id) : (renamed env move s).parentField id =
      if id = move.node then (s.parentField id).map fun _ ↦ move.target.parent else s.parentField id := by
  unfold parentField
  rw [get_renamed_of_ne h]
  cases s.nodes[id]? with
  | none => simp
  | some node =>
    simp only [map_some, bind_some, Move.directory?_shift, map_map, Function.comp_def]
    by_cases hid : id = move.node
    · simp [hid]
    · simp [hid, Ne.symm hid]

/-! ## What lies in a moved directory -/

/-- What lies in the moved node changes no entry. -/
theorem descend_renamed (hs : s.core.Sound none) (hmove : move.Sound s) (path : List Bytes) :
    descend (renamed env move s).core.shapes move.node path = descend s.core.shapes move.node path := by
  refine descend_congr (fun steps dir hsteps name ↦ ?_) path
  have hholders : dir ≠ move.target.parent ∧ dir ≠ move.source.parent := by
    cases hparent : s.core.parent? move.node with
    | none =>
      -- Only the node itself is reached, and it is no directory.
      have hnil : steps = [] := by
        by_contra hne
        have hsome := isSome_parentOf_of_descend hsteps hne
        rw [show parentOf s.core.shapes move.node = none from hparent] at hsome
        cases hsome
      rw [hnil] at hsteps
      obtain rfl : move.node = dir := some.inj hsteps
      refine ⟨fun heq ↦ ?_, fun heq ↦ ?_⟩
      · have hsome := hmove.target_directory
        rw [← heq, hparent] at hsome
        cases hsome
      · have hsome := hmove.source_directory
        rw [← heq, hparent] at hsome
        cases hsome
    | some above =>
      have hroot := (hs.tree.entry_parent _ _ _ _ hmove.source_entry hparent).1
      have hid : (s.core.parent? move.node).isSome := by rw [hparent]; rfl
      have havoids := hmove.avoids (hmove.directory_eq.trans hid)
      refine ⟨?_, ?_⟩
      · rintro rfl
        exact hs.tree.descend_ne_of_avoids hroot havoids steps hsteps
      · rintro rfl
        exact hs.tree.descend_ne_of_avoids hroot (hs.tree.avoids_holder hmove.source_entry hid) steps hsteps
  have he : (renamed env move s).entryNode dir name = s.entryNode dir name := by
    rw [entryNode_renamed hs hmove, if_neg fun h ↦ hholders.1 h.1, if_neg fun h ↦ hholders.2 h.1]
  rwa [entryNode_eq, entryNode_eq] at he

theorem descend_target (hs : s.core.Sound none) (hmove : move.Sound s) (path : List Bytes) :
    descend (renamed env move s).core.shapes move.target.parent (move.target.name :: path) =
      descend s.core.shapes move.source.parent (move.source.name :: path) := by
  have hsource : entryOf s.core.shapes move.source.parent move.source.name = some move.node :=
    hmove.source_entry
  have he : (renamed env move s).entryNode move.target.parent move.target.name = some move.node := by
    rw [entryNode_renamed hs hmove, if_pos ⟨rfl, rfl⟩]
  rw [entryNode_eq] at he
  have htarget : entryOf (renamed env move s).core.shapes move.target.parent move.target.name =
    some move.node := he
  rw [descend_cons, descend_cons, hsource, htarget]
  exact descend_renamed hs hmove path

end Files

/-! ## Renames in every run -/

namespace State

variable {s s' : State} {env : Env} {old new : Place} {node : ℕ}

/-- A path of names leads a walk that keeps a link at its end to where the names lead. -/
theorem resolve_names (hs : s.core.Sound none) {dir : ℕ} {parts : List Bytes} (hparts : parts ≠ [])
    (h : descend s.core.shapes dir parts = some id) (links : ℕ) :
    ∃ p, s.resolve .keep links dir (spelled parts) = .ok p ∧ p.node = some id := by
  obtain ⟨init, name, rfl⟩ := (List.eq_nil_or_concat' parts).resolve_left hparts
  obtain ⟨above, _, hresolve⟩ := resolve_spelled hs links (.inr (rfl : Last.replaces .keep [] = false)) h
  exact ⟨_, hresolve, rfl⟩

/-- What a rename of `old` to `new` does to the state. -/
structure Renamed (s s' : State) (old new : Place) (node : ℕ) : Prop where
  entry : ∀ dir name, s'.entryNode dir name =
    if dir = new.parent ∧ name = new.name then some node
    else if dir = old.parent ∧ name = old.name then none else s.entryNode dir name
  /-- What lay under the old name lies under the new one. -/
  descendants : ∀ path, descend s'.core.shapes new.parent (new.name :: path) =
    descend s.core.shapes old.parent (old.name :: path)
  resolves : ∀ path id, descend s.core.shapes node path = some id → ∀ links,
    (∃ place, s.resolve .keep links old.parent (spelled (old.name :: path)) = .ok place ∧
      place.node = some id) ∧
      ∃ place, s'.resolve .keep links new.parent (spelled (new.name :: path)) = .ok place ∧
        place.node = some id
  /-- What had the new name has a link less, and is there as long as something else refers to it. -/
  replaced : ∀ other before, new.node = some other → s.nodes[other]? = some before →
    (∀ after, s'.nodes[other]? = some after →
      after.links + 1 = before.links ∧ after.body = before.body) ∧
    (other ∈ s'.nodes ↔ 0 < s'.namings other + s'.handlesOn other + s'.mappingsOn other)
  frame : ∀ id, new.node ≠ some id → s'.nodes[id]?.map Node.holding = s.nodes[id]?.map Node.holding
  parents : ∀ id, new.node ≠ some id → s'.parentField id =
    if id = node then (s.parentField id).map fun _ ↦ new.parent else s.parentField id

theorem namings_pos {dir : ℕ} {name : Bytes} (he : s.entryNode dir name = some id) : 0 < s.namings id := by
  rw [← namings_core]
  refine Nat.pos_of_ne_zero fun hzero ↦ DirectoryTree.namings_eq_zero_iff.mp hzero dir name ?_
  rwa [entryNode_eq] at he

theorem renamed_of_move (h : s.Steady) (honest : env.Honest s) {move : Files.Move} (hmove : move.Sound s)
    (source target : Bytes) :
    Renamed s (Files.renamed env move s) move.source move.target move.node := by
  have hdeed : Deed env s (.rename source target) .done (Files.renamed env move s) := .rename hmove
  have hfinal := h.deed honest hdeed
  have hnames : ∀ j, move.target.node = some j → s.entryNode move.target.parent move.target.name =
    some j := by
    intro j hj
    rw [entryNode_eq, ← hmove.target_entry, hj]
  have hunrooted : ∀ j, move.target.node = some j → j ≠ root := by
    rintro _ hj rfl
    exact h.tree.root_unnamed _ _ (hnames root hj)
  refine ⟨Files.entryNode_renamed h.sound hmove, Files.descend_target h.sound hmove,
    fun path id hpath links ↦ ⟨?_, ?_⟩,
    fun j before hj hold ↦ ⟨fun after hnew ↦ ?_, ?_⟩, fun id hid ↦ ?_, fun id hid ↦
      Files.parentField_renamed hid⟩
  · refine resolve_names h.sound (List.cons_ne_nil _ _) ?_ links
    rw [descend_cons, show entryOf s.core.shapes move.source.parent move.source.name =
      some move.node from hmove.source_entry]
    exact hpath
  · refine resolve_names hfinal.sound (List.cons_ne_nil _ _) ?_ links
    rw [Files.descend_target h.sound hmove, descend_cons,
      show entryOf s.core.shapes move.source.parent move.source.name =
        some move.node from hmove.source_entry]
    exact hpath
  · have hlinks := h.tree.links_exact j before hold
    rw [if_neg (hunrooted j hj), Nat.add_zero] at hlinks
    have hnamed : 0 < s.namings j := namings_pos (hnames j hj)
    rw [Files.get_renamed_replaced hmove hj hold] at hnew
    split at hnew
    · cases hnew
    · obtain rfl := some.inj hnew
      refine ⟨?_, rfl⟩
      change before.links - 1 + 1 = before.links
      omega
  · rw [hfinal.mem_iff]
    exact or_iff_right (hunrooted j hj)
  · rw [Files.get_renamed_of_ne hid, map_map]
    congr 1
    funext x
    exact Files.Move.holding_shift id x

/-- A plan of a rename that succeeded for two different nodes is a move. -/
theorem plannedMove_of_ok {source target : Bytes} (hold : s.walk source .entry = .ok old)
    (hnode : old.node = some node)
    (hnew : s.walk target .entry = .ok new) (hj : new.node ≠ some node)
    (h : exec env (.rename source target) s = .ok .done s') :
    ∃ dir, Files.plannedMove source target s = .ok (some ⟨old, new, node, dir⟩) := by
  obtain ⟨_, hrename, _⟩ := map_eq_ok_iff.mp h
  obtain ⟨plan, middle, hplan, _⟩ := bind_eq_ok_iff.mp hrename
  obtain ⟨hplan, rfl⟩ := reading_eq_ok_iff.mp hplan
  rw [hplan]
  obtain ⟨_, ha, hplan⟩ := except_bind_eq_ok_iff.mp hplan
  obtain rfl := Except.ok.inj (hold.symm.trans ha)
  obtain ⟨_, hb, hplan⟩ := except_bind_eq_ok_iff.mp hplan
  obtain rfl := some.inj (hnode.symm.trans (Result.required_eq_ok_iff.mp hb))
  obtain ⟨_, hthird, hplan⟩ := except_bind_eq_ok_iff.mp hplan
  obtain rfl := Except.ok.inj (hnew.symm.trans hthird)
  split at hplan
  · cases hplan
  · obtain ⟨dir, _, hplan⟩ := except_bind_eq_ok_iff.mp hplan
    obtain ⟨_, _, hplan⟩ := except_bind_eq_ok_iff.mp hplan
    obtain ⟨_, _, hplan⟩ := except_bind_eq_ok_iff.mp hplan
    exact ⟨dir, by rw [← Except.ok.inj hplan]⟩

/-- A directory is not moved into itself. -/
theorem plannedMove_inside (hs : s.core.Sound none) {source target : Bytes}
    (hold : s.walk source .entry = .ok old) (hnode : old.node = some node)
    (hnew : s.walk target .entry = .ok new) (hdir : (s.parentField node).isSome) {path : List Bytes}
    (hinside : descend s.core.shapes node path = some new.parent) :
    Files.plannedMove source target s =
      .error (if old.name = [] ∨ new.name = [] then Error.busy else Error.invalidArgument) := by
  simp only [Files.plannedMove, hold, hnode, hnew, Result.required, bind, Except.bind, List.isEmpty_iff]
  split
  · rfl
  rename_i hnames
  obtain ⟨holdName, hnewName⟩ := not_or.mp hnames
  have htarget := walk_sound hs hnew
  have hid : (s.core.parent? node).isSome := by rwa [parentField_eq] at hdir
  have hsource : s.core.child? old.parent old.name = some node :=
    Files.entry_of_place (walk_sound hs hold) hnode holdName
  -- A directory with a name is not the root, so no way up that avoids it comes from inside it.
  obtain ⟨above, habove⟩ := isSome_iff_exists.mp hid
  have hroot : node ≠ root := (hs.tree.entry_parent _ _ _ _ hsource habove).1
  have hlow : ¬ Avoids s.core.parent? root node new.parent := fun havoids ↦
    hs.tree.descend_ne_of_avoids hroot havoids path hinside
  have hj : new.node ≠ some node := by
    intro hsame
    have he := Files.entry_of_place htarget hsame hnewName
    exact hlow (hs.tree.avoids_holder he hid)
  obtain ⟨body, hbody⟩ := exists_node_of_parent? hid
  have hkind : s.isDirectory node = .ok true := hid ▸ isDirectory_of_node hbody
  obtain ⟨n, hn, hlt⟩ := exists_climb hs htarget.parent_directory
  rcases refuseInside_cases hn hlt with ⟨_, havoids⟩ | hrefused
  · exact absurd havoids hlow
  · simp only [if_neg hj, hkind, Files.refuseLoop, if_true, hrefused]

/-- In every run a rename does what it is for, and one of a directory to a place inside it is
refused: as an invalid argument, or as busy if one of the two paths does not end in a name. -/
theorem rename_of_reachable (hreach : system.Reachable s) (honest : env.Honest s) {source target : Bytes}
    (hold : s.walk source .entry = .ok old) (hnode : old.node = some node)
    (hnew : s.walk target .entry = .ok new) :
    (∀ s', new.node ≠ some node → exec env (.rename source target) s = .ok .done s' →
      Renamed s s' old new node) ∧
    ∀ path, (s.parentField node).isSome → descend s.core.shapes node path = some new.parent →
      exec env (.rename source target) s =
        .error (if old.name = [] ∨ new.name = [] then Error.busy else Error.invalidArgument) s := by
  have h := steady_of_reachable hreach
  constructor
  · intro s' hother hrename
    obtain ⟨dir, hplan⟩ := plannedMove_of_ok hold hnode hnew hother hrename
    have hmove := (Files.plannedMove_yields h.ready source target).of_ok hplan _ rfl
    have hcommit : Files.rename env source target s =
      .ok () (Files.renamed env ⟨old, new, node, dir⟩ s) := by
      rw [Files.rename, bind_of_ok (reading_of_ok hplan)]
      exact Files.commitMove_eq env h.sound hmove
    have hdone : exec env (.rename source target) s =
        .ok .done (Files.renamed env ⟨old, new, node, dir⟩ s) := map_of_ok hcommit
    rw [hdone] at hrename
    cases hrename
    exact renamed_of_move h honest hmove source target
  · intro path hdir hinside
    have hplan := plannedMove_inside h.sound hold hnode hnew hdir hinside
    refine map_of_error ?_
    rw [Files.rename, bind_of_error (reading_of_error hplan)]

/-- A directory of the root gets another name of the root. -/
theorem rename_of_reachable_inhabited :
    ∃ s', exec (granting 8) (.rename [47, 97] [47, 98]) inhabited = .ok .done s' ∧
      Renamed inhabited s' ⟨root, [97], some 2, false⟩ ⟨root, [98], none, false⟩ 2 := by
  have hold : inhabited.walk [47, 97] .entry = .ok ⟨root, [97], some 2, false⟩ := rfl
  have hnew : inhabited.walk [47, 98] .entry = .ok ⟨root, [98], none, false⟩ := rfl
  obtain ⟨hmoved, _⟩ := rename_of_reachable reachable_inhabited
    (allowed_of_callable (show callable 8 (.rename [47, 97] [47, 98]) inhabited from rfl)).1 hold rfl hnew
  exact ⟨_, rfl, hmoved _ (by simp) rfl⟩

/-- A rename of the root to a name inside it is refused as busy, not as an invalid argument. -/
theorem root_into_itself_busy :
    system.Reachable inhabited ∧
      (∃ target, inhabited.walk [47, 98] .entry = .ok target ∧ target.parent = root) ∧
      exec (granting 8) (.rename [47] [47, 98]) inhabited = .error Error.busy inhabited :=
  ⟨reachable_inhabited, ⟨_, rfl, rfl⟩, rfl⟩

end State

end DotnetPal.Memfs
