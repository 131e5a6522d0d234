import DotnetPal.Memfs.Runs

/-!
# The tree, lifetimes, accounting and refusals over whole runs

The invariants of the core, read in the terms of the state: what the entries, handles and mappings of
any reachable state say about its nodes, what the bytes in use are, and what a refused call leaves.
-/

open Std

namespace DotnetPal.Memfs

open Programs Relation DirectoryTree Hierarchy OrderedMap

attribute [local instance] lexOrd

namespace State

variable {s s' : State} {env : Env} {call : Call} {reply : Reply} {id : ℕ}

/-! ## What a state holds -/

/-- The parent field of a directory. -/
def parentField (s : State) (id : ℕ) : Option ℕ :=
  s.nodes[id]?.bind fun node ↦ node.body.directory?.map Prod.fst

/-- The node an entry of a directory names. -/
def entryNode (s : State) (dir : ℕ) (name : Bytes) : Option ℕ :=
  s.nodes[dir]?.bind fun node ↦ node.body.directory?.bind fun found ↦ found.2[name]?

/-- The entries of one node that name `id`. -/
def entriesNaming (id : ℕ) (node : Node) : ℕ :=
  match node.body.directory? with
  | some (_, entries) => total (fun _ child ↦ if child = id then 1 else 0) entries
  | none => 0

/-- The entries of all directories that name a node. -/
def namings (s : State) (id : ℕ) : ℕ := total (fun _ node ↦ entriesNaming id node) s.nodes

/-- The open file handles on a node. -/
def handlesOn (s : State) (id : ℕ) : ℕ :=
  total (fun _ handle ↦ if handle.node? = some id then 1 else 0) s.handles

/-- The counts of the shared mapping records that name a node. -/
def mappingsOn (s : State) (id : ℕ) : ℕ :=
  total (fun _ mapped ↦ mapped.countOn id) s.mappings

/-- The bytes of all files in the table. -/
def contentBytes (s : State) : ℕ :=
  total (fun _ node ↦ (node.body.content?.map Content.len).getD 0) s.nodes

theorem namings_core (id : ℕ) : DirectoryTree.namings s.core.shapes id = s.namings id := by
  unfold DirectoryTree.namings namings
  rw [Core.shapes, total_map, core, total_map]
  congr 1
  funext _ node
  have hdir : node.kept.shape.directory = node.body.directory? := rfl
  unfold Shape.namings entriesNaming
  rw [hdir]
  cases node.body.directory? <;> rfl

theorem handlesOn_core (id : ℕ) : Core.handlesOn s.core.handles id = s.handlesOn id := by
  rw [Core.handlesOn, core, total_map]
  rfl

theorem contentBytes_core : total (fun _ part ↦ FilePart.size part) s.core.files = s.contentBytes := by
  rw [Core.files, total_map, core, total_map]
  rfl

/-! ## The tree -/

/-- The directories of a state form one tree below the root, and everything else hangs in it. -/
structure TreeInvariant (s : State) : Prop where
  root_directory : s.parentField root = some root
  entry_live : ∀ dir name id, s.entryNode dir name = some id → id ∈ s.nodes
  /-- A directory other than the root has exactly one entry, which is in the directory its parent field
  names. -/
  one_entry : ∀ id parent, s.parentField id = some parent → id ≠ root →
    ∃ name, s.entryNode parent name = some id ∧
      ∀ dir other, s.entryNode dir other = some id → dir = parent ∧ other = name
  root_unnamed : ∀ dir name, s.entryNode dir name ≠ some root
  /-- Following parents from any directory ends at the root. -/
  climbs : ∀ id, (s.parentField id).isSome → Climbs s.parentField root id
  links_exact : ∀ (id : ℕ) (node : Node), s.nodes[id]? = some node →
    node.links = s.namings id + if id = root then 1 else 0
  names_valid : ∀ dir name id, s.entryNode dir name = some id → ValidName name
  ids_below : ∀ id, id ∈ s.nodes → id < s.nextId

theorem parentField_eq : s.parentField = s.core.parent? := by
  funext id
  rw [parent?_core]
  rfl

theorem entryNode_eq (dir : ℕ) (name : Bytes) : s.entryNode dir name = s.core.child? dir name :=
  (child?_core dir name).symm

theorem Steady.tree (h : s.Steady) : s.TreeInvariant := by
  have htree := h.sound.tree
  constructor
  · rw [parentField_eq]
    exact htree.root_parent
  · intro dir name id he
    rw [entryNode_eq] at he
    obtain ⟨shape, hshape⟩ := htree.entry_live _ _ _ he
    rw [Core.get_shapes, get_core] at hshape
    cases hnode : s.nodes[id]? with
    | none => simp [hnode] at hshape
    | some node => exact mem_nodes_iff.mpr ⟨node, hnode⟩
  · intro id parent hparent hroot
    rw [parentField_eq] at hparent
    obtain ⟨name, hname⟩ := htree.has_name id parent hparent hroot (by simp)
    refine ⟨name, by rw [entryNode_eq]; exact hname, fun dir j hj ↦ ?_⟩
    rw [entryNode_eq] at hj
    have habove := (htree.entry_parent _ _ _ _ hj hparent).2
    subst habove
    exact ⟨rfl, htree.one_name _ _ _ _ hj hname
      (by rw [show parentOf s.core.shapes id = _ from hparent]; rfl)⟩
  · intro dir name he
    rw [entryNode_eq] at he
    exact (htree.entry_parent _ _ _ _ he htree.root_parent).1 rfl
  · rw [parentField_eq]
    exact htree.climbs
  · intro id node hnode
    rw [← namings_core]
    exact htree.links_exact id node.kept.shape (by rw [Core.get_shapes, get_core, hnode]; rfl)
  · intro dir name id he
    rw [entryNode_eq] at he
    exact htree.valid_names _ _ _ he
  · intro id hid
    obtain ⟨node, hnode⟩ := mem_nodes_iff.mp hid
    exact h.sound.below id node.kept.shape (by rw [Core.get_shapes, get_core, hnode]; rfl)

end State

/-! ## Ids -/

namespace Core

variable {core next : Core}

/-- Ids are given out in order, and none twice. -/
structure Ages (core next : Core) : Prop where
  nextId_le : core.nextId ≤ next.nextId
  fresh : ∀ id, id ∈ next.nodes → id ∈ core.nodes ∨ core.nextId ≤ id

theorem Ages.refl : core.Ages core := ⟨Nat.le_refl _, fun _ h ↦ .inl h⟩

theorem Ages.trans {last : Core} (a : core.Ages next) (b : next.Ages last) : core.Ages last := by
  refine ⟨a.nextId_le.trans b.nextId_le, fun id hid ↦ ?_⟩
  rcases b.fresh id hid with hid | hid
  · exact a.fresh id hid
  · exact .inr (a.nextId_le.trans hid)

/-- No node appears and no id is given out. -/
theorem Ages.of_subset (hnext : next.nextId = core.nextId)
    (hnodes : ∀ id, id ∈ next.nodes → id ∈ core.nodes) :
    core.Ages next := ⟨hnext.ge, fun id hid ↦ .inl (hnodes id hid)⟩

theorem Ages.modifyNode (h : core.Ages next) (id : ℕ) (change : Kept → Kept) :
    core.Ages (next.modifyNode id change) :=
  ⟨h.nextId_le, fun j hj ↦ h.fresh j (ExtTreeMap.mem_modify.mp hj)⟩

theorem Ages.reaped (h : core.Ages next) (id : ℕ) : core.Ages (next.reaped id) := by
  refine h.trans ?_
  unfold Core.reaped
  split
  · exact .refl
  · split
    · exact .of_subset rfl fun j hj ↦ ExtTreeMap.mem_of_mem_erase hj
    · exact .refl

theorem Ages.lessened (key : ℕ × ℕ) (id n : ℕ) : core.Ages (core.lessened key id n) := by
  unfold Core.lessened
  split <;> exact ⟨Nat.le_refl _, fun _ h ↦ .inl h⟩

theorem Ages.of_step (hstep : core.Step next) : core.Ages next := by
  have hsame : ∀ id change, core.Ages (core.modifyNode id change) := fun id change ↦
    Ages.refl.modifyNode id change
  cases hstep with
  | @attach parent name body _ _ _ _ =>
    refine ⟨Nat.le_succ _, fun id hid ↦ ?_⟩
    rcases ExtTreeMap.mem_insert.mp hid with hid | hid
    · exact .inr (Std.compare_eq_iff_eq.mp hid).le
    · exact .inl (ExtTreeMap.mem_modify.mp hid)
  | detach _ _ => exact ((hsame _ _).modifyNode _ _).reaped _
  | move _ _ _ _ _ => exact ((hsame _ _).modifyNode _ _).modifyNode _ _
  | link _ _ _ _ _ => exact (hsame _ _).modifyNode _ _
  | openFile _ _ => exact (hsame _ _).trans (.of_subset rfl fun _ h ↦ h)
  | @close addr _ _ =>
    have hdropped : core.Ages (core.withoutHandle addr) := .of_subset rfl fun _ h ↦ h
    exact (hdropped.modifyNode _ _).reaped _
  | box | unbox => exact .of_subset rfl fun _ h ↦ h
  | edit _ _ _ => exact (hsame _ _).trans (.of_subset rfl fun _ h ↦ h)
  | work | setCapacity => exact .of_subset rfl fun _ h ↦ h
  | @mapShared start length id n _ pages _ _ _ _ _ _ =>
    have hrecord : core.Ages ((core.modifyNode id (Kept.withContent (.pinned pages))).withMapping
        (pages.base + start, length) (.shared id (n + 1))) := (hsame _ _).trans (.of_subset rfl fun _ h ↦ h)
    exact hrecord.modifyNode _ _
  | mapPrivate _ _ _ => exact .of_subset rfl fun _ h ↦ h
  | unmapShared _ => exact ((Ages.lessened _ _ _).modifyNode _ _).reaped _
  | unmapPrivate _ => exact .of_subset rfl fun _ h ↦ h
  | storeShared _ _ _ => exact hsame _ _
  | storePrivate _ => exact .of_subset rfl fun _ h ↦ h

theorem Ages.of_steps (hsteps : ReflTransGen Step core next) : core.Ages next := by
  induction hsteps with
  | refl => exact .refl
  | tail _ hstep ih => exact ih.trans (.of_step hstep)

end Core

namespace State

variable {s s' : State} {env : Env} {call : Call} {reply : Reply} {id : ℕ}

/-- What a call that a run takes does: its deed, or nothing but giving up a lock. -/
theorem Steady.step_cases (h : s.Steady) (hstep : system.step s s') :
    ∃ env call, env.Honest s ∧ call.Trusted s ∧
      ((∃ reply, exec env call s = .ok reply s' ∧ Deed env s call reply s') ∨
        ∃ error : Error, exec env call s = .error error s' ∧
          (s' = s ∨ ∃ file mode wait, call = .lock file mode wait ∧ GaveUp s file s')) := by
  obtain ⟨env, call, honest, htrusted, rfl⟩ := hstep
  rw [h.acquire_eq]
  refine ⟨env, call, honest, htrusted, ?_⟩
  rcases exec_cases h.ready honest htrusted with ⟨reply, s', hrun, hdeed⟩ | ⟨error, s', hrun, hfinal⟩
  · rw [after_of_ok hrun]
    exact .inl ⟨reply, hrun, hdeed⟩
  · rw [after_of_error hrun]
    exact .inr ⟨error, hrun, hfinal⟩

theorem Steady.ages (h : s.Steady) (hstep : system.step s s') : s.core.Ages s'.core := by
  obtain ⟨env, call, honest, _,
    ⟨reply, _, hdeed⟩ | ⟨error, _, rfl | ⟨file, mode, wait, _, hgave⟩⟩⟩ := h.step_cases hstep
  · exact .of_steps (hdeed.core_steps h.sound honest)
  · exact .refl
  · rw [GaveUp.core_eq hgave]
    exact .refl

theorem ages_of_run (hreach : system.Reachable s) (hrun : ReflTransGen system.step s s') :
    s.core.Ages s'.core := by
  induction hrun with
  | refl => exact .refl
  | tail hold hstep ih => exact ih.trans ((steady_of_reachable (hreach.of_run hold)).ages hstep)

theorem mem_core (id : ℕ) : id ∈ s.core.nodes ↔ id ∈ s.nodes := by
  rw [ExtTreeMap.mem_iff_isSome_getElem?, ExtTreeMap.mem_iff_isSome_getElem?, get_core, Option.isSome_map]

/-- In every reachable state the directories form one tree with exact link counts, and an id that was
given out and is no longer live stays so. -/
theorem tree_of_reachable (hreach : system.Reachable s) :
    s.TreeInvariant ∧ ∀ s', ReflTransGen system.step s s' →
      ∀ id, id < s.nextId → id ∉ s.nodes → id ∉ s'.nodes := by
  refine ⟨(steady_of_reachable hreach).tree, fun s' hrun id hbelow hgone hid ↦ ?_⟩
  rcases (ages_of_run hreach hrun).fresh id ((mem_core id).mpr hid) with hlive | habove
  · exact hgone ((mem_core id).mp hlive)
  · exact absurd hbelow (Nat.not_lt.mpr habove)

/-- The file has two names, and the directory that was removed does not come back. -/
theorem tree_of_reachable_populated :
    system.Reachable populated ∧ populated.TreeInvariant ∧ populated.namings 4 = 2 ∧
    ∀ s', ReflTransGen system.step populated s' → 6 ∉ s'.nodes := by
  obtain ⟨htree, hgone⟩ := tree_of_reachable reachable_populated
  exact ⟨reachable_populated, htree, rfl, fun s' hrun ↦ hgone s' hrun 6 (by decide) (by decide)⟩

/-! ## Lifetimes -/

theorem exists_file_of_content? (h : (s.core.content? id).isSome) :
    ∃ node c, s.nodes[id]? = some node ∧ node.body = .file c := by
  obtain ⟨c, hc⟩ := Option.isSome_iff_exists.mp h
  obtain ⟨node, hnode, hbody⟩ := exists_node_of_content? hc
  exact ⟨node, c, hnode, hbody⟩

variable {node : Node}

theorem Steady.counts (h : s.Steady) (hnode : s.nodes[id]? = some node) :
    node.opens = s.handlesOn id ∧ node.maps = s.mappingsOn id := by
  have hpart : s.core.files[id]? = some node.kept.filePart := by
    rw [Core.get_files, get_core, hnode]
    rfl
  rw [← handlesOn_core]
  exact ⟨h.sound.life.opens_exact id _ hpart, h.sound.life.maps_exact id _ hpart⟩

theorem exists_shared (h : 0 < s.mappingsOn id) :
    ∃ (key : ℕ × ℕ) (n : ℕ), s.mappings[key]? = some (.shared id n) := by
  obtain ⟨key, mapped, hmapping, hn⟩ := exists_of_total_pos _ _ h
  cases mapped with
  | privateCopy memory => simp [Mapped.countOn] at hn
  | shared node n =>
    have hsame : node = id := by
      by_contra hne
      simp [Mapped.countOn, hne] at hn
    exact ⟨key, n, hsame ▸ hmapping⟩

/-- What an entry, a handle or a mapping refers to is in the table. -/
theorem Steady.mem_of_referred (h : s.Steady) (hpos : 0 < s.namings id + s.handlesOn id + s.mappingsOn id) :
    id ∈ s.nodes := by
  have hfile : (s.core.content? id).isSome → id ∈ s.nodes := by
    intro hsome
    obtain ⟨node, c, hnode, _⟩ := exists_file_of_content? hsome
    exact mem_nodes_iff.mpr ⟨node, hnode⟩
  rcases Nat.eq_zero_or_pos (s.namings id) with hnone | hnamed
  · rcases Nat.eq_zero_or_pos (s.handlesOn id) with hshut | hopen
    · have hmapped : 0 < s.mappingsOn id := by omega
      obtain ⟨key, n, hmapping⟩ := exists_shared hmapped
      exact hfile (h.sound.life.mapping_file key id n hmapping).2
    · obtain ⟨addr, handle, hhandle, hn⟩ := exists_of_total_pos _ _ hopen
      have hnode : handle.node? = some id := by
        by_contra hne
        simp [hne] at hn
      exact hfile
        (h.sound.life.handle_file addr id (by rw [get_core_handles, hhandle, Option.map_some, hnode]))
  · have hne : DirectoryTree.namings s.core.shapes id ≠ 0 := by
      rw [namings_core]
      omega
    by_contra hgone
    refine hne (DirectoryTree.namings_eq_zero_iff.mpr fun dir name he ↦ hgone ?_)
    exact h.tree.entry_live dir name id (by rw [entryNode_eq]; exact he)

/-- A node is there as long as something refers to it. -/
theorem Steady.held (h : s.Steady) (hnode : s.nodes[id]? = some node) :
    id = root ∨ 0 < node.links + node.opens + node.maps := by
  rcases h.sound.held id node.kept (by rw [get_core, hnode]; rfl) with hroot | hloose | hpos
  · exact .inl hroot
  · cases hloose
  · exact .inr hpos

theorem Steady.mem_iff (h : s.Steady) :
    id ∈ s.nodes ↔ id = root ∨ 0 < s.namings id + s.handlesOn id + s.mappingsOn id := by
  constructor
  · intro hid
    obtain ⟨node, hnode⟩ := mem_nodes_iff.mp hid
    by_cases hroot : id = root
    · exact .inl hroot
    · have hpos := (h.held hnode).resolve_left hroot
      have hlinks := h.tree.links_exact id node hnode
      rw [if_neg hroot] at hlinks
      rw [(h.counts hnode).1, (h.counts hnode).2, hlinks] at hpos
      exact .inr hpos
  · rintro (rfl | hpos)
    · exact mem_of_parent? (by rw [← parentField_eq, h.tree.root_directory]; rfl)
    · exact h.mem_of_referred hpos

/-- In every reachable state the counts of a node are exact, a node is there exactly as long as it is
the root or something refers to it, and handles and shared mappings are of files. -/
theorem lifetimes_of_reachable (hreach : system.Reachable s) :
    (∀ (id : ℕ) (node : Node), s.nodes[id]? = some node →
      node.opens = s.handlesOn id ∧ node.maps = s.mappingsOn id ∧
        (id = root ∨ 0 < node.links + node.opens + node.maps)) ∧
    (∀ id, id ∈ s.nodes ↔ id = root ∨ 0 < s.namings id + s.handlesOn id + s.mappingsOn id) ∧
    (∀ (addr id : ℕ) (access : UInt32), s.handles[addr]? = some (.file id access) →
      ∃ node content, s.nodes[id]? = some node ∧ node.body = .file content) ∧
    (∀ (key : ℕ × ℕ) (id count : ℕ), s.mappings[key]? = some (.shared id count) →
      ∃ node content, s.nodes[id]? = some node ∧ node.body = .file content) := by
  have h := steady_of_reachable hreach
  refine ⟨fun id node hnode ↦ ⟨(h.counts hnode).1, (h.counts hnode).2, h.held hnode⟩,
    fun id ↦ h.mem_iff, ?_, ?_⟩
  · intro addr id access hhandle
    exact exists_file_of_content?
      (h.sound.life.handle_file addr id (by rw [get_core_handles, hhandle]; rfl))
  · intro key id count hmapping
    exact exists_file_of_content? (h.sound.life.mapping_file key id count hmapping).2

/-- The file that lost its name is there as long as its handle. -/
theorem lifetimes_of_reachable_populated : system.Reachable populated ∧ populated.namings 5 = 0 ∧
    populated.handlesOn 5 = 1 ∧ 5 ∈ populated.nodes ∧ 6 ∉ populated.nodes := by
  obtain ⟨_, hthere, _⟩ := lifetimes_of_reachable reachable_populated
  exact ⟨reachable_populated, rfl, rfl, (hthere 5).mpr (.inr (by decide)), fun hmem ↦
    absurd ((hthere 6).mp hmem) (by decide)⟩

/-! ## Accounting -/

theorem used_reaped_le (id : ℕ) : (s.reaped id).used ≤ s.used := by
  unfold reaped
  split
  · exact Nat.le_refl _
  · split
    · dsimp only
      split
      · exact Nat.sub_le _ _
      · exact Nat.le_refl _
    · exact Nat.le_refl _

theorem used_applyIf {condition : Prop} [Decidable condition] {change : State → State}
    (h : (change s).used = s.used) : (applyIf condition change s).used = s.used := by
  unfold applyIf
  split
  · exact h
  · rfl

theorem used_unlinked_le (env : Env) (id : ℕ) (counted : Bool) :
    (s.unlinked env id counted).used ≤ s.used := by
  unfold unlinked
  refine (used_reaped_le id).trans ?_
  rw [used_applyIf rfl, used_applyIf rfl]
  exact Nat.le_refl _

/-- A change of content stays within the capacity where it grows the file. -/
theorem used_changed_le (h : s.Steady) {c new : Content} {bytes : Bytes}
    (hnode : s.nodes[id]? = some node) (hbody : node.body = .file c) (told : Bool)
    (hedited : Content.Edited c (s.capacity - s.used) (node.maps ≠ 0) bytes new) :
    (s.changed env id told c new).used ≤ max s.used s.capacity := by
  have hle : c.len ≤ s.used := h.sound.accounted.len_le (content?_of_node hnode hbody)
  have hgrown := hedited.grown
  have hused : (s.changed env id told c new).used = s.used - c.len + new.len := by
    unfold changed
    rw [used_applyIf rfl]
    rfl
  rw [hused]
  omega

theorem used_of_opening_le (h : s.Steady) {flags mode : UInt32} {middle : State}
    (hopening : Opening env s flags mode id middle) : middle.used ≤ max s.used s.capacity := by
  cases hopening with
  | found _ _ => exact Nat.le_max_left _ _
  | truncated hnode hbody _ hedited => exact used_changed_le h hnode hbody false hedited
  | created _ => exact Nat.le_max_left _ _

theorem used_renamed_le (env : Env) (move : Files.Move) : (Files.renamed env move s).used ≤ s.used := by
  have hreentered : (Files.reentered env move s).used = s.used := rfl
  change (Files.replaced env move.target.node (Files.reentered env move s)).used ≤ s.used
  unfold Files.replaced
  split
  · exact hreentered ▸ used_unlinked_le ..
  · exact hreentered.le

theorem Steady.used_of_deed_le (h : s.Steady) (hdeed : Deed env s call reply s') :
    s'.used ≤ max s.used s.capacity := by
  have hsame : s.used ≤ max s.used s.capacity := Nat.le_max_left _ _
  cases hdeed with
  | quiet _ => exact hsame
  | openFile hopening =>
    have hmiddle := used_of_opening_le h hopening
    exact hmiddle
  | close _ => exact (used_reaped_le _).trans hsame
  | readAt _ _ => exact (used_applyIf rfl).le.trans hsame
  | writeAt _ hnode hbody hedited => exact used_changed_le h hnode hbody _ hedited
  | setSize _ hnode hbody hedited => exact used_changed_le h hnode hbody _ hedited
  | remove _ _ _ _ => exact (used_unlinked_le ..).trans hsame
  | rename _ => exact (used_renamed_le ..).trans hsame
  | create | link | openDirectory | readDirectory | closeDirectory | attributes | work | locks | openWatcher
  | closeWatcher | addWatch | removeWatch | look | mapShared | mapPrivate => exact hsame
  | unmapShared _ =>
    refine (used_reaped_le _).trans (Nat.le_trans ?_ hsame)
    split <;> exact Nat.le_refl _
  | unmapPrivate | setCapacity | storeShared | storePrivate => exact hsame

/-- In every reachable state the bytes in use are the bytes of all files in the table; no call takes
the counter below zero, and none takes it above the capacity unless it was there. -/
theorem used_of_reachable (hreach : system.Reachable s) : s.used = s.contentBytes ∧
    ∀ env call, env.Honest s → call.Trusted s → (∀ s', exec env call s ≠ .error .panic s') ∧
      ((∀ bytes, call ≠ .setCapacity bytes) → (after (exec env call) s).used ≤ max s.used s.capacity) := by
  have h := steady_of_reachable hreach
  refine ⟨h.sound.accounted.trans contentBytes_core, fun env call honest htrusted ↦ ?_⟩
  have hsame : s.used ≤ max s.used s.capacity := Nat.le_max_left _ _
  refine ⟨fun other hpanic ↦ ?_, fun _ ↦
    h.after_of_deed honest htrusted h.used_of_deed_le hsame fun hgave ↦ ?_⟩
  · rcases exec_cases h.ready honest htrusted with ⟨_, _, hrun, _⟩ | ⟨_, _, hrun, _⟩ <;>
    · rw [hrun] at hpanic
      cases hpanic
  · exact (congrArg Core.used (GaveUp.core_eq hgave)).le.trans hsame

/-- Two zeros and the byte that was written after them. -/
theorem used_of_reachable_populated : system.Reachable populated ∧ populated.used = 3 ∧
    populated.used = populated.contentBytes :=
  ⟨reachable_populated, rfl, (used_of_reachable reachable_populated).1⟩

/-! ## Refusals -/

/-- The changes that the calls on the tree make once all their checks have passed. -/
inductive Committing (env : Env) (s : State) : Op Unit → Prop
  | remove {path removal} : Files.removal path s = .ok removal →
      Committing env s (Files.commitRemoval env removal true Watches.delete)
  | removeDirectory {path removal} : Files.directoryRemoval path s = .ok removal →
      Committing env s (Files.commitRemoval env removal false (Watches.delete ||| Watches.directory))
  | rename {source target move} : Files.plannedMove source target s = .ok (some move) →
      Committing env s (Files.commitMove env move)
  | link {existing created linking} : Files.linking existing created s = .ok linking →
      Committing env s (Files.commitLinking env linking)
  | createDirectory {path place mode} : Files.newDirectory path s = .ok place →
      Committing env s ((fun _ ↦ ()) <$> create env place mode (.directory place.parent ∅))
  | symlink {target created place} : s.vacant created = .ok place →
      Committing env s ((fun _ ↦ ()) <$> create env place 0o777 (.link target))
  | openFile {path place flags mode} :
      s.walk path (if flags &&& Files.exclusive ≠ 0 then .create else .follow) = .ok place →
        place.node = none →
      Committing env s ((fun _ ↦ ()) <$> create env place mode (.file (.plain Vec.empty)))

/-- Once its checks have passed a call on the tree does not fail. -/
theorem Committing.returns (h : s.Steady) {commit : Op Unit} (hcommit : Committing env s commit) :
    ∃ s', commit s = .ok () s' := by
  have hcreate : ∀ {p : Place} (mode : UInt32) (body : Body), p.Free s →
      ∃ s', ((fun _ ↦ ()) <$> create env p mode body : Op Unit) s = .ok () s' := by
    intro p mode body hfree
    have hbelow : p.parent ≠ s.nextId := Nat.ne_of_lt (h.sound.parent_below hfree.parent_directory)
    refine ⟨s.created env p mode body, ?_⟩
    change EStateM.map _ _ _ = _
    simp only [EStateM.map, create_eq env mode body hfree.parent_directory hbelow]
  have hremove : ∀ {removal : Files.Removal} (counted : Bool) (kinds : UInt32),
      s.core.child? removal.place.parent removal.place.name = some removal.node →
      ∃ s', Files.commitRemoval env removal counted kinds s = .ok () s' := by
    intro removal counted kinds he
    exact ⟨_, Files.commitRemoval_eq env counted kinds (isSome_parentOf_of_entryOf he)
      (Files.mem_of_child? h.sound he) h.sound.accounted⟩
  cases hcommit with
  | remove hremoval => exact hremove _ _ ((Files.removal_yields h.ready _).of_ok hremoval).1
  | removeDirectory hremoval =>
    exact hremove _ _ ((Files.directoryRemoval_yields h.ready _).of_ok hremoval).1
  | rename hmove =>
    exact ⟨_, Files.commitMove_eq env h.sound ((Files.plannedMove_yields h.ready _ _).of_ok hmove _ rfl)⟩
  | link hlinking =>
    obtain ⟨hfree, hmem, _⟩ := (Files.linking_yields h.ready _ _).of_ok hlinking
    exact ⟨_, Files.commitLinking_eq env hfree.parent_directory hmem⟩
  | createDirectory hp => exact hcreate _ _ ((Files.newDirectory_yields h.ready _).of_ok hp)
  | symlink hp => exact hcreate _ _ ((vacant_yields h.sound _).of_ok hp)
  | openFile hwalk hnode => exact hcreate _ _ ((walk_sound h.sound hwalk).free hnode)

/-- A call that fails in a reachable state leaves everything as it was, except that a refused
lock on a whole file gives up the lock its handle had on it. No call on the tree fails once its
checks passed. -/
theorem refusal_of_reachable (hreach : system.Reachable s) (honest : env.Honest s)
    (htrusted : call.Trusted s) :
    (∀ fault s', exec env call s = .error fault s' → s' = s ∨
        ∃ file mode wait id granted node locks, call = .lock file mode wait ∧
          s.handles[file]? = some (.file id granted) ∧ s.nodes[id]? = some node ∧
          s' = s.modifyNode id (Node.withLocks locks) ∧
          locks.data.Perm (node.locks.data.filter fun held ↦ !(held.owner == file && held.whole))) ∧
    ∀ commit, Committing env s commit → ∃ s', commit s = .ok () s' := by
  have h := steady_of_reachable hreach
  refine ⟨fun fault s' hrun ↦ ?_, fun commit ↦ Committing.returns h⟩
  rcases exec_cases h.ready honest htrusted with ⟨reply, other, hother, _⟩ | ⟨error, other, hother, hfinal⟩
  · rw [hother] at hrun
    cases hrun
  · rw [hother] at hrun
    cases hrun
    rcases hfinal with rfl | ⟨file, mode, wait, hcall, hgave⟩
    · exact .inl rfl
    · obtain ⟨id, granted, node, locks, given, hhandle, hnode, hfinal, hperm⟩ := hgave.given
      rw [(h.locked id node hnode).carved_whole] at hperm
      exact .inr ⟨file, mode, wait, id, granted, node, locks, hcall, hhandle, hnode, hfinal, hperm⟩

/-- Every call in a reachable state does its deed or refuses; none runs on. -/
theorem deed_of_reachable (hreach : system.Reachable s) (honest : env.Honest s)
    (htrusted : call.Trusted s) :
    (∃ reply s', exec env call s = .ok reply s' ∧ Deed env s call reply s') ∨
      ∃ error : Error, ∃ s', exec env call s = .error error s' := by
  refine (exec_cases (steady_of_reachable hreach).ready honest htrusted).imp_right ?_
  rintro ⟨error, s', hrun, _⟩
  exact ⟨error, s', hrun⟩

/-- A directory does not go into itself, and a handle that asks in vain for the other mode of its
lock has none any more. -/
theorem refusal_of_reachable_populated :
    exec (granting 40) (.rename [47, 97] [47, 97, 47, 98])
      populated = .error Error.invalidArgument populated ∧
    (∀ commit, Committing (granting 40) populated commit → ∃ s', commit populated = .ok () s') ∧
    (∃ node, populated.nodes[4]? = some node ∧ node.locks.data.length = 2) ∧
    ∃ locks, exec (granting 40) (.lock 8 .exclusive false) populated =
        .error Error.wouldBlock (populated.modifyNode 4 (Node.withLocks locks)) ∧
          locks.data.length = 1 := by
  have hallowed := allowed_of_callable (show callable 40 (.lock 8 .exclusive false) populated from rfl)
  have hrefused := refusal_of_reachable reachable_populated hallowed.1 hallowed.2
  have hlock : exec (granting 40) (.lock 8 .exclusive false) populated = .error Error.wouldBlock _ := rfl
  refine ⟨rfl, hrefused.2, ⟨_, rfl, rfl⟩, ?_⟩
  rcases hrefused.1 _ _ hlock with hsame | ⟨_, _, _, _, _, _, locks, hcall, hhandle, hnode, hfinal, hperm⟩
  · have hlocks := congrArg (fun s : State ↦ s.nodes[4]?.map (·.locks.data.length)) hsame
    cases hlocks
  · cases hcall
    cases hhandle
    cases hnode
    exact ⟨locks, hlock.trans (congrArg _ hfinal), hperm.length_eq⟩

/-- A byte is written over the file's first. -/
theorem deed_of_reachable_populated :
    ∃ reply s', exec (granting 40) (.writeAt 8 0 [1]) populated = .ok reply s' ∧
    Deed (granting 40) populated (.writeAt 8 0 [1]) reply s' := by
  have hallowed := allowed_of_callable (show callable 40 (.writeAt 8 0 [1]) populated from rfl)
  refine (deed_of_reachable reachable_populated hallowed.1 hallowed.2).resolve_right ?_
  rintro ⟨error, s', hrefused⟩
  cases hrefused

end State

end DotnetPal.Memfs
