import DotnetPal.Memfs.Attending

/-!
# What holds in every reachable state

`State.Steady` holds at the start and is kept by every call, whether it returns or is refused. What
the calls rely on is part of it, so every call of a run does its deed or refuses.
-/

open Std

namespace DotnetPal.Memfs

open Programs Relation DirectoryTree Hierarchy OrderedMap Node

attribute [local instance] lexOrd

/-! ## The start -/

namespace State

/-- The state the first call finds. -/
def first : State := static.acquire

theorem nodes_first : first.nodes = (∅ : ExtTreeMap ℕ Node).insert root rootNode := rfl

theorem get_first_core (id : ℕ) :
    first.core.nodes[id]? = if root = id then some rootNode.kept else none := by
  rw [get_core, nodes_first, get_insert]
  split <;> simp

theorem parent?_first (id : ℕ) : first.core.parent? id = if root = id then some root else none := by
  rw [Core.parent?, parentOf, Core.get_shapes, get_first_core]
  split <;> rfl

theorem child?_first (dir : ℕ) (name : Bytes) : first.core.child? dir name = none := by
  rw [Core.child?, entryOf, Core.get_shapes, get_first_core]
  split
  · simp [Kept.shape, rootNode, kept, Shape.entry, Body.directory?]
  · rfl

theorem content?_first (id : ℕ) : first.core.content? id = none := by
  rw [Core.content?, Core.get_files, get_first_core]
  split <;> rfl

theorem entryOf_first_ne (dir : ℕ) (name : Bytes) (id : ℕ) :
    entryOf first.core.shapes dir name ≠ some id := by
  intro he
  have hnone := child?_first dir name
  rw [Core.child?, he] at hnone
  cases hnone

theorem tree_first : Tree root ValidName none first.core.shapes where
  root_parent := (parent?_first root).trans (if_pos rfl)
  entry_live := fun dir name id he ↦ (entryOf_first_ne dir name id he).elim
  entry_parent := fun dir name id _ he ↦ (entryOf_first_ne dir name id he).elim
  one_name := fun dir name _ id he ↦ (entryOf_first_ne dir name id he).elim
  has_name := by
    intro id above hparent hroot
    have hnone := parent?_first id
    rw [Core.parent?, hparent, if_neg (Ne.symm hroot)] at hnone
    cases hnone
  loose_unnamed := fun id hloose ↦ nomatch hloose
  climbs := by
    intro id hid
    rw [show parentOf first.core.shapes id = _ from parent?_first id] at hid
    split at hid
    · rename_i hroot
      exact hroot ▸ .root
    · cases hid
  links_exact := by
    intro id shape hshape
    have hnamings : namings first.core.shapes id = 0 := namings_eq_zero_iff.mpr fun _ _ ↦
      entryOf_first_ne _ _ id
    rw [Core.get_shapes, get_first_core] at hshape
    split at hshape
    · rename_i hroot
      cases hshape
      rw [hnamings, if_pos hroot.symm]
      rfl
    · cases hshape
  valid_names := fun dir name id he ↦ (entryOf_first_ne dir name id he).elim

theorem sound_first : first.core.Sound none where
  tree := tree_first
  below := by
    intro id shape hshape
    rw [Core.get_shapes, get_first_core] at hshape
    split at hshape
    · rename_i hroot
      rw [← hroot]
      exact Nat.lt_succ_self _
    · cases hshape
  working_below := Nat.lt_succ_self _
  working_directory := fun _ _ ↦ by rw [show first.core.working = root from rfl, parent?_first]; rfl
  held := by
    intro id kept hkept
    rw [get_first_core] at hkept
    split at hkept
    · rename_i hroot
      exact .inl hroot.symm
    · cases hkept
  life := by
    constructor
    · intro id part hpart
      rw [Core.get_files, get_first_core] at hpart
      split at hpart <;> cases hpart
      exact (total_empty _).symm
    · intro id part hpart
      rw [Core.get_files, get_first_core] at hpart
      split at hpart <;> cases hpart
      exact (total_empty _).symm
    · intro addr id hhandle
      rw [get_core_handles, show first.handles = ∅ from rfl] at hhandle
      simp at hhandle
    · intro key id n hmapping
      rw [show first.core.mappings = ∅ from rfl] at hmapping
      simp at hmapping
  accounted := by
    refine ((total_eq_zero_iff _ _).mpr fun id part hpart ↦ ?_).symm
    rw [Core.get_files, get_first_core] at hpart
    split at hpart <;> cases hpart
    rfl
  memory := by
    have hblock : ∀ owner, first.core.block owner = none := by
      intro owner
      rw [Mappings.block_core]
      cases owner with
      | node id =>
        have hget : first.nodes[id]? = if root = id then some rootNode else none := by
          rw [nodes_first, get_insert]
          split <;> simp
        rw [block, hget]
        split <;> rfl
      | copy key => simp [block, show first.mappings = ∅ from rfl]
    constructor
    · intro id c hc
      rw [content?_first] at hc
      cases hc
    · intro addr length id n hmapping
      rw [show first.core.mappings = ∅ from rfl] at hmapping
      simp at hmapping
    · intro addr length memory hmapping
      rw [show first.core.mappings = ∅ from rfl] at hmapping
      simp at hmapping
    · intro one other left right _ hleft
      rw [hblock] at hleft
      cases hleft

/-! ## Cursors -/

variable {s s' : State} {env : Env} {call : Call} {reply : Reply}

/-- A directory that is being read is read no further than its end. -/
def Cursors (s : State) : Prop := ∀ (addr : ℕ) (listing : Bytes) (next : ℕ),
  s.handles[addr]? = some (.directory listing next) → next ≤ listing.length

theorem Cursors.of_eq (h : s.Cursors) (hhandles : s'.handles = s.handles) : s'.Cursors := by
  intro addr listing next hhandle
  rw [hhandles] at hhandle
  exact h addr listing next hhandle

theorem Cursors.addHandle (h : s.Cursors) (addr : ℕ) {handle : Handle}
    (hnew : ∀ listing next, handle = .directory listing next → next ≤ listing.length) :
    (s.addHandle addr handle).Cursors := by
  intro j listing next hhandle
  rcases insert_cases hhandle with ⟨_, hhandle⟩ | ⟨_, hhandle⟩
  · exact hnew listing next hhandle
  · exact h j listing next hhandle

theorem Cursors.dropHandle (h : s.Cursors) (addr : ℕ) : (s.dropHandle addr).Cursors := by
  intro j listing next hhandle
  rw [State.dropHandle] at hhandle
  exact h j listing next (get_of_erase hhandle).2

variable {id : ℕ}

/-- A node that is still there after the check is the one there was. -/
theorem get_of_reaped {j : ℕ} {node : Node} (h : (s.reaped id).nodes[j]? = some node) :
    s.nodes[j]? = some node := by
  unfold reaped at h
  split at h
  · exact h
  · split at h
    · exact (get_of_erase h).2
    · exact h

/-- Nodes may go and entries and times may change; locks, contents, handles and mappings stay. -/
structure Frame (s s' : State) : Prop where
  nodes : ∀ (id : ℕ) (node : Node), s'.nodes[id]? = some node →
    ∃ old, s.nodes[id]? = some old ∧ node.locks = old.locks ∧ node.body.content? = old.body.content?
  handles : s'.handles = s.handles
  mappings : s'.mappings = s.mappings
  nextId : s'.nextId = s.nextId

namespace Frame

variable {middle : State}

theorem of_eq (hnodes : s'.nodes = s.nodes) (hhandles : s'.handles = s.handles)
    (hmappings : s'.mappings = s.mappings) (hnext : s'.nextId = s.nextId) : s.Frame s' :=
  ⟨fun _ node hnode ↦ ⟨node, hnodes ▸ hnode, rfl, rfl⟩, hhandles, hmappings, hnext⟩

theorem refl (s : State) : s.Frame s := .of_eq rfl rfl rfl rfl

theorem trans (a : s.Frame middle) (b : middle.Frame s') : s.Frame s' where
  nodes := by
    intro id node hnode
    obtain ⟨between, hbetween, hlocks, hc⟩ := b.nodes id node hnode
    obtain ⟨old, hold, ha, hbefore⟩ := a.nodes id between hbetween
    exact ⟨old, hold, hlocks.trans ha, hc.trans hbefore⟩
  handles := b.handles.trans a.handles
  mappings := b.mappings.trans a.mappings
  nextId := b.nextId.trans a.nextId

variable (h : s.Frame middle)
include h

theorem modifyNode (id : ℕ) (change : Node → Node)
    (hchange : ∀ node, (change node).locks = node.locks ∧ (change node).body.content? =
      node.body.content?) :
    s.Frame (middle.modifyNode id change) := by
  refine h.trans ⟨fun j node hnode ↦ ?_, rfl, rfl, rfl⟩
  rcases modify_cases hnode with ⟨rfl, old, hold, rfl⟩ | ⟨_, hnode⟩
  · exact ⟨old, hold, hchange old⟩
  · exact ⟨node, hnode, rfl, rfl⟩

theorem touched (id now : ℕ) : s.Frame (middle.modifyNode id (touched now)) :=
  h.modifyNode id (Node.touched now) fun _ ↦ ⟨rfl, rfl⟩

theorem withEntries (id : ℕ) (change : Entries → Entries) :
    s.Frame (middle.modifyNode id (withEntries change)) := by
  refine h.modifyNode id _ fun node ↦ ?_
  unfold Node.withEntries
  split
  · rename_i hbody
    exact ⟨rfl, by rw [hbody]; rfl⟩
  · exact ⟨rfl, rfl⟩

theorem moved (id parent now : ℕ) : s.Frame (middle.modifyNode id (moved parent now)) := by
  refine h.modifyNode id _ fun node ↦ ?_
  unfold Node.moved
  split
  · rename_i hbody
    exact ⟨rfl, by rw [hbody]; rfl⟩
  · exact ⟨rfl, rfl⟩

theorem applyIf {condition : Prop} [Decidable condition] {change : State → State}
    (hchange : middle.Frame (change middle)) : s.Frame (applyIf condition change middle) := by
  unfold Programs.applyIf
  split
  · exact h.trans hchange
  · exact h

theorem reaped (id : ℕ) : s.Frame (middle.reaped id) := by
  refine h.trans ⟨fun j node hnode ↦ ⟨node, get_of_reaped hnode, rfl, rfl⟩, ?_, ?_, ?_⟩ <;>
  · unfold State.reaped
    repeat' split
    all_goals rfl

theorem unlinked (env : Env) (id : ℕ) (counted : Bool) : s.Frame (middle.unlinked env id counted) :=
  (((h.modifyNode id (Node.unlinked env.now) fun _ ↦ ⟨rfl, rfl⟩).applyIf (.of_eq rfl rfl rfl rfl)).applyIf
    (.of_eq rfl rfl rfl rfl)).reaped id

omit h

theorem removed (env : Env) (removal : Files.Removal) (counted : Bool) (kinds : UInt32) :
    s.Frame (Files.removed env removal counted kinds s) := by
  have hentered := ((refl s).withEntries removal.place.parent (·.erase removal.place.name)).touched
    removal.place.parent env.now
  exact (hentered.unlinked env removal.node counted).trans (.of_eq rfl rfl rfl rfl)

theorem renamed (env : Env) (move : Files.Move) : s.Frame (Files.renamed env move s) := by
  have hentered :=
    ((refl s).withEntries move.source.parent (·.erase move.source.name)).withEntries move.target.parent
    (·.insert move.target.name move.node)
  have hreentered : s.Frame (Files.reentered env move s) := hentered.trans (.of_eq rfl rfl rfl rfl)
  have hreplaced : s.Frame (Files.reentered env move s |> Files.replaced env move.target.node) := by
    cases move.target.node with
    | none => exact hreentered
    | some j => exact hreentered.unlinked env j true
  exact ((hreplaced.moved move.node move.target.parent env.now).touched move.source.parent env.now).touched
    move.target.parent env.now

theorem linked (env : Env) (linking : Files.Linking) : s.Frame (Files.linked env linking s) := by
  have hreport : s.Frame (s.report env linking.node Watches.attributes) := .of_eq rfl rfl rfl rfl
  have hentered := hreport.withEntries linking.place.parent (·.insert linking.place.name linking.node)
  exact ((hentered.modifyNode linking.node (Node.linked env.now) fun _ ↦ ⟨rfl, rfl⟩).touched
    linking.place.parent
    env.now).trans (.of_eq rfl rfl rfl rfl)

theorem read (env : Env) (id : ℕ) (condition : Prop) [Decidable condition] (kinds : UInt32) :
    s.Frame (Programs.applyIf condition (State.report env id kinds) s) :=
      (refl s).applyIf (.of_eq rfl rfl rfl rfl)

end Frame

theorem handles_changed (env : Env) (id : ℕ) (told : Bool) (old new : Content) :
    (s.changed env id told old new).handles = s.handles := by
  unfold changed
  rw [(Frame.read ..).handles]
  rfl

variable {middle : State}

/-- What a file is opened on is no new handle yet. -/
theorem handles_opening {flags mode : UInt32}
    (hopening : Opening env s flags mode id middle) : middle.handles = s.handles := by
  cases hopening with
  | found _ _ => rfl
  | truncated _ _ _ _ => exact handles_changed ..
  | created _ => rfl

theorem locks_closed (file : ℕ) (node : Node) :
    (node.closed file).locks.data = node.locks.data.filter fun held ↦ held.owner ≠ file := by
  unfold closed
  dsimp only
  split
  · rename_i hempty
    rw [List.isEmpty_iff.mp hempty]
    rfl
  · rfl

/-- What a call does to the boxes behind the handles. -/
inductive Boxed (env : Env) (s : State) (call : Call) (s' : State) : Prop
  | same : s'.handles = s.handles → Boxed env s call s'
  | opened (handle : Handle) : (∀ listing next, handle = .directory listing next → next = 0) →
      s'.handles = s.handles.insert env.box handle → Boxed env s call s'
  | read (dir capacity : ℕ) (listing : Bytes) (next : ℕ) (name : Bytes) :
      call = .readDirectory dir capacity → s.handles[dir]? = some (.directory listing next) →
      next + 2 + name.length ≤ listing.length →
      s'.handles = s.handles.insert dir (.directory listing (next + 2 + name.length)) →
      Boxed env s call s'
  | closed (addr : ℕ) (handle : Handle) : s.handles[addr]? = some handle →
      (∀ listing next, handle = .directory listing next → call = .closeDirectory addr) →
      (∀ id access, handle = .file id access → ∀ node, s'.nodes[id]? = some node →
        ∀ held ∈ node.locks.data, held.owner ≠ addr) →
      s'.handles = s.handles.erase addr → Boxed env s call s'

theorem Boxed.of_deed (hdeed : Deed env s call reply s') : Boxed env s call s' := by
  cases hdeed with
  | quiet _ => exact .same rfl
  | @openFile _ flags _ id middle hopening =>
    refine .opened (.file id (flags &&& (Files.read ||| Files.write)))
      (fun _ _ hnew ↦ Handle.noConfusion hnew) ?_
    rw [← handles_opening hopening]
    rfl
  | close hhandle =>
    refine .closed _ _ hhandle (fun _ _ hfile ↦ Handle.noConfusion hfile)
      (fun id access hfile node hnode held hheld ↦ ?_)
      ((Frame.refl _).reaped _).handles
    cases hfile
    have hclosed := get_of_reaped hnode
    rw [State.modifyNode, get_modify, if_pos rfl] at hclosed
    obtain ⟨old, _, rfl⟩ := Option.map_eq_some_iff.mp hclosed
    rw [locks_closed] at hheld
    simpa using (List.mem_filter.mp hheld).2
  | readAt _ _ => exact .same (Frame.read ..).handles
  | writeAt | setSize => exact .same (handles_changed ..)
  | remove _ _ _ _ => exact .same (Frame.removed ..).handles
  | rename _ => exact .same (Frame.renamed ..).handles
  | @openDirectory _ listing => exact .opened (.directory listing 0) (fun _ _ hnew ↦ by cases hnew; rfl) rfl
  | readDirectory hhandle hinside => exact .read _ _ _ _ _ rfl hhandle hinside rfl
  | closeDirectory hhandle =>
    exact .closed _ _ hhandle (fun _ _ _ ↦ rfl) (fun _ _ hfile ↦ Handle.noConfusion hfile) rfl
  | openWatcher _ => exact .opened (.watcher s.nextWatcher) (fun _ _ hnew ↦ Handle.noConfusion hnew) rfl
  | closeWatcher hhandle =>
    exact .closed _ _ hhandle (fun _ _ hfile ↦ Handle.noConfusion hfile)
      (fun _ _ hfile ↦ Handle.noConfusion hfile) rfl
  | unmapShared _ =>
    refine .same (((Frame.refl _).reaped _).handles.trans ?_)
    split <;> rfl
  | create | link | attributes | work | locks | addWatch | removeWatch | look | mapShared
    | mapPrivate | unmapPrivate
  | setCapacity | storeShared | storePrivate => exact .same rfl

theorem Cursors.of_deed (h : s.Cursors) (hdeed : Deed env s call reply s') : s'.Cursors := by
  cases Boxed.of_deed hdeed with
  | same hhandles => exact h.of_eq hhandles
  | opened handle hnew hhandles =>
    refine (h.addHandle env.box fun listing next hdir ↦ ?_).of_eq hhandles
    rw [hnew listing next hdir]
    exact Nat.zero_le _
  | read dir cap listing next name hcall hhandle hinside hhandles =>
    refine (h.addHandle dir fun j cursor hdir ↦ ?_).of_eq hhandles
    cases hdir
    exact hinside
  | closed addr handle _ _ _ hhandles => exact (h.dropHandle addr).of_eq hhandles

/-! ## Lock tables -/

/-- Where the lock table of a node of the next state comes from. -/
inductive Inherited (s : State) (id : ℕ) (locks : List Lock) : Prop
  | fresh : locks = [] → Inherited s id locks
  | kept {old : Node} : s.nodes[id]? = some old → locks = old.locks.data → Inherited s id locks
  /-- The handle `file` on the node was closed. -/
  | closed {old : Node} {file : ℕ} : s.nodes[id]? = some old →
      locks = old.locks.data.filter (fun held ↦ held.owner ≠ file) → Inherited s id locks
  | relocked {old : Node} {file : ℕ} {access : UInt32} : s.nodes[id]? = some old →
      s.handles[file]? = some (.file id access) → ReflTransGen (LockStep file) old.locks.data locks →
      Inherited s id locks

/-- Every lock table of a state comes from another state. -/
def Inherits (s s' : State) : Prop :=
  ∀ (id : ℕ) (node : Node), s'.nodes[id]? = some node → s.Inherited id node.locks.data

theorem Inherits.refl (s : State) : s.Inherits s := fun _ _ hnode ↦ .kept hnode rfl

variable (h : s.Inherits middle)
include h

theorem Inherits.of_eq (hnodes : s'.nodes = middle.nodes) : s.Inherits s' := by
  intro id node hnode
  rw [hnodes] at hnode
  exact h id node hnode

theorem Inherits.modifyNode {change : Node → Node}
    (hchange : ∀ node, middle.nodes[id]? = some node → s.Inherited id (change node).locks.data) :
    s.Inherits (middle.modifyNode id change) := by
  intro j node hnode
  rcases modify_cases hnode with ⟨rfl, old, hold, rfl⟩ | ⟨_, hnode⟩
  · exact hchange old hold
  · exact h j node hnode

theorem Inherits.modifyNode_same (id : ℕ) (change : Node → Node)
    (hchange : ∀ node, (change node).locks = node.locks) : s.Inherits (middle.modifyNode id change) :=
  h.modifyNode fun node hnode ↦ by rw [hchange]; exact h id node hnode

theorem Inherits.addNode (id : ℕ) {node : Node} (hnode : node.locks.data = []) :
    s.Inherits (middle.addNode id node) := by
  intro j x hx
  rw [State.addNode] at hx
  rcases insert_cases hx with ⟨rfl, rfl⟩ | ⟨_, hx⟩
  · exact .fresh hnode
  · exact h j x hx

/-- What keeps the locks of every node it leaves. -/
theorem Inherits.frame (hframe : middle.Frame s') : s.Inherits s' := by
  intro id node hnode
  obtain ⟨old, hold, hlocks, _⟩ := hframe.nodes id node hnode
  rw [hlocks]
  exact h id old hold

omit h

theorem Inherits.changed (env : Env) (id : ℕ) (told : Bool) (old new : Content) :
    s.Inherits (s.changed env id told old new) := by
  have hsettled : s.Inherits (s.settled id env.now old new) :=
    ((Inherits.refl s).modifyNode_same id (touched env.now ∘ withContent new) fun _ ↦ rfl).of_eq rfl
  exact hsettled.of_eq (nodes_applyIf_report ..)

theorem Inherits.created (env : Env) (p : Place) (mode : UInt32) (body : Body) :
    s.Inherits (s.created env p mode body) := by
  have hentered : s.Inherits (s.modifyNode p.parent (withEntries (·.insert p.name s.nextId))).countId :=
    ((Inherits.refl s).frame ((Frame.refl _).withEntries _ _)).of_eq rfl
  have hempty : (new mode body env.now).locks.data = [] := rfl
  exact ((hentered.addNode s.nextId hempty).frame ((Frame.refl _).touched p.parent env.now)).of_eq rfl

theorem Inherits.of_opening {flags mode : UInt32}
    (hopening : Opening env s flags mode id middle) : s.Inherits middle := by
  cases hopening with
  | found _ _ => exact .refl s
  | truncated _ _ _ _ => exact .changed env _ _ _ _
  | created _ => exact .created env _ _ _

/-- Lock tables change where a handle takes or gives up locks and where one is closed, and
nowhere else. -/
theorem Inherits.of_deed (hdeed : Deed env s call reply s') : s.Inherits s' := by
  have hsame := Inherits.refl s
  cases hdeed with
  | quiet _ => exact hsame
  | @openFile _ _ _ id middle hopening =>
    have hopened := (Inherits.of_opening hopening).modifyNode_same id opened fun _ ↦ rfl
    exact hopened.of_eq rfl
  | @close file id _ _ =>
    have hdropped : s.Inherits (s.dropHandle file) := hsame.of_eq rfl
    exact (hdropped.modifyNode fun node hnode ↦ .closed hnode (locks_closed file node)).frame
      ((Frame.refl _).reaped id)
  | readAt _ _ => exact hsame.frame (.read ..)
  | writeAt | setSize => exact .changed env _ _ _ _
  | remove _ _ _ _ => exact hsame.frame (.removed ..)
  | rename _ => exact hsame.frame (.renamed ..)
  | create _ _ _ _ => exact .created env _ _ _
  | link _ _ _ => exact hsame.frame (.linked ..)
  | @attributes _ id change _ hattributes =>
    have hchanged := hsame.modifyNode_same id change fun node ↦ (hattributes node).2
    exact hchanged.of_eq rfl
  | locks _ hhandle hlocks =>
    exact hsame.modifyNode fun node hnode ↦ .relocked hnode hhandle (hlocks node hnode)
  | @mapShared _ offset length _ id _ _ n pages _ _ _ _ _ _ _ _ =>
    have hpinned := hsame.modifyNode_same id (withContent (.pinned pages)) fun _ ↦ rfl
    have hrecord : s.Inherits (Mappings.Record.put (pages.base + offset, length) (.shared id (n + 1))
        (s.modifyNode id (withContent (.pinned pages)))) := hpinned.of_eq rfl
    exact hrecord.modifyNode_same id mapped fun _ ↦ rfl
  | unmapShared _ =>
    refine (Inherits.modifyNode_same (hsame.of_eq ?_) _ unmapped fun _ ↦ rfl).frame
      ((Frame.refl _).reaped _)
    split <;> rfl
  | @storeShared _ _ _ _ id _ _ _ _ _ _ _ => exact hsame.modifyNode_same id (withContent _) fun _ ↦ rfl
  | openDirectory | readDirectory | closeDirectory | work | openWatcher | closeWatcher | addWatch
    | removeWatch | look
  | mapPrivate | unmapPrivate | setCapacity | storePrivate => exact hsame.of_eq rfl

/-- Every lock that covers a file as a whole does cover all of it. -/
def Locked (s : State) : Prop :=
  ∀ (id : ℕ) (node : Node), s.nodes[id]? = some node → WholeLocks node.locks.data

theorem Locked.of_inherits (h : s.Locked) (hinherits : s.Inherits s') : s'.Locked := by
  intro id node hnode
  cases hinherits id node hnode with
  | fresh hlocks =>
    rw [hlocks]
    exact fun _ hheld ↦ (List.not_mem_nil hheld).elim
  | kept hold hlocks =>
    rw [hlocks]
    exact h id _ hold
  | closed hold hlocks =>
    rw [hlocks]
    exact fun held hheld ↦ h id _ hold held (List.mem_filter.mp hheld).1
  | relocked hold _ hsteps => exact (h id _ hold).steps hsteps

theorem Locked.of_deed (h : s.Locked) (hdeed : Deed env s call reply s') : s'.Locked :=
  h.of_inherits (.of_deed hdeed)

/-! ## Every reachable state -/

/-- What holds between calls. -/
structure Steady (s : State) : Prop where
  sound : s.core.Sound none
  cursors : s.Cursors
  watched : s.Watched
  locked : s.Locked

theorem Steady.ready (h : s.Steady) : s.Ready :=
  ⟨h.sound, h.cursors, fun key w hwatcher ↦ (h.watched.sound key w hwatcher).framed⟩

theorem steady_first : first.Steady where
  sound := sound_first
  cursors := by
    intro addr listing next hhandle
    rw [show first.handles = ∅ from rfl] at hhandle
    simp at hhandle
  watched := by
    have hnone : ∀ (key : ℕ) (w : Watcher), first.watchers[key]? ≠ some w := by
      intro key w
      rw [show first.watchers = ∅ from rfl]
      simp
    exact ⟨fun key w h ↦ (hnone key w h).elim, fun key w _ h ↦ (hnone key w h).elim,
      fun key w h ↦ (hnone key w h).elim⟩
  locked := by
    intro id node hnode
    rw [nodes_first] at hnode
    rcases insert_cases hnode with ⟨rfl, rfl⟩ | ⟨_, hnode⟩
    · exact fun _ hheld ↦ (List.not_mem_nil hheld).elim
    · simp at hnode

/-- The root is in the table, so a call finds what the last one left. -/
theorem Steady.acquire_eq (h : s.Steady) : s.acquire = s := by
  have hparent := h.sound.tree.root_parent
  have hroot : s.nodes ≠ ∅ := by
    intro hempty
    rw [parentOf, Core.get_shapes, get_core, hempty] at hparent
    simp at hparent
  unfold acquire
  rw [if_neg]
  rwa [ExtTreeMap.isEmpty_iff]

theorem Steady.deed (h : s.Steady) (honest : env.Honest s) (hdeed : Deed env s call reply s') : s'.Steady :=
  ⟨hdeed.core_sound h.sound honest, h.cursors.of_deed hdeed,
    (Attends.of_deed h.sound h.watched hdeed).watched, h.locked.of_deed hdeed⟩

variable {file : ℕ}

/-- What a refused lock on a whole file gives up is not part of the core. -/
theorem GaveUp.core_eq (h : GaveUp s file s') : s'.core = s.core := by
  obtain ⟨id, granted, node, locks, mode, _, _, rfl, _⟩ := h.given
  exact core_modifyNode_same fun node ↦ kept_withLocks node _

theorem Attends.of_gaveUp (hwatched : s.Watched) (h : GaveUp s file s') : Attends call s s' := by
  have hcore := GaveUp.core_eq h
  obtain ⟨id, granted, node, locks, mode, _, _, rfl, _⟩ := h.given
  exact .of_reported hwatched (.of_shapes (.of_eq rfl) rfl (by rw [hcore]))

theorem Inherits.of_gaveUp (h : GaveUp s file s') : s.Inherits s' := by
  obtain ⟨id, granted, node, locks, mode, hhandle, hnode, rfl, hperm⟩ := h.given
  refine (Inherits.refl s).modifyNode fun old hold ↦ .relocked hold hhandle (.single ?_)
  rw [hnode, Option.some.injEq] at hold
  rw [← hold]
  exact .give rfl (Files.wholeLock_proper file mode) hperm

theorem Steady.gaveUp (h : s.Steady) (hgave : GaveUp s file s') : s'.Steady := by
  have hs : s'.core.Sound none := by
    rw [GaveUp.core_eq hgave]
    exact h.sound
  have hattends : Attends .openWatcher s s' := .of_gaveUp h.watched hgave
  have hlocked := h.locked.of_inherits (.of_gaveUp hgave)
  obtain ⟨id, granted, node, locks, mode, _, _, rfl, _⟩ := hgave.given
  exact ⟨hs, h.cursors.of_eq rfl, hattends.watched, hlocked⟩

theorem Steady.deed_of_ok (h : s.Steady) (honest : env.Honest s) (htrusted : call.Trusted s)
    (hrun : exec env call s = .ok reply s') : Deed env s call reply s' := by
  rcases exec_cases h.ready honest htrusted with ⟨_, _, hanswer, hdeed⟩ | ⟨_, _, herror, _⟩
  · rw [hrun] at hanswer
    cases hanswer
    exact hdeed
  · rw [hrun] at herror
    cases herror

/-- What every deed of a call brings about, and what is so where nothing happens or a lock is given
up, is so after the call. -/
theorem Steady.after_of_deed {property : State → Prop} (h : s.Steady) (honest : env.Honest s)
    (htrusted : call.Trusted s) (hdeed : ∀ {reply s'}, Deed env s call reply s' → property s')
    (hsame : property s) (hgave : ∀ {file s'}, GaveUp s file s' → property s') :
    property (after (exec env call) s) := by
  rcases exec_cases h.ready honest htrusted with ⟨reply, s', hrun, hdone⟩ | ⟨error, s', hrun, hfinal⟩
  · rw [after_of_ok hrun]
    exact hdeed hdone
  · rw [after_of_error hrun]
    rcases hfinal with rfl | ⟨file, mode, wait, _, hgiven⟩
    · exact hsame
    · exact hgave hgiven

/-- Every call keeps what holds between calls. -/
theorem Steady.after_exec (h : s.Steady) (honest : env.Honest s) (htrusted : call.Trusted s) :
    (after (exec env call) s).Steady :=
  h.after_of_deed honest htrusted (h.deed honest) h h.gaveUp

/-- What holds between calls holds in every reachable state. -/
theorem steady_of_reachable (h : system.Reachable s) : s.Steady := by
  refine System.invariant (fun start hstart ↦ ?_) (fun old next hold hstep ↦ ?_) h
  · rw [show start = first from hstart]
    exact steady_first
  · obtain ⟨env, call, honest, htrusted, rfl⟩ := hstep
    rw [hold.acquire_eq]
    exact hold.after_exec honest htrusted

/-! ## A state with something in it -/

/-- An outside that grants everything but pages, and a new handle at `box`. -/
def granting (box : ℕ) : Env where
  now := 0
  content := ⟨true, some 0, true, true⟩
  unlock := some 0
  lock := some 0
  watches := some 0
  listing := true
  text := true
  queue := some 0
  fresh := none
  room := fun _ _ ↦ some 0
  pages := fun _ ↦ none
  box := box

/-- The consumer has the handle it gives, and there is none at `box` yet. -/
def callable (box : ℕ) (call : Call) (s : State) : Bool :=
  box ≠ 0 && box % handleAlign = 0 && s.handles[box]?.isNone && call.handle?.all (s.handles[·]?.isSome) &&
    match call with
    | .store .. => false
    | _ => true

variable {box : ℕ}

theorem allowed_of_callable (h : callable box call s) : (granting box).Honest s ∧ call.Trusted s := by
  simp only [callable, Bool.and_eq_true, decide_eq_true_eq, Option.isNone_iff_eq_none] at h
  obtain ⟨⟨⟨hbox, hfresh⟩, hhandle⟩, hstore⟩ := h
  refine ⟨⟨hfresh, hbox, nofun, nofun⟩, fun addr haddr ↦ .inr (.inr ?_), ?_⟩
  · rwa [haddr] at hhandle
  · rintro addr length i value rfl
    cases hstore

theorem Steady.step_granting (h : s.Steady) (hcall : callable box call s) :
    system.step s (after (exec (granting box) call) s) := by
  obtain ⟨honest, htrusted⟩ := allowed_of_callable hcall
  exact ⟨_, _, honest, htrusted, by rw [h.acquire_eq]⟩

/-- What calls lead to, each with the place of its new handle. -/
def granted (calls : List (ℕ × Call)) (s : State) : Option State :=
  calls.foldlM (fun s (box, call) ↦
    if callable box call s then some (after (exec (granting box) call) s) else none) s

theorem reachable_of_granted {calls : List (ℕ × Call)} (hreach : system.Reachable s)
    (h : granted calls s = some s') : system.Reachable s' := by
  induction calls generalizing s with
  | nil => rwa [← Option.some.inj h]
  | cons call calls ih =>
    obtain ⟨next, hnext, hrest⟩ := Option.bind_eq_some_iff.mp h
    simp only [Option.ite_none_right_eq_some, Option.some.injEq] at hnext
    obtain ⟨hcall, rfl⟩ := hnext
    exact ih (hreach.of_step ((steady_of_reachable hreach).step_granting hcall)) hrest

/-- A directory `/a`, the link `/b` to it, a file in it that is written, has the second name `/d`
and is opened and locked twice, a file that is removed while it is open, and a watch of the root,
which hears of a directory that is made and removed. -/
def populating : List (ℕ × Call) :=
  [(8, .createDirectory [47, 97] 0o777), (8, .symlink [97] [47, 98]),
    (8, .openFile [47, 98, 47, 99] (Files.read ||| Files.write ||| Files.create) 0o666),
    (16, .writeAt 8 2 [7]), (16, .link [47, 97, 47, 99] [47, 100]),
    (16, .openFile [47, 101] (Files.write ||| Files.create) 0o666), (24, .remove [47, 101]),
    (24, .openWatcher), (32, .addWatch 24 [47] nameKinds), (32, .openFile [47, 100] Files.write 0),
    (40, .lock 8 .shared false), (40, .lock 32 .shared false), (40, .createDirectory [47, 102] 0o777),
    (40, .removeDirectory [47, 102])]

def populated : State := (granted populating first).getD first

theorem reachable_populated : system.Reachable populated :=
  reachable_of_granted (.of_start rfl) (show granted populating first = some populated from rfl)

end State

end DotnetPal.Memfs
