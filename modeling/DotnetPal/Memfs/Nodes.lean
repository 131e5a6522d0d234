import DotnetPal.Foundations.Programs
import DotnetPal.Memfs.State

/-!
# Changes of nodes

What the calls of the provider are made of. Every change is a program over the state that fails
where the code returns early, with what was changed before left in place. An unsigned subtraction
below zero is a panic. What the outside decides in one call (the clock, the answers of the allocator,
the addresses of new memory) is its `Env`.
-/

open Std

namespace DotnetPal.Memfs

open Programs

/-- What the outside decides during one call. -/
structure Env where
  now : ℕ
  /-- The requests a change of content makes. -/
  content : Reservations
  /-- Room in a lock table when a lock is given up, and when it is taken. -/
  unlock : Option ℕ
  lock : Option ℕ
  watches : Option ℕ
  listing : Bool
  /-- The text of a new symbolic link. -/
  text : Bool
  queue : Option ℕ
  /-- The small memory a queue that is read empty goes back to. -/
  fresh : Option ℕ
  /-- Room for an event in the queue of a watcher, as the queue is then. -/
  room : ℕ → Queue → Option ℕ
  /-- Where new zeroed pages of a size begin. -/
  pages : ℕ → Option ℕ
  /-- The address of a new handle. -/
  box : ℕ

/-- A program over the state behind the lock. -/
abbrev Op := EStateM Fault State

/-! ## Watchers hear of changes -/

namespace Watcher

/-- What a watcher hears when `kinds` happens to node `id`: first its watches of the directories that
hold the node, under each of its names there, then its watch of the node itself. -/
def offers (watcher : Watcher) (nodes : ExtTreeMap ℕ Node) (id : ℕ) (kinds : UInt32) : List Offer :=
  match nodes[id]? with
  | none => []
  | some node =>
    -- A directory has one name, in its parent; the names of anything else may be in any directory.
    let (mark, holder) := match node.body with
      | .directory parent _ => (Watches.directory, some parent)
      | _ => (0, none)
    let holders := watcher.watches.data.filter fun watch ↦
      watch.events &&& kinds ≠ 0 ∧ watch.node ≠ id ∧ (holder = none ∨ holder = some watch.node)
    let above := holders.flatMap fun watch ↦ match nodes[watch.node]?.map Node.body with
      | some (.directory _ entries) =>
        ((entries.toList.filter fun entry ↦ entry.2 = id).take node.links).map fun entry ↦
          ⟨watch.id, kinds ||| mark, 0, entry.1⟩
      | _ => []
    let own := match watcher.asked id kinds with
      | some watch => [⟨watch.id, kinds ||| mark, 0, []⟩]
      | none => []
    above ++ own

end Watcher

namespace State

/-- Tells the watches that `kinds` happened to node `id`. -/
def report (env : Env) (id : ℕ) (kinds : UInt32) (s : State) : State :=
  { s with watchers := s.watchers.map fun key watcher ↦
      watcher.tell (env.room key) (watcher.offers s.nodes id kinds) }

/-- Tells the watches of `directory` what happened to its entry `name`; `kinds` carries the mark of a
directory. -/
def reportEntry (env : Env) (dir : ℕ) (name : Bytes) (kinds cookie : UInt32) (s : State) :
    State :=
  { s with watchers := s.watchers.map fun key watcher ↦
      watcher.tell (env.room key) (watcher.entryOffers dir name kinds cookie) }

/-- Node `id` has no name left: its watches end. -/
def ended (env : Env) (id : ℕ) (s : State) : State :=
  { s with watchers := s.watchers.map fun key watcher ↦ watcher.ended (env.room key) id }

def modifyNode (id : ℕ) (change : Node → Node) (s : State) : State :=
  { s with nodes := s.nodes.modify id change }

def addNode (id : ℕ) (node : Node) (s : State) : State :=
  { s with nodes := s.nodes.insert id node }

def countId (s : State) : State := { s with nextId := s.nextId + 1 }

end State

/-! ## Changes of one node -/

namespace Node

def new (mode : UInt32) (body : Body) (now : ℕ) : Node where
  mode := mode &&& modeMask
  created := now
  accessed := now
  modified := now
  changed := now
  links := 1
  opens := 0
  maps := 0
  locks := Vec.empty
  body := body

def touched (now : ℕ) (node : Node) : Node := { node with modified := now, changed := now }

def withEntries (change : Entries → Entries) (node : Node) : Node :=
  match node.body with
  | .directory parent entries => { node with body := .directory parent (change entries) }
  | _ => node

/-- The link count is saturating, as in the code. -/
def unlinked (now : ℕ) (node : Node) : Node := { node with links := node.links - 1, changed := now }

def linked (now : ℕ) (node : Node) : Node := { node with links := node.links + 1, changed := now }

def opened (node : Node) : Node := { node with opens := node.opens + 1 }

/-- A closed handle gives up its locks. -/
def closed (owner : ℕ) (node : Node) : Node :=
  let locks := node.locks.data.filter fun held ↦ held.owner ≠ owner
  { node with
    opens := node.opens - 1
    locks := if locks.isEmpty then Vec.empty else node.locks.withData locks }

def withMode (mode : UInt32) (now : ℕ) (node : Node) : Node :=
  { node with mode := mode &&& modeMask, changed := now }

def withTimes (accessed modified : Option ℕ) (now : ℕ) (node : Node) : Node :=
  { node with
    accessed := accessed.getD node.accessed
    modified := modified.getD node.modified
    changed := now }

/-- A moved node has a new parent if it is a directory. -/
def moved (parent now : ℕ) (node : Node) : Node :=
  match node.body with
  | .directory _ entries => { node with changed := now, body := .directory parent entries }
  | _ => { node with changed := now }

def withContent (content : Content) (node : Node) : Node := { node with body := .file content }

def withLocks (locks : Vec Lock) (node : Node) : Node := { node with locks := locks }

def mapped (node : Node) : Node := { node with maps := node.maps + 1 }

def unmapped (node : Node) : Node := { node with maps := node.maps - 1 }

end Node

/-- Changes a node that is there. -/
def updateNode (id : ℕ) (change : Node → Node) : Op Unit := do
  let _ ← reading (·.node id)
  modify (State.modifyNode id change)

/-- Changes the entries of a directory. -/
def updateEntries (id : ℕ) (change : Entries → Entries) : Op Unit := do
  let _ ← reading (·.entries id)
  modify (State.modifyNode id (Node.withEntries change))

def touch (id now : ℕ) : Op Unit := updateNode id (Node.touched now)

/-- The mark of a directory in the events about it. -/
def mark (dir : Bool) : UInt32 := if dir then Watches.directory else 0

def create (env : Env) (place : Place) (mode : UInt32) (body : Body) : Op ℕ := do
  let id ← reading fun s ↦ .ok s.nextId
  updateEntries place.parent (·.insert place.name id)
  modify State.countId
  modify (State.addNode id (Node.new mode body env.now))
  touch place.parent env.now
  let dir ← reading (·.isDirectory id)
  modify (State.reportEntry env place.parent place.name (Watches.create ||| mark dir) 0)
  return id

namespace State

/-- The state without a node that nothing refers to, with its bytes given back. -/
def reaped (id : ℕ) (s : State) : State :=
  match s.nodes[id]? with
  | none => s
  | some node =>
    if node.links = 0 ∧ node.opens = 0 ∧ node.maps = 0 then
      { s with
        nodes := s.nodes.erase id
        used := match node.body with
          | .file content => s.used - content.len
          | _ => s.used }
    else s

/-- Whether giving back the bytes of a node would take the counter below zero. -/
def overdrawn (s : State) (id : ℕ) : Bool :=
  match s.nodes[id]?.map Node.body with
  | some (.file content) => s.used < content.len
  | _ => false

end State

/-- Frees a node that no directory entry, handle or mapping refers to. -/
def reap (id : ℕ) : Op Unit := fun s ↦
  match s.nodes[id]? with
  | none => .ok () s
  | some node =>
    if node.links = 0 ∧ node.opens = 0 ∧ node.maps = 0 then
      if s.overdrawn id then .error .panic { s with nodes := s.nodes.erase id }
      else .ok () (s.reaped id)
    else .ok () s

/-- The node lost a directory entry; the entry itself is already gone. Its watches hear of the link
count when `counted`, and end with the last name. -/
def unlinked (env : Env) (id : ℕ) (counted : Bool) : Op Unit := do
  updateNode id (Node.unlinked env.now)
  let node ← reading (·.node id)
  modify (applyIf (counted = true) (State.report env id Watches.attributes))
  modify (applyIf (node.links = 0) (State.ended env id))
  reap id

def setNodeMode (env : Env) (id : ℕ) (mode : UInt32) : Op Unit := do
  updateNode id (Node.withMode mode env.now)
  modify (State.report env id Watches.attributes)

/-- A call that keeps both times is not a change. -/
def setNodeTimes (env : Env) (id : ℕ) (accessed modified : Option ℕ) : Op Unit := do
  let _ ← reading (·.node id)
  if accessed.isNone ∧ modified.isNone then return ()
  else do
    updateNode id (Node.withTimes accessed modified env.now)
    modify (State.report env id Watches.attributes)

/-! ## Locks -/

namespace Lock

/-- Whether two locks of one kind share a byte. -/
def meets (held wanted : Lock) : Bool :=
  held.whole == wanted.whole && held.start < wanted.stop && wanted.start < held.stop

/-- What stays of a held lock beside the bytes of another one. -/
def pieces (held wanted : Lock) : List Lock :=
  (if held.start < wanted.start then [{ held with stop := wanted.start }] else []) ++
    (if wanted.stop < held.stop then [{ held with start := wanted.stop }] else [])

end Lock

/-- Removes an element by moving the last one into its place. -/
def swapRemove {α : Type} (list : List α) (i : ℕ) : List α :=
  match list.getLast? with
  | none => list
  | some last => (list.set i last).dropLast

/-- Takes the bytes of `wanted` away from every lock its owner holds on them. -/
def carve (wanted : Lock) : ℕ → ℕ → List Lock → Result (List Lock)
  | 0, _, _ => .error .diverge
  | fuel + 1, i, locks =>
    match locks[i]? with
    | none => .ok locks
    | some held =>
      if held.owner ≠ wanted.owner ∨ !held.meets wanted then carve wanted fuel (i + 1) locks
      else carve wanted fuel i (swapRemove locks i ++ held.pieces wanted)

/-- Makes `wanted` what its owner holds on its bytes, or nothing for an unlock. What the owner held
beside those bytes stays, and a lock of another handle in the way leaves everything as it was. -/
def relocked (grant : Option ℕ) (mode : Files.LockMode) (wanted : Lock) (locks : Vec Lock) :
    Result (Vec Lock) :=
  if mode ≠ .unlock ∧ locks.data.any (fun held ↦ held.owner != wanted.owner && held.meets wanted &&
      (held.exclusive || wanted.exclusive)) then .error Error.wouldBlock
  else match locks.tryReserve 2 grant with
    | none => .error Error.outOfMemory
    | some reserved => do
      let carved ← carve wanted (3 * reserved.length + 1) 0 reserved.data
      let s' := reserved.withData carved
      return if mode = .unlock then s' else s'.extend [wanted]

def relock (id : ℕ) (grant : Option ℕ) (mode : Files.LockMode) (wanted : Lock) : Op Unit := do
  let node ← reading (·.node id)
  let locks ← reading fun _ ↦ relocked grant mode wanted node.locks
  modify (State.modifyNode id (Node.withLocks locks))

/-! ## Content -/

namespace State

/-- The state after file `id` got new content, with the accounting and the timestamps settled. -/
def settled (id now : ℕ) (before after : Content) (s : State) : State :=
  { s.modifyNode id (Node.touched now ∘ Node.withContent after) with
    used := s.used - before.len + after.len }

end State

/-- Runs `edit` on the content of file `id` with the bytes it may still grow by and whether it is
mapped. The watches hear of a change of size, and of any change when `told`. -/
def change {α : Type} (env : Env) (id : ℕ) (told : Bool) (edit : ℕ → Bool → Content.Edit α) : Op α :=
  fun s ↦
    match s.nodes[id]? with
    | none => .error Error.invalidArgument s
    | some node =>
      match node.body with
      | .file content =>
        match edit (s.capacity - s.used) (node.maps ≠ 0) content with
        | .error fault left => .error fault (s.modifyNode id (Node.withContent left))
        | .ok value after =>
          if s.used < content.len then
            .error .panic (s.modifyNode id (Node.withContent after))
          else
            .ok value (applyIf (told = true ∨ content.len ≠ after.len)
              (State.report env id Watches.modify) (s.settled id env.now content after))
      | _ => .error Error.isDirectory s

/-! ## Handles -/

/-- Handles are aligned like the boxes they point to. -/
def handleAlign : ℕ := 8

namespace State

/-- Handles are trusted: an address that no box has is an access outside its memory. -/
def borrow (s : State) (addr : ℕ) : Result Handle :=
  if addr = 0 ∨ addr % handleAlign ≠ 0 then .error Error.invalidArgument
  else match s.handles[addr]? with
    | some handle => .ok handle
    | none => .error .panic

/-- The node of a file handle opened with at least `access`. -/
def fileNode (s : State) (addr : ℕ) (access : UInt32) : Result ℕ := do
  match ← s.borrow addr with
  | .file node granted => if granted &&& access = access then return node else .error Error.accessDenied
  | _ => .error Error.invalidArgument

def watcherId (s : State) (addr : ℕ) : Result ℕ := do
  match ← s.borrow addr with
  | .watcher id => return id
  | _ => .error Error.invalidArgument

def addHandle (addr : ℕ) (handle : Handle) (s : State) : State :=
  { s with handles := s.handles.insert addr handle }

def dropHandle (addr : ℕ) (s : State) : State :=
  { s with handles := s.handles.erase addr }

end State

/-- A new handle. -/
def handle (env : Env) (value : Handle) : Op ℕ := do
  modify (State.addHandle env.box value)
  return env.box

end DotnetPal.Memfs
