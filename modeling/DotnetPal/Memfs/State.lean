import DotnetPal.Foundations.OrderedMap
import DotnetPal.Memfs.Queue

/-!
# The tree and its walk

The state behind the provider's lock: nodes by identity, the working directory, watchers and
mappings, and the boxes behind the handles of its consumers. A walk resolves a path to a place. Its
loop and the two loops that climb towards the root run with a bound that is proved to suffice in
every reachable state.
-/

open Std

namespace DotnetPal.Memfs

attribute [local instance] lexOrd

def root : ℕ := 1

def modeMask : UInt32 := 0o7777

/-- Links one walk follows. -/
def maxLinks : ℕ := 40

def defaultCapacity : ℕ := 64 * 1024 * 1024

abbrev Entries := ExtTreeMap Bytes ℕ

/-- `link` holds the target text of a symbolic link. -/
inductive Body
  | file (content : Content)
  | directory (parent : ℕ) (entries : Entries)
  | link (target : Bytes)

def Body.kind : Body → Files.NodeKind
  | file _ => .file
  | directory _ _ => .directory
  | link _ => .symlink

/-- An advisory lock the handle at address `owner` holds on the bytes from `start` to `stop`. A lock
on the `whole` file is blind to range locks, as they are to it. -/
structure Lock where
  owner : ℕ
  whole : Bool
  start : ℕ
  stop : ℕ
  exclusive : Bool
  deriving DecidableEq, Repr

structure Node where
  mode : UInt32
  created : ℕ
  accessed : ℕ
  modified : ℕ
  changed : ℕ
  /-- Directory entries that name the node. -/
  links : ℕ
  /-- Open file handles on the node. -/
  opens : ℕ
  /-- Shared mappings that point into the content. -/
  maps : ℕ
  locks : Vec Lock
  body : Body

/-- What a range is known by: a window into the pinned content of a file, as many times as it was
handed out, or the copy a private mapping is, with its memory. -/
inductive Mapped
  | shared (node count : ℕ)
  | privateCopy (memory : Bytes)

/-- What a handle points to. A directory handle holds its snapshot: kind, length and name of each
entry. -/
inductive Handle
  | file (node : ℕ) (access : UInt32)
  | directory (listing : Bytes) (next : ℕ)
  | watcher (id : ℕ)

structure State where
  nodes : ExtTreeMap ℕ Node
  nextId : ℕ
  used : ℕ
  capacity : ℕ
  working : ℕ
  watchers : ExtTreeMap ℕ Watcher
  nextWatcher : ℕ
  cookie : UInt32
  /-- Keyed by address and length. -/
  mappings : ExtTreeMap (ℕ × ℕ) Mapped
  /-- The boxes handed out as handles, keyed by address. -/
  handles : ExtTreeMap ℕ Handle

namespace State

/-- The state before the first call. -/
def static : State where
  nodes := ∅
  nextId := root + 1
  used := 0
  capacity := defaultCapacity
  working := root
  watchers := ∅
  nextWatcher := 1
  cookie := 0
  mappings := ∅
  handles := ∅

/-- The root, which predates any clock the port sets. -/
def rootNode : Node where
  mode := 0o777
  created := 0
  accessed := 0
  modified := 0
  changed := 0
  links := 1
  opens := 0
  maps := 0
  locks := Vec.empty
  body := .directory root ∅

/-- What every call finds once it holds the lock. -/
def acquire (s : State) : State :=
  if s.nodes.isEmpty then { s with nodes := s.nodes.insert root rootNode } else s

/-! ## Lookups -/

def node (s : State) (id : ℕ) : Result Node := Result.required s.nodes[id]? .invalidArgument

def kind (s : State) (id : ℕ) : Result Files.NodeKind := do
  let node ← s.node id
  return node.body.kind

def isDirectory (s : State) (id : ℕ) : Result Bool := do
  let kind ← s.kind id
  return kind = .directory

def entries (s : State) (id : ℕ) : Result Entries := do
  let node ← s.node id
  match node.body with
  | .directory _ entries => return entries
  | _ => .error Error.notDirectory

/-- The directory containing directory `id`; the root contains itself. -/
def parent (s : State) (id : ℕ) : Result ℕ := do
  let node ← s.node id
  match node.body with
  | .directory parent _ => return parent
  | _ => .error Error.notDirectory

def content (s : State) (id : ℕ) : Result Content := do
  let node ← s.node id
  match node.body with
  | .file content => return content
  | _ => .error Error.isDirectory

def workingDirectory (s : State) : Result ℕ :=
  if s.nodes.contains s.working then .ok s.working else .error Error.notFound

def watcher (s : State) (id : ℕ) : Result Watcher :=
  Result.required s.watchers[id]? .invalidArgument

end State

/-! ## Walking a path -/

def slash : UInt8 := 47

def dot : Bytes := [46]

def dotDot : Bytes := [46, 46]

/-- Where a path leads: the directory holding its final name, and the node of that name if there is
one. The name is empty when the path ends at a directory reached without a name of its own; the node
is then that directory. -/
structure Place where
  parent : ℕ
  name : Bytes
  node : Option ℕ
  slash : Bool
  deriving DecidableEq, Repr

/-- What a walk does with a symbolic link in the final name of its path: resolve it, keep it unless a
slash comes after it, keep it as the entry to remove or replace, or keep it as what is in the way of
the name to create. -/
inductive Last
  | follow
  | keep
  | entry
  | create
  deriving DecidableEq, Repr

/-- The texts a walk still has to resolve, the innermost first: the rest of the target of each link
entered on the way, then the rest of the path. -/
structure Pending where
  texts : List Bytes
  entered : ℕ
  slash : Bool
  deriving DecidableEq, Repr

namespace Pending

/-- The next component of the texts, what it leaves of them, and whether a slash was the last thing
seen. -/
def nextOf : List Bytes → Bool → Option Bytes × List Bytes × Bool
  | [], seen => (none, [], seen)
  | text :: texts, seen =>
    let rest := text.dropWhile (· == Memfs.slash)
    let seen := seen || rest.length ≠ text.length
    if rest.isEmpty then nextOf texts seen
    else (some (rest.takeWhile (· != Memfs.slash)), rest.dropWhile (· != Memfs.slash) :: texts, false)

/-- The next component. Once there is none, `slash` tells whether one ended the walk. -/
def next (pending : Pending) : Option Bytes × Pending :=
  let (component, texts, seen) := nextOf pending.texts pending.slash
  (component, { pending with texts := texts, slash := seen })

/-- Whether the link just found in a name is to be entered. -/
def follows (pending : Pending) : Last → Bool
  | .follow => true
  | .keep => !pending.texts.flatten.isEmpty
  | .entry => pending.texts.flatten.any (· != Memfs.slash)
  | .create => pending.texts.flatten.any (· != Memfs.slash)

/-- A walk that enters too many links is an `os` failure: the boundary has no status for a loop. -/
def enter (pending : Pending) (target : Bytes) : Result Pending :=
  if pending.entered = maxLinks then .error Error.os
  else if pending.texts.length > maxLinks then .error .panic
  else .ok { pending with texts := target :: pending.texts, entered := pending.entered + 1 }

end Pending

/-- A walk on its way. Whatever follows a found name resolves inside it. -/
structure Walking where
  parent : ℕ
  found : Option (Bytes × Option ℕ)
  pending : Pending
  deriving DecidableEq, Repr

namespace State

/-- The directory the next component is looked up in. -/
def into (walking : Walking) : Result ℕ :=
  match walking.found with
  | none => .ok walking.parent
  | some (_, node) => Result.required node .notFound

/-- The target of a node that is a symbolic link. -/
def linkTarget (s : State) (id : Option ℕ) : Option Bytes :=
  match id.bind (s.nodes[·]?) with
  | some node => match node.body with
    | .link target => some target
    | _ => none
  | none => none

def startsWithSlash (text : Bytes) : Bool := text.head? == some slash

/-- The end of a walk. -/
def arrive (s : State) (last : Last) (walking : Walking) (slash : Bool) : Result Place :=
  match walking.found with
  | some (name, some node) =>
    if slash && last != .create then do
      let dir ← s.isDirectory node
      if dir then return ⟨walking.parent, name, some node, slash⟩
      else .error Error.notDirectory
    else .ok ⟨walking.parent, name, some node, slash⟩
  | some (name, none) => .ok ⟨walking.parent, name, none, slash⟩
  | none => .ok ⟨walking.parent, [], some walking.parent, slash⟩

/-- A walk that found `name` in directory `parent`. -/
def named (s : State) (last : Last) (parent : ℕ) (name : Bytes) (pending : Pending) :
    Result Walking := do
  let entries ← s.entries parent
  let node := entries[name]?
  match s.linkTarget node with
  | some target =>
    if pending.follows last then do
      let pending ← pending.enter target
      -- A relative target resolves in the directory holding the link.
      return ⟨if startsWithSlash target then root else parent, none, pending⟩
    else return ⟨parent, some (name, node), pending⟩
  | none => return ⟨parent, some (name, node), pending⟩

/-- One component of a walk. -/
def component (s : State) (last : Last) (parent : ℕ) (name : Bytes) (pending : Pending) :
    Result Walking :=
  if name = dot then do
    let _ ← s.entries parent
    return ⟨parent, none, pending⟩
  else if name = dotDot then do
    let above ← s.parent parent
    return ⟨above, none, pending⟩
  else if name.length > Files.maxEntryName then .error Error.nameTooLong
  else s.named last parent name pending

def walkStep (s : State) (last : Last) (walking : Walking) : Result (Walking ⊕ Place) :=
  match walking.pending.next with
  | (none, pending) => .inr <$> s.arrive last walking pending.slash
  | (some name, pending) => do
    let parent ← into walking
    .inl <$> s.component last parent name pending

def walkOn (s : State) (last : Last) : ℕ → Walking → Result Place
  | 0, _ => .error .diverge
  | fuel + 1, walking => do
    match ← s.walkStep last walking with
    | .inl next => walkOn s last fuel next
    | .inr place => return place

/-- No walk takes more steps: each takes a byte off its texts, which are the path and the targets of
the links entered. -/
def walkBound (s : State) (path : Bytes) : ℕ :=
  path.length + maxLinks * OrderedMap.total (fun _ node ↦ match node.body with
    | .link target => target.length
    | _ => 0) s.nodes + 1

/-- The directory a path is resolved from. -/
def walkStart (s : State) (path : Bytes) : Result ℕ :=
  if startsWithSlash path then .ok root else s.workingDirectory

def walk (s : State) (path : Bytes) (last : Last) : Result Place := do
  let start ← s.walkStart path
  s.walkOn last (s.walkBound path) ⟨start, none, ⟨[path], 0, false⟩⟩

/-- Where a call may create the non-directory that `path` names. -/
def vacant (s : State) (path : Bytes) : Result Place := do
  let place ← s.walk path .create
  if place.node.isSome then .error Error.alreadyExists
  else if place.slash then .error Error.notFound
  else return place

/-! ## Climbing to the root -/

/-- The loops that climb take at most as many steps as there are nodes. -/
def climbBound (s : State) : ℕ := s.nodes.size + 1

/-- The names of a directory and of each directory above it, from there upwards. -/
def climbOn (s : State) : ℕ → ℕ → Result (List Bytes)
  | 0, _ => .error .diverge
  | fuel + 1, dir => do
    if dir = root then return []
    else
      let above ← s.parent dir
      let entries ← s.entries above
      let (own, _) ← Result.required (entries.toList.find? fun entry ↦ entry.2 = dir) .notFound
      let rest ← climbOn s fuel above
      return own :: rest

/-- The parts of a path from its end: `name` unless it is empty, then the names above it. -/
def climb (s : State) (dir : ℕ) (name : Bytes) : Result (List Bytes) := do
  let above ← s.climbOn s.climbBound dir
  return if name.isEmpty then above else name :: above

/-- The absolute path of `name` in `directory`, or of `directory` for an empty name: the length it
needs with its terminator, and its text if `capacity` holds that. -/
def spell (s : State) (dir : ℕ) (name : Bytes) (capacity : ℕ) :
    Result (ℕ × Option Bytes) := do
  let parts ← s.climb dir name
  let length := (parts.map fun part ↦ 1 + part.length).sum
  let needed := max length 1 + 1
  if needed > Runtime.maxName + 1 then .error Error.nameTooLong
  else if needed ≤ capacity then
    let text := (parts.reverse.map fun part ↦ slash :: part).flatten
    return (needed, some (if text.isEmpty then [slash] else text))
  else return (needed, none)

/-- Whether `node` lies on the way from `ancestor` up to the root, which a directory that is moved
must not. -/
def refuseInside (s : State) (node : ℕ) : ℕ → ℕ → Result Unit
  | 0, _ => .error .diverge
  | fuel + 1, ancestor => do
    if ancestor = root then return ()
    else if ancestor = node then .error Error.invalidArgument
    else
      let above ← s.parent ancestor
      refuseInside s node fuel above

/-! ## Status -/

end State

/-- What a status call tells of a node; the device is always the same. -/
structure Status where
  kind : Files.NodeKind
  mode : UInt32
  size : ℕ
  modified : ℕ
  accessed : ℕ
  changed : ℕ
  created : ℕ
  identity : ℕ
  device : ℕ
  deriving DecidableEq, Repr

namespace State

def status (s : State) (id : ℕ) : Result Status := do
  let node ← s.node id
  let size := match node.body with
    | .file content => content.len
    | .directory _ _ => 0
    | .link target => target.length
  return ⟨node.body.kind, node.mode, size, node.modified, node.accessed, node.changed, node.created, id, 1⟩

end State

end DotnetPal.Memfs
