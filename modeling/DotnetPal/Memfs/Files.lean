import DotnetPal.Memfs.Nodes

/-!
# The file calls of the provider

Each call is one program under the lock. The calls that change the tree first decide every refusal
and then commit; the two parts are separate definitions, because what a commit can still refuse is a
question of its own. A read hands out the bytes it copies: where its buffer lies in a mapping, the
stores into it are stores of the consumer. A waiting lock is a loop of attempts with the lock of the
tree free between them, so one attempt is the call.
-/

open Std

namespace DotnetPal.Memfs.Files

open Programs

/-! ## Opening and closing -/

def truncated (env : Env) (node : ℕ) (flags : UInt32) : Op ℕ := do
  if flags &&& Files.truncate ≠ 0 then do
    change env node false fun room mapped ↦ Content.resize env.content 0 room mapped
    return node
  else return node

/-- The node a file handle is opened on. -/
def openNode (env : Env) (place : Place) (flags mode : UInt32) : Op ℕ :=
  match place.node with
  | some node => do
    refuseIf (flags &&& Files.exclusive ≠ 0) (Error.alreadyExists : Fault)
    let dir ← reading (·.isDirectory node)
    refuseIf (dir = true) (Error.isDirectory : Fault)
    truncated env node flags
  | none => do
    refuseIf (flags &&& Files.create = 0) (Error.notFound : Fault)
    refuseIf (place.slash = true) (Error.isDirectory : Fault)
    create env place mode (.file (.plain Vec.empty))

/-- Without `exclusive` a dangling link leads to the place of the file to create. -/
def openFile (env : Env) (path : Bytes) (flags mode : UInt32) : Op ℕ := do
  let place ← reading (·.walk path (if flags &&& Files.exclusive ≠ 0 then .create else .follow))
  let node ← openNode env place flags mode
  updateNode node Node.opened
  handle env (.file node (flags &&& (Files.read ||| Files.write)))

/-- The node of a file handle of any access; another kind of handle belongs to another closing call. -/
def fileHandle (s : State) (file : ℕ) : Result ℕ := do
  match ← s.borrow file with
  | .file node _ => return node
  | _ => .error Error.invalidArgument

def close (file : ℕ) : Op Unit := do
  let node ← reading (fileHandle · file)
  modify (State.dropHandle file)
  updateNode node (Node.closed file)
  reap node

/-! ## Transfers -/

def readAt (env : Env) (file offset capacity : ℕ) : Op Bytes := do
  let node ← reading (·.fileNode file Files.read)
  let content ← reading (·.content node)
  let bytes := content.read offset capacity
  modify (applyIf (bytes ≠ []) (State.report env node Watches.access))
  return bytes

def writeAt (env : Env) (file offset : ℕ) (data : Bytes) : Op ℕ := do
  let node ← reading (·.fileNode file Files.write)
  change env node (data ≠ []) fun room mapped ↦ Content.write env.content offset data room mapped

def setSize (env : Env) (file size : ℕ) : Op Unit := do
  let node ← reading (·.fileNode file Files.write)
  change env node false fun room mapped ↦ Content.resize env.content size room mapped

def flush (file : ℕ) : Op Unit := do
  let _ ← reading (·.fileNode file 0)
  return ()

/-! ## Removing -/

/-- An entry to take out of its directory, with the node it names. -/
structure Removal where
  place : Place
  node : ℕ

def removal (path : Bytes) (s : State) : Result Removal := do
  let place ← s.walk path .entry
  let node ← Result.required place.node .notFound
  let dir ← s.isDirectory node
  if dir then .error Error.isDirectory else return ⟨place, node⟩

/-- What the node's own watches hear comes before the `delete` of its directory. -/
def commitRemoval (env : Env) (removal : Removal) (counted : Bool) (kinds : UInt32) : Op Unit := do
  updateEntries removal.place.parent (·.erase removal.place.name)
  touch removal.place.parent env.now
  unlinked env removal.node counted
  modify (State.reportEntry env removal.place.parent removal.place.name kinds 0)

def remove (env : Env) (path : Bytes) : Op Unit := do
  let removal ← reading (removal path)
  commitRemoval env removal true Watches.delete

def directoryRemoval (path : Bytes) (s : State) : Result Removal := do
  let place ← s.walk path .entry
  let node ← Result.required place.node .notFound
  let entries ← s.entries node
  if node = root then .error Error.busy
  -- What a final `..` reaches still holds the directory the path came through.
  else if !entries.isEmpty then .error Error.notEmpty
  else if place.name.isEmpty then .error Error.invalidArgument
  else return ⟨place, node⟩

def removeDirectory (env : Env) (path : Bytes) : Op Unit := do
  let removal ← reading (directoryRemoval path)
  commitRemoval env removal false (Watches.delete ||| Watches.directory)

/-! ## Renaming -/

/-- A node to move from one entry to another. -/
structure Move where
  source : Place
  target : Place
  node : ℕ
  directory : Bool

/-- A directory is not moved into itself, and only a directory is named with a slash. -/
def refuseLoop (s : State) (node : ℕ) (dir : Bool) (target : Place) : Result Unit :=
  if dir then s.refuseInside node s.climbBound target.parent
  else if target.slash then .error Error.notDirectory
  else .ok ()

/-- What is replaced is a file or link for one, and an empty directory for a directory. -/
def refuseReplaced (s : State) (dir : Bool) (replaced : Option ℕ) : Result Unit :=
  match replaced with
  | none => .ok ()
  | some replaced => do
    let other ← s.isDirectory replaced
    match dir, other with
    | false, true => .error Error.isDirectory
    | true, false => .error Error.notDirectory
    | true, true => do
      let entries ← s.entries replaced
      if entries.isEmpty then return () else .error Error.notEmpty
    | false, false => return ()

/-- Decides every refusal of a rename; no move is left to do when both names are of one node. -/
def plannedMove (source target : Bytes) (s : State) : Result (Option Move) := do
  let source ← s.walk source .entry
  let node ← Result.required source.node .notFound
  let target ← s.walk target .entry
  if source.name.isEmpty ∨ target.name.isEmpty then .error Error.busy
  else if target.node = some node then return none
  else do
    let dir ← s.isDirectory node
    refuseLoop s node dir target
    refuseReplaced s dir target.node
    return some ⟨source, target, node, dir⟩

/-- The next cookie that pairs the two events of a rename; zero is none. -/
def nextCookie (s : State) : State :=
  { s with cookie := if s.cookie = 0xffffffff then 1 else s.cookie + 1 }

/-- The node that lost its name to a moved one. -/
def replace (env : Env) (replaced : Option ℕ) : Op Unit :=
  match replaced with
  | some node => Memfs.unlinked env node true
  | none => pure ()

def commitMove (env : Env) (move : Move) : Op Unit := do
  updateEntries move.source.parent (·.erase move.source.name)
  let entries ← reading (·.entries move.target.parent)
  updateEntries move.target.parent (·.insert move.target.name move.node)
  modify nextCookie
  let cookie ← reading fun s ↦ .ok s.cookie
  modify (State.reportEntry env move.source.parent move.source.name
    (Watches.movedFrom ||| mark move.directory) cookie)
  modify (State.reportEntry env move.target.parent move.target.name
    (Watches.movedTo ||| mark move.directory) cookie)
  -- What was replaced is no `delete` for its directory: only its own watches hear of it.
  replace env entries[move.target.name]?
  updateNode move.node (Node.moved move.target.parent env.now)
  touch move.source.parent env.now
  touch move.target.parent env.now

def rename (env : Env) (source target : Bytes) : Op Unit := do
  match ← reading (plannedMove source target) with
  | none => return ()
  | some move => commitMove env move

/-! ## Creating directories and links -/

def newDirectory (path : Bytes) (s : State) : Result Place := do
  let place ← s.walk path .create
  if place.node.isSome then .error Error.alreadyExists else return place

def createDirectory (env : Env) (path : Bytes) (mode : UInt32) : Op Unit := do
  let place ← reading (newDirectory path)
  let _ ← create env place mode (.directory place.parent ∅)
  return ()

/-- A new name for a node. -/
structure Linking where
  place : Place
  node : ℕ

/-- A link in the final name of `existing` is itself what gets the new name, and a directory is
refused once `created` is known to be free. -/
def linking (existing created : Bytes) (s : State) : Result Linking := do
  let found ← s.walk existing .keep
  let node ← Result.required found.node .notFound
  let place ← s.vacant created
  let dir ← s.isDirectory node
  if dir then .error Error.accessDenied else return ⟨place, node⟩

/-- The link count is told under the names the file had, then the new name. -/
def commitLinking (env : Env) (linking : Linking) : Op Unit := do
  modify (State.report env linking.node Watches.attributes)
  updateEntries linking.place.parent (·.insert linking.place.name linking.node)
  updateNode linking.node (Node.linked env.now)
  touch linking.place.parent env.now
  modify (State.reportEntry env linking.place.parent linking.place.name Watches.create 0)

def link (env : Env) (existing created : Bytes) : Op Unit := do
  let linking ← reading (linking existing created)
  commitLinking env linking

def symlink (env : Env) (target created : Bytes) : Op Unit := do
  refuseIf (target.isEmpty = true) (Error.notFound : Fault)
  refuseIf (target.length > Runtime.maxName) (Error.nameTooLong : Fault)
  refuseIf (env.text = false) (Error.noSpace : Fault)
  let place ← reading (·.vacant created)
  let _ ← create env place 0o777 (.link target)
  return ()

/-! ## Directory handles -/

/-- The listing of a directory: kind, length and name of each entry, in the order of the names. -/
def listing (s : State) (entries : Entries) : Result Bytes :=
  entries.toList.foldlM (fun listed entry ↦ do
    let kind ← s.kind entry.2
    return listed ++ kind.code :: UInt8.ofNat entry.1.length :: entry.1) []

def snapshot (env : Env) (path : Bytes) (s : State) : Result Bytes := do
  let place ← s.walk path .follow
  let node ← Result.required place.node .notFound
  let entries ← s.entries node
  if env.listing then listing s entries else .error Error.outOfMemory

def openDirectory (env : Env) (path : Bytes) : Op ℕ := do
  let listing ← reading (snapshot env path)
  handle env (.directory listing 0)

/-- The listing and the cursor of a directory handle. -/
def directoryHandle (s : State) (dir : ℕ) : Result (Bytes × ℕ) := do
  match ← s.borrow dir with
  | .directory listing next => return (listing, next)
  | _ => .error Error.invalidArgument

/-- The entry at the cursor with the code of its kind. -/
def entryAt (listing : Bytes) (next capacity : ℕ) : Result (Bytes × UInt8) :=
  if listing.length < next then .error .panic
  else match listing.drop next with
    | kind :: length :: rest =>
      if rest.length < length.toNat then .error Error.os
      else if length.toNat > capacity then .error Error.invalidArgument
      else .ok (rest.take length.toNat, kind)
    | _ => .error Error.notFound

def readDirectory (dir capacity : ℕ) : Op (Bytes × UInt8) := do
  let (listing, next) ← reading (directoryHandle · dir)
  let (name, kind) ← reading fun _ ↦ entryAt listing next capacity
  modify (State.addHandle dir (.directory listing (next + 2 + name.length)))
  return (name, kind)

def closeDirectory (dir : ℕ) : Op Unit := do
  let _ ← reading (directoryHandle · dir)
  modify (State.dropHandle dir)

/-! ## Paths, modes and times -/

def status (file : ℕ) (s : State) : Result Status := do
  let node ← s.fileNode file 0
  s.status node

/-- The node a path names, with a final link resolved when `follow` asks for it. -/
def resolve (path : Bytes) (follow : Bool) (s : State) : Result ℕ := do
  let place ← s.walk path (if follow then .follow else .keep)
  Result.required place.node .notFound

def pathStatus (path : Bytes) (follow : Bool) (s : State) : Result Status := do
  let node ← resolve path follow s
  s.status node

def currentDirectory (capacity : ℕ) (s : State) : Result (ℕ × Option Bytes) := do
  let working ← s.workingDirectory
  s.spell working [] capacity

def setMode (env : Env) (path : Bytes) (mode : UInt32) : Op Unit := do
  let node ← reading (resolve path true)
  setNodeMode env node mode

def setFileMode (env : Env) (file : ℕ) (mode : UInt32) : Op Unit := do
  let node ← reading (·.fileNode file 0)
  setNodeMode env node mode

def setTimes (env : Env) (path : Bytes) (follow : Bool) (accessed modified : Option ℕ) : Op Unit := do
  let node ← reading (resolve path follow)
  setNodeTimes env node accessed modified

def setFileTimes (env : Env) (file : ℕ) (accessed modified : Option ℕ) : Op Unit := do
  let node ← reading (·.fileNode file 0)
  setNodeTimes env node accessed modified

/-- The length of a link's target with its terminator, and the target if `capacity` holds that. -/
def readLink (path : Bytes) (capacity : ℕ) (s : State) : Result (ℕ × Option Bytes) := do
  let id ← resolve path false s
  let node ← s.node id
  match node.body with
  | .link target => return (target.length + 1, if target.length < capacity then some target else none)
  | _ => .error Error.invalidArgument

def realPath (path : Bytes) (capacity : ℕ) (s : State) : Result (ℕ × Option Bytes) := do
  let place ← s.walk path .follow
  let _ ← Result.required place.node .notFound
  s.spell place.parent place.name capacity

/-- The directory a path names. -/
def resolveDirectory (path : Bytes) (s : State) : Result ℕ := do
  let node ← resolve path true s
  let _ ← s.entries node
  return node

def setWorking (node : ℕ) (s : State) : State := { s with working := node }

def setCurrentDirectory (path : Bytes) : Op Unit := do
  let node ← reading (resolveDirectory path)
  modify (setWorking node)

/-! ## Locks -/

/-- The end of a lock on a whole file. -/
def wholeEnd : ℕ := 2 ^ 64 - 1

def wholeLock (file : ℕ) (mode : Files.LockMode) : Lock :=
  ⟨file, true, 0, wholeEnd, mode = .exclusive⟩

/-- Takes the lock and returns whether the call is done: an attempt that is blocked goes again when
the call waits. -/
def attempt (env : Env) (node : ℕ) (mode : Files.LockMode) (wait : Bool) (wanted : Lock) : Op Bool :=
  fun s ↦ match relock node env.lock mode wanted s with
    | .ok () s' => .ok true s'
    | .error fault s' =>
      if fault = .error .wouldBlock ∧ wait = true then .ok false s' else .error fault s'

/-- One attempt of a lock call. A handle that asks for the other mode gives up the one it holds
first, so a refused conversion leaves it with no lock. -/
def lock (env : Env) (file : ℕ) (mode : Files.LockMode) (wait : Bool) : Op Bool := do
  let node ← reading (·.fileNode file 0)
  relock node env.unlock .unlock (wholeLock file mode)
  attempt env node mode wait (wholeLock file mode)

/-- The access a lock on a range asks of its handle. -/
def rangeAccess : Files.LockMode → UInt32
  | .unlock => 0
  | .exclusive => Files.write
  | .shared => Files.read

def lockRange (env : Env) (file offset length : ℕ) (mode : Files.LockMode) : Op Unit := do
  let node ← reading (·.fileNode file (rangeAccess mode))
  refuseIf (offset + length > wholeEnd ∨ length = 0) (Error.invalidArgument : Fault)
  relock node env.lock mode ⟨file, false, offset, offset + length, mode = .exclusive⟩

end DotnetPal.Memfs.Files
