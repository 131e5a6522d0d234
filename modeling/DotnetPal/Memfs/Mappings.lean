import DotnetPal.Memfs.Nodes

/-!
# The mapping calls of the provider

A shared mapping is a pointer into the pages of the file, a private one is a copy of the range.
Stores of a consumer through its mappings are programs here as well: they change the memory a mapping
points to without a call of the provider.
-/

open Std

namespace DotnetPal.Memfs.Mappings

open Programs

attribute [local instance] lexOrd

/-- A range that may be mapped: the file it is of, and the end of the page holding the file's last
byte. -/
structure Range where
  node : ℕ
  limit : ℕ

/-- A shared mapping that is written through needs a handle that may write. -/
def refuseAccess (s : State) (file : ℕ) (access : UInt32) (shared : Bool) : Result Unit := do
  if shared = true ∧ access &&& Runtime.write ≠ 0 then do
    let _ ← s.fileNode file Files.write
    return ()
  else return ()

def range (file offset length : ℕ) (access : UInt32) (shared : Bool) (s : State) : Result Range := do
  let node ← s.fileNode file Files.read
  refuseAccess s file access shared
  if access &&& Runtime.execute ≠ 0 then .error Error.unsupported
  else do
    let content ← s.content node
    let limit := nextMultipleOfPage content.len
    if limit > usizeMax ∨ offset > usizeMax ∨ offset % page ≠ 0 ∨ offset + length > usizeMax ∨
        length = 0 ∨ offset + length > limit then .error Error.invalidArgument
    else return ⟨node, limit⟩

/-- Moves the content of a file into pages, and tells where they are. -/
def pinNode (env : Env) (range : Range) : Op ℕ := fun s ↦
  match s.nodes[range.node]?.map Node.body with
  | some (.file content) =>
    match Content.pin range.limit (env.pages range.limit) content with
    | .error fault left => .error fault (s.modifyNode range.node (Node.withContent left))
    | .ok base pinned => .ok base (s.modifyNode range.node (Node.withContent pinned))
  | some _ => .error Error.invalidArgument s
  | none => .error Error.invalidArgument s

namespace Record

def put (key : ℕ × ℕ) (mapped : Mapped) (s : State) : State :=
  { s with mappings := s.mappings.insert key mapped }

def drop (key : ℕ × ℕ) (s : State) : State := { s with mappings := s.mappings.erase key }

end Record

/-- Two mappings of one range are one address: the record counts them. -/
def countMapping (node : ℕ) (key : ℕ × ℕ) : Op Unit := fun s ↦
  match s.mappings[key]? with
  | none => .ok () (Record.put key (.shared node 1) s)
  | some (.shared found count) => .ok () (Record.put key (.shared found (count + 1)) s)
  | some (.privateCopy _) => .error Error.os s

def mapShared (env : Env) (range : Range) (offset length : ℕ) : Op ℕ := do
  let base ← pinNode env range
  countMapping range.node (base + offset, length)
  updateNode range.node Node.mapped
  return base + offset

/-- The new pages of a private mapping. -/
def newPages (env : Env) (length : ℕ) : Result ℕ :=
  if nextMultipleOfPage length > usizeMax then .error Error.outOfMemory
  else Result.required (env.pages (nextMultipleOfPage length)) .outOfMemory

/-- The range as the file holds it now; what the file does not fill is zero. -/
def copyOf (content : Content) (offset length : ℕ) : Bytes :=
  let bytes := content.read offset length
  bytes ++ List.replicate (nextMultipleOfPage length - bytes.length) 0

def mapPrivate (env : Env) (node offset length : ℕ) : Op ℕ := do
  let content ← reading (·.content node)
  let base ← reading fun _ ↦ newPages env length
  modify (Record.put (base, length) (.privateCopy (copyOf content offset length)))
  return base

def map (env : Env) (file offset length : ℕ) (access : UInt32) (shared : Bool) : Op ℕ := do
  let range ← reading (range file offset length access shared)
  if shared then mapShared env range offset length else mapPrivate env range.node offset length

def unmapShared (key : ℕ × ℕ) (node count : ℕ) : Op Unit := do
  refuseIf (count = 0) Fault.panic
  modify (if count - 1 = 0 then Record.drop key else Record.put key (.shared node (count - 1)))
  updateNode node Node.unmapped
  reap node

def unmap (addr length : ℕ) : Op Unit := do
  match ← reading fun s ↦ Result.required s.mappings[(addr, length)]? .invalidArgument with
  | .shared node count => unmapShared (addr, length) node count
  | .privateCopy _ => modify (Record.drop (addr, length))

/-- A shared mapping is the file, so there is nothing to carry over. -/
def sync (addr length : ℕ) : Op Unit := do
  let _ ← reading fun s ↦ Result.required s.mappings[(addr, length)]? .invalidArgument
  return ()

/-- The content whose pages hold the byte at `address` gets it. -/
def storeInto (content : Content) (addr : ℕ) (value : UInt8) : Result Content :=
  match content with
  | .pinned pages =>
    if pages.base ≤ addr ∧ addr < pages.base + pages.capacity then
      .ok (.pinned { pages with memory := pages.memory.set (addr - pages.base) value })
    else .error .panic
  | .plain _ => .error .panic

/-- The memory behind a mapping with one byte stored. -/
def stored (addr length i : ℕ) (value : UInt8) (s : State) : Result State := do
  match s.mappings[(addr, length)]? with
  | some (.shared node _) => do
    let content ← s.content node
    let changed ← storeInto content (addr + i) value
    return s.modifyNode node (Node.withContent changed)
  | some (.privateCopy memory) =>
    return Record.put (addr, length) (.privateCopy (memory.set i value)) s
  | none => .error .panic

/-- A consumer stores a byte through a mapping it has. -/
def store (addr length i : ℕ) (value : UInt8) : Op Unit := do
  let s' ← reading (stored addr length i value)
  set s'

end DotnetPal.Memfs.Mappings
