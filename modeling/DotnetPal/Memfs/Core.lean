import DotnetPal.Foundations.DirectoryTree
import DotnetPal.Memfs.Calls

/-!
# The core of the state

What lifetimes, the tree, the accounting and the memory of files depend on: the counts and the
body of every node, who holds handles, and the mappings. Modes, times, locks, watchers and
directory cursors are not part of it. Everything the provider does to the core is one of the steps
below, a call being at most two of them; the invariants are about these steps, and the calls are
shown to take no others.
-/

open Std

namespace DotnetPal.Memfs

open Hierarchy DirectoryTree

attribute [local instance] lexOrd

/-- One to `maxEntryName` bytes without a slash that are neither `.` nor `..`. -/
def ValidName (name : Bytes) : Prop :=
  name ≠ [] ∧ name.length ≤ Files.maxEntryName ∧ slash ∉ name ∧ name ≠ dot ∧ name ≠ dotDot

namespace Body

def directory? : Body → Option (ℕ × Entries)
  | .directory parent entries => some (parent, entries)
  | _ => none

def content? : Body → Option Content
  | .file content => some content
  | _ => none

end Body

/-- What of a node the handles and mappings of a file depend on. -/
@[ext]
structure FilePart where
  opens : ℕ
  maps : ℕ
  content : Option Content

namespace FilePart

/-- The bytes of content a node accounts for. -/
def size (part : FilePart) : ℕ := (part.content.map Content.len).getD 0

def withOpens (change : ℕ → ℕ) (part : FilePart) : FilePart := { part with opens := change part.opens }

def withMaps (change : ℕ → ℕ) (part : FilePart) : FilePart := { part with maps := change part.maps }

def withContent (content : Content) (part : FilePart) : FilePart := { part with content := some content }

end FilePart

/-- What a node is kept by, and its body. -/
structure Kept where
  links : ℕ
  opens : ℕ
  maps : ℕ
  body : Body

namespace Kept

def shape (kept : Kept) : Shape ℕ Bytes compare := ⟨kept.links, kept.body.directory?⟩

def filePart (kept : Kept) : FilePart := ⟨kept.opens, kept.maps, kept.body.content?⟩

def withEntries (change : Entries → Entries) (kept : Kept) : Kept :=
  match kept.body with
  | .directory parent entries => { kept with body := .directory parent (change entries) }
  | _ => kept

def withParent (parent : ℕ) (kept : Kept) : Kept :=
  match kept.body with
  | .directory _ entries => { kept with body := .directory parent entries }
  | _ => kept

def withLinks (change : ℕ → ℕ) (kept : Kept) : Kept := { kept with links := change kept.links }

def withOpens (change : ℕ → ℕ) (kept : Kept) : Kept := { kept with opens := change kept.opens }

def withMaps (change : ℕ → ℕ) (kept : Kept) : Kept := { kept with maps := change kept.maps }

def withContent (content : Content) (kept : Kept) : Kept := { kept with body := .file content }

end Kept

def Node.kept (node : Node) : Kept := ⟨node.links, node.opens, node.maps, node.body⟩

/-- The node of a file handle. -/
def Handle.node? : Handle → Option ℕ
  | .file node _ => some node
  | _ => none

structure Core where
  nodes : ExtTreeMap ℕ Kept
  nextId : ℕ
  used : ℕ
  capacity : ℕ
  working : ℕ
  mappings : ExtTreeMap (ℕ × ℕ) Mapped
  /-- The node of every file handle; other handles are only there. -/
  handles : ExtTreeMap ℕ (Option ℕ)

def State.core (s : State) : Core where
  nodes := s.nodes.map fun _ node ↦ node.kept
  nextId := s.nextId
  used := s.used
  capacity := s.capacity
  working := s.working
  mappings := s.mappings
  handles := s.handles.map fun _ handle ↦ handle.node?

namespace Core

/-- The table as the tree sees it. -/
def shapes (core : Core) : ExtTreeMap ℕ (Shape ℕ Bytes compare) := core.nodes.map fun _ kept ↦ kept.shape

/-- The table as handles and mappings see it. -/
def files (core : Core) : ExtTreeMap ℕ FilePart := core.nodes.map fun _ kept ↦ kept.filePart

/-- The parent of a directory. -/
def parent? (core : Core) (id : ℕ) : Option ℕ := parentOf core.shapes id

/-- The node an entry of a directory names. -/
def child? (core : Core) (dir : ℕ) (name : Bytes) : Option ℕ := entryOf core.shapes dir name

/-- The content of a file. -/
def content? (core : Core) (id : ℕ) : Option Content := core.files[id]?.bind FilePart.content

/-- The block of pages an owner has. -/
def block (core : Core) : Owner → Option (ℕ × ℕ)
  | .node id => (core.content? id).bind Content.pages?
  | .copy key => match core.mappings[key]? with
    | some (.privateCopy _) => some (key.1, nextMultipleOfPage key.2)
    | _ => none

/-! ## Changes -/

def modifyNode (id : ℕ) (change : Kept → Kept) (core : Core) : Core :=
  { core with nodes := core.nodes.modify id change }

/-- The core without a node that nothing refers to. -/
def reaped (id : ℕ) (core : Core) : Core :=
  match core.nodes[id]? with
  | none => core
  | some kept =>
    if kept.links = 0 ∧ kept.opens = 0 ∧ kept.maps = 0 then
      { core with nodes := core.nodes.erase id, used := core.used - kept.filePart.size }
    else core

/-- A new node under a new name. -/
def attached (parent : ℕ) (name : Bytes) (body : Body) (core : Core) : Core :=
  { core with
    nodes := (core.nodes.modify parent (Kept.withEntries (·.insert name core.nextId))).insert core.nextId
      ⟨1, 0, 0, body⟩
    nextId := core.nextId + 1 }

/-- A name is taken away from a node, which goes with the last thing that refers to it. -/
def detached (parent : ℕ) (name : Bytes) (id : ℕ) (core : Core) : Core :=
  ((core.modifyNode parent (Kept.withEntries (·.erase name))).modifyNode id
    (Kept.withLinks (· - 1))).reaped id

/-- A node moves from one entry to another that is free. -/
def moved (source : ℕ) (old : Bytes) (target : ℕ) (new : Bytes) (id : ℕ) (core : Core) : Core :=
  ((core.modifyNode source (Kept.withEntries (·.erase old))).modifyNode target
    (Kept.withEntries (·.insert new id))).modifyNode id (Kept.withParent target)

/-- A node gets another name. -/
def linked (parent : ℕ) (name : Bytes) (id : ℕ) (core : Core) : Core :=
  (core.modifyNode parent (Kept.withEntries (·.insert name id))).modifyNode id (Kept.withLinks (· + 1))

def withHandle (addr : ℕ) (node : Option ℕ) (core : Core) : Core :=
  { core with handles := core.handles.insert addr node }

def withoutHandle (addr : ℕ) (core : Core) : Core :=
  { core with handles := core.handles.erase addr }

def opened (addr id : ℕ) (core : Core) : Core :=
  (core.modifyNode id (Kept.withOpens (· + 1))).withHandle addr (some id)

def closed (addr id : ℕ) (core : Core) : Core :=
  ((core.withoutHandle addr).modifyNode id (Kept.withOpens (· - 1))).reaped id

/-- A file gets other content. -/
def edited (id : ℕ) (before after : Content) (core : Core) : Core :=
  { core.modifyNode id (Kept.withContent after) with used := core.used - before.len + after.len }

def withMapping (key : ℕ × ℕ) (mapped : Mapped) (core : Core) : Core :=
  { core with mappings := core.mappings.insert key mapped }

def withoutMapping (key : ℕ × ℕ) (core : Core) : Core :=
  { core with mappings := core.mappings.erase key }

/-- A shared range of a file whose content lives in `pages`. -/
def mappedShared (key : ℕ × ℕ) (id count : ℕ) (pages : Pinned) (core : Core) : Core :=
  ((core.modifyNode id (Kept.withContent (.pinned pages))).withMapping key
    (.shared id (count + 1))).modifyNode id (Kept.withMaps (· + 1))

/-- A record of a range that was handed out `count` times counts one less, or goes. -/
def lessened (key : ℕ × ℕ) (id count : ℕ) (core : Core) : Core :=
  if count - 1 = 0 then core.withoutMapping key else core.withMapping key (.shared id (count - 1))

/-- One of the `count` times a range was handed out is over. -/
def unmappedShared (key : ℕ × ℕ) (id count : ℕ) (core : Core) : Core :=
  ((core.lessened key id count).modifyNode id (Kept.withMaps (· - 1))).reaped id

/-! ## Steps -/

/-- What a node that is created is made of. -/
inductive NewBody (parent : ℕ) : Body → Prop
  | file : NewBody parent (.file (.plain Vec.empty))
  | directory : NewBody parent (.directory parent ∅)
  | link (target : Bytes) : NewBody parent (.link target)

/-- Everything the provider and its consumers do to the core. -/
inductive Step (core : Core) : Core → Prop
  | attach {parent name body} : (core.parent? parent).isSome → core.child? parent name = none →
      ValidName name → NewBody parent body → Step core (core.attached parent name body)
  | detach {parent name id} : core.child? parent name = some id →
      ((core.parent? id).isSome → ∀ other, core.child? id other = none) →
      Step core (core.detached parent name id)
  | move {source old target new id} : core.child? source old = some id → (core.parent? target).isSome →
      core.child? target new = none → ValidName new →
      ((core.parent? id).isSome → Avoids core.parent? root id target) →
      Step core (core.moved source old target new id)
  | link {parent name id kept} : (core.parent? parent).isSome → core.child? parent name = none →
      ValidName name → core.nodes[id]? = some kept → core.parent? id = none →
      Step core (core.linked parent name id)
  | openFile {addr id content} : core.handles[addr]? = none → core.content? id = some content →
      Step core (core.opened addr id)
  | close {addr id} : core.handles[addr]? = some (some id) → Step core (core.closed addr id)
  | box {addr} : core.handles[addr]? = none → Step core (core.withHandle addr none)
  | unbox {addr} : core.handles[addr]? = some none → Step core (core.withoutHandle addr)
  | edit {id kept before after bytes} : core.nodes[id]? = some kept → kept.body = .file before →
      Content.Edited before (core.capacity - core.used) (kept.maps ≠ 0) bytes after →
      Step core (core.edited id before after)
  | work {id} : (core.parent? id).isSome → Step core { core with working := id }
  | setCapacity {bytes} : Step core { core with capacity := bytes }
  /-- The range lies in the pages of the file, which are there or are new. -/
  | mapShared {start length id count content pages} : core.content? id = some content →
      (content = .pinned pages ∨
        (content.pages? = none ∧ pages.size = content.len ∧ (Content.pinned pages).bytes = content.bytes ∧
          ∀ owner block, core.block owner = some block → Apart (pages.base, pages.capacity) block)) →
      pages.Valid → 0 < length → start + length ≤ pages.capacity →
      (core.mappings[(pages.base + start, length)]? = none ∧ count = 0 ∨
        core.mappings[(pages.base + start, length)]? = some (.shared id count)) →
      Step core (core.mappedShared (pages.base + start, length) id count pages)
  | mapPrivate {base length memory} : 0 < length → memory.length = nextMultipleOfPage length →
      (∀ owner block, core.block owner = some block → Apart (base, nextMultipleOfPage length) block) →
      Step core (core.withMapping (base, length) (.privateCopy memory))
  | unmapShared {key id count} : core.mappings[key]? = some (.shared id count) →
      Step core (core.unmappedShared key id count)
  | unmapPrivate {key memory} : core.mappings[key]? = some (.privateCopy memory) →
      Step core (core.withoutMapping key)
  | storeShared {id addr pages value} : core.content? id = some (.pinned pages) →
      pages.base ≤ addr → addr < pages.base + pages.capacity →
      Step core (core.modifyNode id (Kept.withContent
        (.pinned { pages with memory := pages.memory.set (addr - pages.base) value })))
  | storePrivate {key memory i value} : core.mappings[key]? = some (.privateCopy memory) →
      Step core (core.withMapping key (.privateCopy (memory.set i value)))

end Core

end DotnetPal.Memfs
