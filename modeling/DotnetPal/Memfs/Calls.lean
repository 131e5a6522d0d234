import DotnetPal.Memfs.Files
import DotnetPal.Memfs.Watches
import DotnetPal.Memfs.Mappings

/-!
# The provider as a system

Every call of the provider, the capacity a port sets and the stores of consumers are the steps of one
system. A step is what one holder of the lock does; calls of any number of threads interleave as
steps. The outside is honest: new memory is where nothing else is, and consumers pass handles they
were given and store where they have a mapping.
-/

open Std

namespace DotnetPal.Memfs

open Programs

attribute [local instance] lexOrd

inductive Call
  | openFile (path : Bytes) (flags mode : UInt32)
  | close (file : ℕ)
  | readAt (file offset capacity : ℕ)
  | writeAt (file offset : ℕ) (data : Bytes)
  | setSize (file size : ℕ)
  | flush (file : ℕ)
  | status (file : ℕ)
  | pathStatus (path : Bytes) (follow : Bool)
  | remove (path : Bytes)
  | rename (source target : Bytes)
  | createDirectory (path : Bytes) (mode : UInt32)
  | removeDirectory (path : Bytes)
  | openDirectory (path : Bytes)
  | readDirectory (dir capacity : ℕ)
  | closeDirectory (dir : ℕ)
  | currentDirectory (capacity : ℕ)
  | setMode (path : Bytes) (mode : UInt32)
  | setFileMode (file : ℕ) (mode : UInt32)
  | setTimes (path : Bytes) (follow : Bool) (accessed modified : Option ℕ)
  | setFileTimes (file : ℕ) (accessed modified : Option ℕ)
  | link (existing created : Bytes)
  | symlink (target created : Bytes)
  | readLink (path : Bytes) (capacity : ℕ)
  | realPath (path : Bytes) (capacity : ℕ)
  | setCurrentDirectory (path : Bytes)
  | lock (file : ℕ) (mode : Files.LockMode) (wait : Bool)
  | lockRange (file offset length : ℕ) (mode : Files.LockMode)
  | openWatcher
  | closeWatcher (watcher : ℕ)
  | addWatch (watcher : ℕ) (path : Bytes) (events : UInt32)
  | removeWatch (watcher : ℕ) (watch : UInt32)
  | look (watcher : ℕ)
  | map (file offset length : ℕ) (access : UInt32) (shared : Bool)
  | unmap (addr length : ℕ)
  | sync (addr length : ℕ)
  | setCapacity (bytes : ℕ)
  | store (addr length i : ℕ) (value : UInt8)

/-- What a call answers. -/
inductive Reply
  | done
  | handle (addr : ℕ)
  | bytes (bytes : Bytes)
  | count (count : ℕ)
  | status (status : Status)
  | text (needed : ℕ) (text : Option Bytes)
  | entry (name : Bytes) (kind : UInt8)
  | locked (done : Bool)
  | watch (id : UInt32)
  | event (event : Option Offer)
  | mapped (addr : ℕ)

def setCapacity (bytes : ℕ) (s : State) : State := { s with capacity := bytes }

/-- The call under the lock. -/
def exec (env : Env) : Call → Op Reply
  | .openFile path flags mode => Reply.handle <$> Files.openFile env path flags mode
  | .close file => (fun _ ↦ Reply.done) <$> Files.close file
  | .readAt file offset capacity => Reply.bytes <$> Files.readAt env file offset capacity
  | .writeAt file offset data => Reply.count <$> Files.writeAt env file offset data
  | .setSize file size => (fun _ ↦ Reply.done) <$> Files.setSize env file size
  | .flush file => (fun _ ↦ Reply.done) <$> Files.flush file
  | .status file => Reply.status <$> reading (Files.status file)
  | .pathStatus path follow => Reply.status <$> reading (Files.pathStatus path follow)
  | .remove path => (fun _ ↦ Reply.done) <$> Files.remove env path
  | .rename source target => (fun _ ↦ Reply.done) <$> Files.rename env source target
  | .createDirectory path mode => (fun _ ↦ Reply.done) <$> Files.createDirectory env path mode
  | .removeDirectory path => (fun _ ↦ Reply.done) <$> Files.removeDirectory env path
  | .openDirectory path => Reply.handle <$> Files.openDirectory env path
  | .readDirectory dir capacity =>
    (fun entry ↦ Reply.entry entry.1 entry.2) <$> Files.readDirectory dir capacity
  | .closeDirectory dir => (fun _ ↦ Reply.done) <$> Files.closeDirectory dir
  | .currentDirectory capacity =>
    (fun text ↦ Reply.text text.1 text.2) <$> reading (Files.currentDirectory capacity)
  | .setMode path mode => (fun _ ↦ Reply.done) <$> Files.setMode env path mode
  | .setFileMode file mode => (fun _ ↦ Reply.done) <$> Files.setFileMode env file mode
  | .setTimes path follow accessed modified =>
    (fun _ ↦ Reply.done) <$> Files.setTimes env path follow accessed modified
  | .setFileTimes file accessed modified =>
    (fun _ ↦ Reply.done) <$> Files.setFileTimes env file accessed modified
  | .link existing created => (fun _ ↦ Reply.done) <$> Files.link env existing created
  | .symlink target created => (fun _ ↦ Reply.done) <$> Files.symlink env target created
  | .readLink path capacity =>
    (fun text ↦ Reply.text text.1 text.2) <$> reading (Files.readLink path capacity)
  | .realPath path capacity =>
    (fun text ↦ Reply.text text.1 text.2) <$> reading (Files.realPath path capacity)
  | .setCurrentDirectory path => (fun _ ↦ Reply.done) <$> Files.setCurrentDirectory path
  | .lock file mode wait => Reply.locked <$> Files.lock env file mode wait
  | .lockRange file offset length mode => (fun _ ↦ Reply.done) <$> Files.lockRange env file offset length mode
  | .openWatcher => Reply.handle <$> Watches.openWatcher env
  | .closeWatcher watcher => (fun _ ↦ Reply.done) <$> Watches.closeWatcher watcher
  | .addWatch watcher path events => Reply.watch <$> Watches.add env watcher path events
  | .removeWatch watcher watch => (fun _ ↦ Reply.done) <$> Watches.remove env watcher watch
  | .look watcher => Reply.event <$> Watches.look env watcher
  | .map file offset length access shared =>
    Reply.mapped <$> Mappings.map env file offset length access shared
  | .unmap addr length => (fun _ ↦ Reply.done) <$> Mappings.unmap addr length
  | .sync addr length => (fun _ ↦ Reply.done) <$> Mappings.sync addr length
  | .setCapacity bytes => (fun _ ↦ Reply.done) <$> (modify (setCapacity bytes) : Op Unit)
  | .store addr length i value => (fun _ ↦ Reply.done) <$> Mappings.store addr length i value

/-- The handle a call is given. -/
def Call.handle? : Call → Option ℕ
  | .close file | .readAt file _ _ | .writeAt file _ _ | .setSize file _ | .flush file
  | .status file => some file
  | .readDirectory dir _ | .closeDirectory dir => some dir
  | .setFileMode file _ | .setFileTimes file _ _ | .lock file _ _ | .lockRange file _ _ _ => some file
  | .closeWatcher watcher | .addWatch watcher _ _ | .removeWatch watcher _ | .look watcher => some watcher
  | .map file _ _ _ _ => some file
  | _ => none

/-! ## Honest steps -/

/-- A handle is trusted where it is refused by its value, or points to a box. -/
def State.Trusts (s : State) (addr : ℕ) : Prop :=
  addr = 0 ∨ addr % handleAlign ≠ 0 ∨ (s.handles[addr]?).isSome

/-- Handles come from the provider, and a store goes through a mapping that is there. -/
structure Call.Trusted (call : Call) (s : State) : Prop where
  handle : ∀ addr, call.handle? = some addr → s.Trusts addr
  store : ∀ addr length i value, call = .store addr length i value →
    (s.mappings[(addr, length)]?).isSome ∧ i < length

/-- What owns a block of pages: a file that was mapped shared, or a private mapping. -/
inductive Owner
  | node (id : ℕ)
  | copy (key : ℕ × ℕ)
  deriving DecidableEq

/-- The pages that hold the content of a node. -/
def Body.pages? : Body → Option (ℕ × ℕ)
  | .file content => content.pages?
  | _ => none

/-- The block of pages an owner has: where it begins, and how long it is. -/
def State.block (s : State) : Owner → Option (ℕ × ℕ)
  | .node id => s.nodes[id]?.bind fun node ↦ node.body.pages?
  | .copy key => match s.mappings[key]? with
    | some (.privateCopy _) => some (key.1, nextMultipleOfPage key.2)
    | _ => none

/-- Two ranges of memory share no byte. -/
def Apart (first second : ℕ × ℕ) : Prop :=
  first.1 + first.2 ≤ second.1 ∨ second.1 + second.2 ≤ first.1

/-- New memory is aligned, inside the address space, and where nothing else is. -/
structure Env.Honest (env : Env) (s : State) : Prop where
  box_fresh : s.handles[env.box]? = none
  box_value : env.box ≠ 0 ∧ env.box % handleAlign = 0
  pages_apart : ∀ size base, env.pages size = some base →
    ∀ owner block, s.block owner = some block → Apart (base, size) block
  pages_inside : ∀ size base, env.pages size = some base →
    0 < base ∧ page ∣ base ∧ base + size ≤ usizeMax

/-- The calls of the provider and the stores of its consumers. -/
def system : System State where
  start s := s = State.static.acquire
  step s s' := ∃ env call, env.Honest s ∧ call.Trusted s ∧
    s' = after (exec env call) s.acquire

end DotnetPal.Memfs
