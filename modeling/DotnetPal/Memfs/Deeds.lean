import DotnetPal.Memfs.Locks
import DotnetPal.Memfs.QueueSound

/-!
# What a call does

`Deed` says once, for every call, what it answers and what it leaves where it returns. The
invariants of whole runs are each one case analysis over it. That the calls do nothing else, and
that they leave everything alone where they refuse, is proved with the calls.
-/

open Std

namespace DotnetPal.Memfs

open Programs

attribute [local instance] lexOrd

/-- What more than one call does. -/
inductive Effect
  | looks
  | removes (counted : Bool)
  | creates (parent : ℕ) (mode : UInt32) (body : Body)
  | sets
  | locks (file : ℕ)

/-- The calls that have an effect, and what they answer then. -/
def Call.Has (s : State) : Call → Reply → Effect → Prop
  | .flush _, .done, .looks | .sync _ _, .done, .looks => True
  | .setTimes _ _ accessed modified, .done, .looks => accessed.isNone ∧ modified.isNone
  | .setFileTimes _ accessed modified, .done, .looks => accessed.isNone ∧ modified.isNone
  | .rename source target, .done, .looks => Files.plannedMove source target s = .ok none
  | .status file, .status found, .looks => Files.status file s = .ok found
  | .pathStatus path follow, .status found, .looks => Files.pathStatus path follow s = .ok found
  | .currentDirectory capacity, .text needed text, .looks =>
    Files.currentDirectory capacity s = .ok (needed, text)
  | .readLink path capacity, .text needed text, .looks => Files.readLink path capacity s = .ok (needed, text)
  | .realPath path capacity, .text needed text, .looks => Files.realPath path capacity s = .ok (needed, text)
  | .remove _, .done, .removes counted => counted = true
  | .removeDirectory _, .done, .removes counted => counted = false
  | .createDirectory _ given, .done, .creates parent mode body => mode = given ∧ body = .directory parent ∅
  | .symlink target _, .done, .creates _ mode body => mode = 0o777 ∧ body = .link target
  | .setMode _ _, .done, .sets | .setFileMode _ _, .done, .sets => True
  | .setTimes _ _ _ _, .done, .sets | .setFileTimes _ _ _, .done, .sets => True
  | .lock given _ _, .locked _, .locks file | .lockRange given _ _ _, .done, .locks file => given = file
  | _, _, _ => False

/-- The node a file is opened on, and the state that has it. -/
inductive Opening (env : Env) (s : State) (flags mode : UInt32) : ℕ → State → Prop
  | found {id content} : s.core.content? id = some content → flags &&& Files.truncate = 0 →
      Opening env s flags mode id s
  | truncated {id node content after} : s.nodes[id]? = some node → node.body = .file content →
      flags &&& Files.truncate ≠ 0 →
      Content.Edited content (s.capacity - s.used) (node.maps ≠ 0)
        (Extents.resize 0 content.bytes 0) after →
      Opening env s flags mode id (s.changed env id false content after)
  | created {place : Place} : place.Free s →
      Opening env s flags mode s.nextId (s.created env place mode (.file (.plain Vec.empty)))

/-- Where the pages of a file are once it is mapped shared: where they were, or new. -/
def PinnedTo (env : Env) (content : Content) (pages : Pinned) : Prop :=
  content = .pinned pages ∨
    (content.pages? = none ∧ env.pages (nextMultipleOfPage content.len) = some pages.base ∧
      pages.capacity = nextMultipleOfPage content.len ∧ pages.size = content.len ∧
      (Content.pinned pages).bytes = content.bytes)

/-- What a call that returns answers and leaves. -/
inductive Deed (env : Env) (s : State) : Call → Reply → State → Prop
  | quiet {call reply} : call.Has s reply .looks → Deed env s call reply s
  | openFile {path flags mode id middle} : Opening env s flags mode id middle →
      Deed env s (.openFile path flags mode) (.handle env.box)
        ((middle.modifyNode id Node.opened).addHandle env.box
          (.file id (flags &&& (Files.read ||| Files.write))))
  | close {file id access} : s.handles[file]? = some (.file id access) →
      Deed env s (.close file) .done
        (((s.dropHandle file).modifyNode id (Node.closed file)).reaped id)
  | readAt {file offset capacity id access content} : s.handles[file]? = some (.file id access) →
      s.core.content? id = some content →
      Deed env s (.readAt file offset capacity) (.bytes (content.read offset capacity))
        (applyIf (content.read offset capacity ≠ []) (State.report env id Watches.access) s)
  | writeAt {file offset data id access node content after} : s.handles[file]? = some (.file id access) →
      s.nodes[id]? = some node → node.body = .file content →
      Content.Edited content (s.capacity - s.used) (node.maps ≠ 0)
        (Extents.overwrite 0 content.bytes offset data) after →
      Deed env s (.writeAt file offset data) (.count data.length)
        (s.changed env id (data ≠ []) content after)
  | setSize {file size id access node content after} : s.handles[file]? = some (.file id access) →
      s.nodes[id]? = some node → node.body = .file content →
      Content.Edited content (s.capacity - s.used) (node.maps ≠ 0)
        (Extents.resize 0 content.bytes size) after →
      Deed env s (.setSize file size) .done (s.changed env id false content after)
  | remove {call counted kinds} {removal : Files.Removal} : call.Has s .done (.removes counted) →
      s.core.child? removal.place.parent removal.place.name = some removal.node →
      ((s.core.parent? removal.node).isSome → ∀ name, s.core.child? removal.node name = none) →
      kinds = Watches.delete ||| mark (s.core.parent? removal.node).isSome →
      Deed env s call .done (Files.removed env removal counted kinds s)
  | rename {source target} {move : Files.Move} : move.Sound s →
      Deed env s (.rename source target) .done (Files.renamed env move s)
  | create {call mode body} {place : Place} : call.Has s .done (.creates place.parent mode body) →
      place.Free s → Core.NewBody place.parent body → body.content? = none →
      Deed env s call .done (s.created env place mode body)
  | link {existing created} {linking : Files.Linking} : linking.place.Free s →
      linking.node ∈ s.nodes → s.core.parent? linking.node = none →
      Deed env s (.link existing created) .done (Files.linked env linking s)
  | openDirectory {path listing} :
      Deed env s (.openDirectory path) (.handle env.box)
        (s.addHandle env.box (.directory listing 0))
  | readDirectory {dir capacity listing next name kind} :
      s.handles[dir]? = some (.directory listing next) →
      next + 2 + name.length ≤ listing.length →
      Deed env s (.readDirectory dir capacity) (.entry name kind)
        (s.addHandle dir (.directory listing (next + 2 + name.length)))
  | closeDirectory {dir listing next} : s.handles[dir]? = some (.directory listing next) →
      Deed env s (.closeDirectory dir) .done (s.dropHandle dir)
  | attributes {call id} {change : Node → Node} : call.Has s .done .sets →
      (∀ node, (change node).kept = node.kept ∧ (change node).locks = node.locks) →
      Deed env s call .done ((s.modifyNode id change).report env id Watches.attributes)
  | work {path id} : (s.core.parent? id).isSome →
      Deed env s (.setCurrentDirectory path) .done (Files.setWorking id s)
  | locks {call reply} {file id : ℕ} {access : UInt32} {locks : Vec Lock} : call.Has s reply (.locks file) →
      s.handles[file]? = some (.file id access) →
      (∀ node, s.nodes[id]? = some node →
        Relation.ReflTransGen (LockStep file) node.locks.data locks.data) →
      Deed env s call reply (s.modifyNode id (Node.withLocks locks))
  | openWatcher {queue} : Queue.new env.queue = .ok queue →
      Deed env s .openWatcher (.handle env.box)
        ((Watches.addWatcher s.nextWatcher ⟨queue, Vec.empty, 0⟩ (Watches.countWatcher s)).addHandle
          env.box (.watcher s.nextWatcher))
  | closeWatcher {watcher id} : s.handles[watcher]? = some (.watcher id) →
      Deed env s (.closeWatcher watcher) .done (Watches.dropWatcher id (s.dropHandle watcher))
  | addWatch {watcher path events id node found watch changed} : s.handles[watcher]? = some (.watcher id) →
      Files.resolve path (events &&& Watches.noFollow = 0) s = .ok node →
      (node = root ∨ ∃ dir name, s.core.child? dir name = some node) →
      s.watchers[id]? = some found →
      Watches.added env found node (events &&& requestable) = .ok (watch, changed) →
      Deed env s (.addWatch watcher path events) (.watch watch) (Watches.addWatcher id changed s)
  | removeWatch {watcher watch id found changed} : s.handles[watcher]? = some (.watcher id) →
      s.watchers[id]? = some found → Watches.withoutWatch (env.room id) found watch = .ok changed →
      Deed env s (.removeWatch watcher watch) .done (Watches.addWatcher id changed s)
  | look {watcher id found event queue} : s.handles[watcher]? = some (.watcher id) →
      s.watchers[id]? = some found → found.queue.pop env.fresh = .ok (event, queue) →
      Deed env s (.look watcher) (.event event)
        (Watches.addWatcher id { found with queue := queue } s)
  | mapShared {file offset length access id granted content count} {pages : Pinned} :
      s.handles[file]? = some (.file id granted) → s.core.content? id = some content →
      0 < length → offset + length ≤ nextMultipleOfPage content.len → PinnedTo env content pages →
      pages.Valid → offset + length ≤ pages.capacity →
      (s.mappings[(pages.base + offset, length)]? = none ∧ count = 0 ∨
        s.mappings[(pages.base + offset, length)]? = some (.shared id count)) →
      Deed env s (.map file offset length access true) (.mapped (pages.base + offset))
        ((Mappings.Record.put (pages.base + offset, length) (.shared id (count + 1))
          (s.modifyNode id (Node.withContent (.pinned pages)))).modifyNode id Node.mapped)
  | mapPrivate {file offset length access id granted content base} :
      s.handles[file]? = some (.file id granted) → s.core.content? id = some content →
      0 < length → offset + length ≤ nextMultipleOfPage content.len →
      env.pages (nextMultipleOfPage length) = some base →
      Deed env s (.map file offset length access false) (.mapped base)
        (Mappings.Record.put (base, length) (.privateCopy (Mappings.copyOf content offset length)) s)
  | unmapShared {addr length id count} : s.mappings[(addr, length)]? = some (.shared id count) →
      Deed env s (.unmap addr length) .done
        (((if count - 1 = 0 then Mappings.Record.drop (addr, length)
          else Mappings.Record.put (addr, length) (.shared id (count - 1))) s).modifyNode id
            Node.unmapped |>.reaped id)
  | unmapPrivate {addr length memory} : s.mappings[(addr, length)]? = some (.privateCopy memory) →
      Deed env s (.unmap addr length) .done (Mappings.Record.drop (addr, length) s)
  | setCapacity {bytes} : Deed env s (.setCapacity bytes) .done (setCapacity bytes s)
  | storeShared {addr length i value id count} {pages : Pinned} :
      s.mappings[(addr, length)]? = some (.shared id count) → i < length →
      s.core.content? id = some (.pinned pages) → pages.base ≤ addr →
      addr + i < pages.base + pages.capacity →
      Deed env s (.store addr length i value) .done
        (s.modifyNode id (Node.withContent
          (.pinned { pages with memory := pages.memory.set (addr + i - pages.base) value })))
  | storePrivate {addr length i value memory} :
      s.mappings[(addr, length)]? = some (.privateCopy memory) →
      Deed env s (.store addr length i value) .done
        (Mappings.Record.put (addr, length) (.privateCopy (memory.set i value)) s)

/-- What the calls rely on. -/
structure State.Ready (s : State) : Prop where
  sound : s.core.Sound none
  cursors : ∀ (addr : ℕ) (listing : Bytes) (next : ℕ),
    s.handles[addr]? = some (.directory listing next) → next ≤ listing.length
  framed : ∀ (key : ℕ) (watcher : Watcher), s.watchers[key]? = some watcher → watcher.Framed

end DotnetPal.Memfs
