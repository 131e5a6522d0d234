import DotnetPal.Memfs.Nodes

/-!
# The watch calls of the provider

The calls that change the tree queue their events themselves, so a reader never looks at the tree. A
read that finds no event lets the lock go and looks again later; one look is the call here.
-/

open Std

namespace DotnetPal.Memfs.Watches

open Programs

def addWatcher (id : ℕ) (watcher : Watcher) (s : State) : State :=
  { s with watchers := s.watchers.insert id watcher }

def countWatcher (s : State) : State := { s with nextWatcher := s.nextWatcher + 1 }

def dropWatcher (id : ℕ) (s : State) : State :=
  { s with watchers := s.watchers.erase id }

def openWatcher (env : Env) : Op ℕ := do
  let queue ← reading fun _ ↦ Queue.new env.queue
  let id ← reading fun s ↦ .ok s.nextWatcher
  modify countWatcher
  modify (addWatcher id ⟨queue, Vec.empty, 0⟩)
  handle env (.watcher id)

def closeWatcher (watcher : ℕ) : Op Unit := do
  let id ← reading (·.watcherId watcher)
  modify (State.dropHandle watcher)
  modify (dropWatcher id)

/-- Watching a node again changes the kinds its watch asks for; a new watch gets the next id. -/
def added (env : Env) (watcher : Watcher) (node : ℕ) (wanted : UInt32) : Result (UInt32 × Watcher) :=
  match watcher.watches.data.findIdx? fun watch ↦ watch.node = node with
  | some i =>
    match watcher.watches.data[i]? with
    | some known =>
      .ok (known.id, { watcher with
        watches := watcher.watches.withData (watcher.watches.data.set i { known with events := wanted }) })
    | none => .error .panic
  | none =>
    if watcher.last = 0xffffffff then .error Error.noSpace
    else match watcher.watches.tryReserve 1 env.watches with
      | none => .error Error.outOfMemory
      | some reserved =>
        .ok (watcher.last + 1, { watcher with
          watches := reserved.extend [⟨watcher.last + 1, node, wanted⟩]
          last := watcher.last + 1 })

/-- A watch may ask for its node to be a directory. -/
def refuseFile (s : State) (node : ℕ) (events : UInt32) : Result Unit :=
  if events &&& Watches.onlyDirectory ≠ 0 then do
    let dir ← s.isDirectory node
    if dir then return () else .error Error.notDirectory
  else .ok ()

/-- The watch to make or change: the key of its watcher, its id and the watcher with it. -/
def adding (env : Env) (watcher : ℕ) (path : Bytes) (events : UInt32) (s : State) :
    Result (ℕ × UInt32 × Watcher) :=
  if events &&& requestable = 0 then .error Error.invalidArgument
  else do
    let id ← s.watcherId watcher
    let place ← s.walk path (if events &&& Watches.noFollow ≠ 0 then .keep else .follow)
    let node ← Result.required place.node .notFound
    refuseFile s node events
    let found ← s.watcher id
    let (watch, changed) ← added env found node (events &&& requestable)
    return (id, watch, changed)

def add (env : Env) (watcher : ℕ) (path : Bytes) (events : UInt32) : Op UInt32 := do
  let (id, watch, changed) ← reading (adding env watcher path events)
  modify (addWatcher id changed)
  return watch

/-- The watcher without one of its watches, which hears of its end. -/
def withoutWatch (room : Queue → Option ℕ) (watcher : Watcher) (watch : UInt32) : Result Watcher :=
  match watcher.watches.data.findIdx? fun known ↦ known.id = watch with
  | none => .error Error.invalidArgument
  | some i =>
    .ok ({ watcher with watches := watcher.watches.withData (watcher.watches.data.eraseIdx i) }.tell
      room [⟨watch, Watches.removed, 0, []⟩])

def removing (env : Env) (watcher : ℕ) (watch : UInt32) (s : State) : Result (ℕ × Watcher) := do
  let id ← s.watcherId watcher
  let found ← s.watcher id
  let changed ← withoutWatch (env.room id) found watch
  return (id, changed)

/-- A watch that has ended, by this call or with its node, is `invalidArgument`. -/
def remove (env : Env) (watcher : ℕ) (watch : UInt32) : Op Unit := do
  let (id, changed) ← reading (removing env watcher watch)
  modify (addWatcher id changed)

def popped (env : Env) (watcher : ℕ) (s : State) : Result (Option Offer × ℕ × Watcher) := do
  let id ← s.watcherId watcher
  let found ← s.watcher id
  let (event, queue) ← found.queue.pop env.fresh
  return (event, id, { found with queue := queue })

/-- One look of a read. -/
def look (env : Env) (watcher : ℕ) : Op (Option Offer) := do
  let (event, id, changed) ← reading (popped env watcher)
  modify (addWatcher id changed)
  return event

end DotnetPal.Memfs.Watches
