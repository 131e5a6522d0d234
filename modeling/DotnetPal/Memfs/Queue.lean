import DotnetPal.Foundations.GrowableArray
import DotnetPal.Port
import DotnetPal.Memfs.Content

/-!
# Event queues and watchers

A watcher keeps the events that wait for its reader as encoded records. An event without room, or
beyond the limit, is dropped, and one overflow record says so. A queue also carries `history`, the
events ever offered to it with whether they were queued: no computation reads it, statements do.
-/

namespace DotnetPal.Memfs

/-- Events a watcher keeps for a reader that does not keep up. -/
def queueLimit : ℕ := 1024

/-- The kinds of event a watch can ask for. -/
def requestable : UInt32 :=
  Watches.access ||| Watches.modify ||| Watches.attributes ||| Watches.movedFrom ||| Watches.movedTo |||
    Watches.create ||| Watches.delete

/-- An event as it is offered to a queue. -/
structure Offer where
  watch : UInt32
  events : UInt32
  cookie : UInt32
  name : Bytes
  deriving DecidableEq, Repr

structure Queue where
  bytes : Vec UInt8
  count : ℕ
  lost : Bool
  /-- Every event offered so far, oldest first, with whether it was queued. -/
  history : List (Offer × Bool)

namespace Queue

/-- The bytes of a record before its name. -/
def header : ℕ := 13

/-- A word in the order of a little-endian target. -/
def wordBytes (word : UInt32) : Bytes :=
  [word.toUInt8, (word >>> 8).toUInt8, (word >>> 16).toUInt8, (word >>> 24).toUInt8]

def wordOf (bytes : Bytes) : UInt32 :=
  bytes.foldr (fun byte word ↦ (word <<< 8) ||| byte.toUInt32) 0

/-- The record of an event. -/
def encode (offer : Offer) : Bytes :=
  wordBytes offer.watch ++ wordBytes offer.events ++ wordBytes offer.cookie ++
    UInt8.ofNat offer.name.length :: offer.name

def new (grant : Option ℕ) : Result Queue :=
  match (Vec.empty : Vec UInt8).tryReserve header grant with
  | some bytes => .ok ⟨bytes, 0, false, []⟩
  | none => .error Error.outOfMemory

def record (queue : Queue) (offer : Offer) : Queue :=
  { queue with bytes := queue.bytes.extend (encode offer), count := queue.count + 1 }

/-- Drops an event; the first one dropped since the last overflow was read leaves a record of it. -/
def lose (queue : Queue) : Queue :=
  if queue.lost then queue
  else { queue with lost := true }.record ⟨0, Watches.overflow, 0, []⟩

/-- Notes an event in the history. -/
def noted (queue : Queue) (offer : Offer) (queued : Bool) : Queue :=
  { queue with history := queue.history ++ [(offer, queued)] }

/-- `grant` is the allocator's answer if the queue has to grow for the event. -/
def push (queue : Queue) (grant : Option ℕ) (offer : Offer) : Queue :=
  if queue.count ≥ queueLimit then queue.lose.noted offer false
  else match queue.bytes.tryReserve (2 * header + offer.name.length) grant with
    | none => queue.lose.noted offer false
    | some bytes => ({ queue with bytes := bytes }.record offer).noted offer true

/-- An event as a reader gets it: a name it cannot carry makes it an overflow. -/
def delivered (watch events cookie : UInt32) (name : Bytes) : Offer :=
  if name.length > Files.maxEntryName ∨ name.any (fun byte ↦ byte == 0 || byte == 47) then
    ⟨0, Watches.overflow, 0, []⟩
  else ⟨watch, events, cookie, name⟩

/-- The record at the front with the bytes behind it, if the bytes hold one. -/
def front (bytes : Bytes) : Option ((UInt32 × UInt32 × UInt32 × Bytes) × Bytes) :=
  match bytes.drop 12 with
  | length :: rest =>
    if length.toNat ≤ rest.length then
      some ((wordOf (bytes.take 4), wordOf ((bytes.drop 4).take 4), wordOf ((bytes.drop 8).take 4),
        rest.take length.toNat), rest.drop length.toNat)
    else none
  | [] => none

/-- Takes the oldest event. `fresh` is the allocator's answer when a queue that ran full gives its
memory back once it is read empty. -/
def pop (queue : Queue) (fresh : Option ℕ) : Result (Option Offer × Queue) :=
  if queue.count = 0 then .ok (none, queue)
  else match front queue.bytes.data with
    | none => .error .panic
    | some ((watch, events, cookie, name), rest) =>
      let count := queue.count - 1
      let lost := if events &&& Watches.overflow ≠ 0 then false else queue.lost
      let left := queue.bytes.withData rest
      let bytes := if count = 0 ∧ left.capacity > page then
          ((Vec.empty : Vec UInt8).tryReserve header fresh).getD left
        else left
      .ok (some (delivered watch events cookie name), ⟨bytes, count, lost, queue.history⟩)

@[simp]
theorem history_push (queue : Queue) (grant : Option ℕ) (offer : Offer) :
    ∃ queued, (queue.push grant offer).history = queue.history ++ [(offer, queued)] := by
  have hlose : queue.lose.history = queue.history := by
    unfold lose
    split <;> rfl
  unfold push
  split
  · exact ⟨false, by simp [noted, hlose]⟩
  · split
    · exact ⟨false, by simp [noted, hlose]⟩
    · exact ⟨true, rfl⟩

theorem history_pop {queue final : Queue} {fresh : Option ℕ} {event : Option Offer}
    (h : queue.pop fresh = .ok (event, final)) : final.history = queue.history := by
  unfold pop at h
  split at h
  · cases h
    rfl
  · split at h
    · cases h
    · cases h
      rfl

end Queue

/-! ## Watchers -/

/-- One watched node of a watcher, with the kinds of event its consumer asked for. -/
structure Watch where
  id : UInt32
  node : ℕ
  events : UInt32
  deriving DecidableEq, Repr

/-- `last` is the id given out last: ids count up and are not used twice. -/
structure Watcher where
  queue : Queue
  watches : Vec Watch
  last : UInt32

namespace Watcher

/-- Queues events in order, each with the allocator's answer for the queue as it is then. -/
def tell (watcher : Watcher) (room : Queue → Option ℕ) (offers : List Offer) : Watcher :=
  { watcher with
    queue := offers.foldl (fun queue offer ↦ queue.push (room queue) offer) watcher.queue }

/-- The watch of a node that asked for one of the kinds. -/
def asked (watcher : Watcher) (node : ℕ) (kinds : UInt32) : Option Watch :=
  watcher.watches.data.find? fun watch ↦ watch.node = node ∧ watch.events &&& kinds ≠ 0

/-- What the watch of a directory hears of its entry `name`. -/
def entryOffers (watcher : Watcher) (dir : ℕ) (name : Bytes) (kinds cookie : UInt32) :
    List Offer :=
  match watcher.asked dir kinds with
  | some watch => [⟨watch.id, kinds, cookie, name⟩]
  | none => []

/-- The watch of a node that has no name left ends, and hears so whatever it asked for. -/
def ended (watcher : Watcher) (room : Queue → Option ℕ) (id : ℕ) : Watcher :=
  match watcher.watches.data.findIdx? fun watch ↦ watch.node = id with
  | none => watcher
  | some i =>
    match watcher.watches.data[i]? with
    | none => watcher
    | some watch =>
      { watcher with watches := watcher.watches.withData (watcher.watches.data.eraseIdx i) }.tell room
        [⟨watch.id, Watches.removed, 0, []⟩]

end Watcher

end DotnetPal.Memfs
