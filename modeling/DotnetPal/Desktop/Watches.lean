import DotnetPal.Foundations.KeyedList
import DotnetPal.Foundations.Machines
import DotnetPal.Foundations.OrderedMap
import DotnetPal.Port

/-!
# The polling watch provider

One thread per watcher looks at the watched nodes and queues what differs from the look before. A
look reads the file system without the lock, so the consumer adds and removes watches meanwhile;
what it brings is held against the watches under the lock. Entries that went under one name and
came under another are paired into renames, and while a half is without its other half the thread
looks again, three times at most, before it reports. What a look at a node finds is the file
system's affair and arbitrary here. `offers` keeps every event offered to the queue: no computation
reads it, statements do.
-/

open Std

namespace DotnetPal.Desktop

open Programs KeyedList

/-- Device, inode and birth time. -/
abbrev Identity := ℕ × ℕ × Option ℕ

/-- What one look at a node keeps of it. -/
structure Meta where
  directory : Bool
  size : ℕ
  modified : Option ℕ
  attributes : ℕ × ℕ × ℕ
  identity : Option Identity
  deriving DecidableEq

namespace Meta

/-- Whether a later look found the node this one found. -/
def sameNode (found later : Meta) : Bool :=
  found.directory = later.directory && found.identity = later.identity

def mark (found : Meta) : UInt32 := if found.directory then Watches.directory else 0

/-- The kinds of change between two looks at one node, with the mark of a directory. -/
def changes (found later : Meta) : UInt32 :=
  let modified := !later.directory && (found.size ≠ later.size || found.modified ≠ later.modified)
  let kinds := (if modified then Watches.modify else 0) |||
    (if found.attributes ≠ later.attributes then Watches.attributes else 0)
  if kinds ≠ 0 then kinds ||| later.mark else 0

end Meta

abbrev Name := List UInt8

/-- In the order of their names. -/
abbrev Entries := ExtTreeMap Name Meta

structure Watch where
  id : ℕ
  events : UInt32
  own : Meta
  entries : Option Entries

/-- What a watch knows after a look at its node. -/
def Watch.after (watch : Watch) (own : Meta) (entries : Option Entries) : Watch :=
  { watch with
    own := own
    entries := match watch.entries, entries with
      | some _, some after => some after
      | known, _ => known }

/-- One look at a watched node. -/
inductive Look
  | gone
  | node (own : Meta) (entries : Option Entries)

namespace Look

def isGone : Look → Bool
  | .gone => true
  | .node .. => false

/-- Whatever became of the entries of a node that is gone, they are no longer to be found
below its path. -/
def entries : Look → Option Entries
  | .gone => some ∅
  | .node _ entries => entries

/-- What changed about the watched node itself. -/
def changes (known : Meta) : Look → UInt32
  | .gone => 0
  | .node own _ => known.changes own

end Look

/-- An entry that went; `half` is where its other half came (difference and entry), once
that is known. -/
structure Went where
  name : Name
  info : Meta
  half : Option (ℕ × ℕ)

structure Came where
  name : Name
  info : Meta
  renamed : Bool

/-- What one look found different in one watch. -/
structure Difference where
  watch : ℕ
  wanted : UInt32
  went : List Went
  came : List Came
  changed : List (Name × UInt32)
  own : UInt32
  ended : Bool

/-- An event, with the node it is about where it is about an entry; no reader sees that. -/
structure WatchOffer where
  watch : ℕ
  events : UInt32
  cookie : ℕ
  name : Name
  subject : Option Meta

structure WatchState where
  queue : List WatchOffer
  lost : Bool
  watches : List Watch
  lastId : ℕ
  lastCookie : ℕ
  closing : Bool
  /-- Every event offered to the queue, oldest first. -/
  offers : List WatchOffer

/-- `u32::MAX`. -/
def maxWord : ℕ := 2 ^ 32 - 1

/-- The events kept for a reader that does not keep up. -/
def queueLimit : ℕ := 4096

/-- Whether an event is one a watch asked for, or says that it ended. -/
def wants (wanted events : UInt32) : Bool := events &&& (wanted ||| Watches.removed) ≠ 0

namespace WatchState

/-- An event nobody can be told about. -/
def lostOffer : WatchOffer := ⟨0, Watches.overflow, 0, [], none⟩

/-- Whether an event can carry a name. -/
def carries (name : Name) : Bool :=
  name.length ≤ Files.maxEntryName && !name.any fun byte ↦ byte = 0 || byte = 47

/-- A full queue and a name the event cannot carry both end in the one report that says
events were lost. -/
def enqueue (offer : WatchOffer) (s : WatchState) : WatchState :=
  if carries offer.name = false ∨ offer.events &&& Watches.overflow ≠ 0 ∨ queueLimit ≤ s.queue.length then
    if s.lost then s else { s with lost := true, queue := s.queue ++ [lostOffer] }
  else { s with queue := s.queue ++ [offer] }

def push (wanted : UInt32) (offer : WatchOffer) (s : WatchState) : WatchState :=
  if wants wanted offer.events then { s.enqueue offer with offers := s.offers ++ [offer] } else s

/-! ## Comparing -/

/-- What went and changed between two listings of a directory, and what came. -/
def wentBetween (before after : Entries) : List Went :=
  before.toList.filterMap fun (name, old) ↦
    if (after[name]?).any old.sameNode then none else some ⟨name, old, none⟩

def cameBetween (before after : Entries) : List Came :=
  after.toList.filterMap fun (name, new) ↦
    if (before[name]?).any fun old ↦ old.sameNode new then none else some ⟨name, new, false⟩

def changedBetween (before after : Entries) : List (Name × UInt32) :=
  before.toList.filterMap fun (name, old) ↦
    match after[name]? with
    | some new => if old.sameNode new && old.changes new ≠ 0 then some (name, old.changes new) else none
    | none => none


/-- Two listings are compared where there are two. -/
def between {α : Type} (compared : Entries → Entries → List α) : Option Entries → Option Entries → List α
  | some before, some after => compared before after
  | _, _ => []

/-- What one look found different in a watch. -/
def difference (watch : Watch) (found : Look) : Difference where
  watch := watch.id
  wanted := watch.events
  went := between wentBetween watch.entries found.entries
  came := between cameBetween watch.entries found.entries
  changed := between changedBetween watch.entries found.entries
  own := found.changes watch.own
  ended := found.isGone

/-- Holds one look at one watch against what it knew. A watch that was removed during the look has
nothing more to say; one that is gone ends here, so that no later look asks about it. -/
def compareOne (id : ℕ) (found : Look) (s : WatchState) : WatchState × List Difference :=
  match find Watch.id id s.watches with
  | none => (s, [])
  | some watch =>
    let watches := match found with
      | .gone => remove Watch.id id s.watches
      | .node own entries => replace Watch.id id (·.after own entries) s.watches
    ({ s with watches }, [difference watch found])

/-- Holds one look against what the watches knew and makes it what they know. -/
def compare : List (ℕ × Look) → WatchState → WatchState × List Difference
  | [], s => (s, [])
  | (id, found) :: rest, s =>
    let (seen, first) := s.compareOne id found
    let (s', others) := compare rest seen
    (s', first ++ others)

/-! ## Pairing -/

end WatchState

/-- A half of a rename that came and waits for its other half: what it is, and its difference
and place there. -/
abbrev Arrival := (Identity × Bool) × (ℕ × ℕ)

/-- What came and is not paired, the last first. -/
def arrivals (diffs : List Difference) : List Arrival :=
  (diffs.zipIdx.flatMap fun (diff, d) ↦ diff.came.zipIdx.filterMap fun (came, c) ↦
    match came.info.identity, came.renamed with
    | some identity, false => some ((identity, came.info.directory), (d, c))
    | _, _ => none).reverse

/-- Gives what went the last arrival of the same node. -/
def pairWent : List Went → List Arrival → List Went × List Arrival
  | [], waiting => ([], waiting)
  | went :: rest, waiting =>
    match went.half, went.info.identity.bind fun identity ↦
      find Prod.fst (identity, went.info.directory) waiting with
    | none, some arrival =>
      let (others, left) := pairWent rest (remove Prod.fst arrival.1 waiting)
      ({ went with half := some arrival.2 } :: others, left)
    | _, _ =>
      let (others, left) := pairWent rest waiting
      (went :: others, left)

def pairDifferences : List Difference → List Arrival → List Difference × List Arrival
  | [], waiting => ([], waiting)
  | diff :: rest, waiting =>
    let (went, remaining) := pairWent diff.went waiting
    let (others, left) := pairDifferences rest remaining
    ({ diff with went } :: others, left)

/-- Marks the arrivals that are no longer waiting. -/
def markRenamed (before left : List Arrival) (diffs : List Difference) : List Difference :=
  diffs.mapIdx fun d diff ↦ { diff with
    came := diff.came.mapIdx fun c came ↦ { came with
      renamed := came.renamed || (before.any (·.2 = (d, c)) && !left.any (·.2 = (d, c))) } }

/-- A node that went under one name and came under another was renamed, wherever in the watcher's
directories that was. -/
def pair (diffs : List Difference) : List Difference :=
  let (paired, left) := pairDifferences diffs (arrivals diffs)
  markRenamed (arrivals diffs) left paired

/-- Whether a half is still without its other half. -/
def unpaired (diffs : List Difference) : Bool :=
  diffs.any fun diff ↦ diff.went.any (fun went ↦ went.info.identity.isSome && went.half.isNone) ||
    diff.came.any fun came ↦ came.info.identity.isSome && !came.renamed

namespace WatchState

/-! ## Reporting -/

/-- What the watch of a difference wants now. A watch the consumer removed between the looks has had
its REMOVED: nothing may follow that. -/
def wanted (s : WatchState) (diff : Difference) : UInt32 :=
  if diff.ended then diff.wanted
  else ((find Watch.id diff.watch s.watches).map (·.events)).getD 0

/-- The cookie of the next rename; zero is no cookie. -/
def nextCookie (s : WatchState) : ℕ := if s.lastCookie = maxWord then 1 else s.lastCookie + 1

/-- Reports an entry that went: as the two halves of a rename, or as deleted. -/
def reportWent (diffs : List Difference) (diff : Difference) (s : WatchState) (went : Went) : WatchState :=
  match went.half with
  | some (d, c) =>
    match diffs[d]?.bind fun target ↦ target.came[c]?.map (target, ·) with
    | some (target, came) =>
      ({ s with lastCookie := s.nextCookie }.push (s.wanted diff)
          ⟨diff.watch, Watches.movedFrom ||| went.info.mark, s.nextCookie, went.name, some went.info⟩).push
        (s.wanted target)
        ⟨target.watch, Watches.movedTo ||| came.info.mark, s.nextCookie, came.name, some came.info⟩
    | none => s
  | none =>
    s.push (s.wanted diff) ⟨diff.watch, Watches.delete ||| went.info.mark, 0, went.name, some went.info⟩

def reportCame (diff : Difference) (s : WatchState) (came : Came) : WatchState :=
  if came.renamed then s
  else s.push (s.wanted diff)
    ⟨diff.watch, Watches.create ||| came.info.mark, 0, came.name, some came.info⟩

/-- Reports one kind of change of an entry, or of the watched node itself, which has no name. -/
def reportChange (diff : Difference) (name : Name) (kinds : UInt32) (s : WatchState)
    (kind : UInt32) : WatchState :=
  if kinds &&& kind ≠ 0 then
    s.push (s.wanted diff) ⟨diff.watch, kind ||| (kinds &&& Watches.directory), 0, name, none⟩
  else s

def reportChanges (diff : Difference) (s : WatchState) (change : Name × UInt32) : WatchState :=
  [Watches.modify, Watches.attributes].foldl (reportChange diff change.1 change.2) s

def reportOne (diffs : List Difference) (s : WatchState) (diff : Difference) : WatchState :=
  let gone := diff.went.foldl (reportWent diffs diff) s
  let arrived := diff.came.foldl (reportCame diff) gone
  let changed := (diff.changed ++ [([], diff.own)]).foldl (reportChanges diff) arrived
  if diff.ended then changed.push 0 ⟨diff.watch, Watches.removed, 0, [], none⟩ else changed

def report (diffs : List Difference) (s : WatchState) : WatchState :=
  diffs.foldl (reportOne diffs) s

/-! ## The consumer -/

/-- A call of the consumer. An add brings what its own look found; `samePath` says which watches
have its path, where nodes have no identity. -/
inductive Call
  | add (events : UInt32) (own : Meta) (entries : Option Entries) (samePath : ℕ → Bool)
  | remove (watch : ℕ)
  | read
  | close

/-- The kinds of events an add asks for. -/
def requested (events : UInt32) : UInt32 := events &&& ~~~(Watches.onlyDirectory ||| Watches.noFollow)

/-- The watch of a node that is watched already. -/
def known (own : Meta) (samePath : ℕ → Bool) (s : WatchState) : Option Watch :=
  s.watches.find? fun watch ↦ if own.identity.isSome then watch.own.sameNode own else samePath watch.id

/-- `add` once its own look has succeeded. -/
def add (events : UInt32) (own : Meta) (entries : Option Entries) (samePath : ℕ → Bool) (s : WatchState) :
    Except Error ℕ × WatchState :=
  if requested events = Watches.access then (.error .unsupported, s)
  else if events &&& Watches.onlyDirectory ≠ 0 ∧ own.directory = false then (.error .notDirectory, s)
  else
    match s.known own samePath with
    | some watch =>
      (.ok watch.id,
        { s with watches := replace Watch.id watch.id ({ · with events := requested events }) s.watches })
    | none =>
      if s.lastId = maxWord then (.error .noSpace, s)
      else (.ok (s.lastId + 1),
        { s with
          lastId := s.lastId + 1
          watches := s.watches ++ [⟨s.lastId + 1, requested events, own, entries⟩] })

def remove (watch : ℕ) (s : WatchState) : Except Error Unit × WatchState :=
  match find Watch.id watch s.watches with
  | none => (.error .invalidArgument, s)
  | some _ =>
    (.ok (), { s with watches := KeyedList.remove Watch.id watch s.watches }.push 0
      ⟨watch, Watches.removed, 0, [], none⟩)

/-- Takes the oldest event. -/
def read (s : WatchState) : WatchState :=
  match s.queue with
  | [] => s
  | next :: rest =>
    { s with queue := rest, lost := if next.events &&& Watches.overflow ≠ 0 then false else s.lost }

def call : Call → WatchState → WatchState
  | .add events own entries samePath, s => (s.add events own entries samePath).2
  | .remove watch, s => (s.remove watch).2
  | .read, s => s.read
  | .close, s => { s with closing := true }

end WatchState

/-! ## The scanner -/

/-- Where the scanner is: before a scan, in a look with the passes left after it, or ended. -/
inductive Scanner
  | waiting
  | looking (passes : ℕ) (targets : List ℕ) (diffs : List Difference)
  | returned

namespace WatchState

/-- A look starts, unless the watcher closes. -/
def beginPass (passes : ℕ) (diffs : List Difference) (s : WatchState) : Scanner :=
  if s.closing then .returned else .looking passes (s.watches.map Watch.id) diffs

/-- A look ends: it is compared and paired, and either another one follows or the scan reports. -/
def endPass (passes : ℕ) (targets : List ℕ) (diffs : List Difference) (found : ℕ → Option Look)
    (s : WatchState) :
    WatchState × Scanner :=
  let looks := targets.filterMap fun id ↦ (found id).map (id, ·)
  let (seen, new) := s.compare looks
  let paired := pair (diffs ++ new)
  if unpaired (paired.drop diffs.length) = true ∧ passes ≠ 0 then (seen, seen.beginPass (passes - 1) paired)
  else (seen.report paired, if seen.closing then .returned else .waiting)

end WatchState

end DotnetPal.Desktop
