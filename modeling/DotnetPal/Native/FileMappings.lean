import DotnetPal.Foundations.Machines
import DotnetPal.Memfs.MappingCounts

/-!
# File mappings of System.Native

`MUnmap` and `MSync` get an address only, so the unit keeps a table of the ranges that came from a
file: 256 slots under the table lock. A slot is taken before the boundary maps and written when it
has; `MUnmap` looks the address up under the lock, unmaps without it and clears the slot under it
again. The boundary here is the in-memory file system with all its calls. A step is one locked
section or one call of the boundary.
-/

open Std

namespace DotnetPal.Native

open Programs

/-- What a slot holds and a caller may pass: NULL, the table's own address, or another one. No
mapping has the table's own address. -/
inductive Pointer
  | null
  | table
  | page (addr : ℕ)
  deriving DecidableEq

structure Slot where
  address : Pointer
  length : ℕ
  deriving DecidableEq

namespace FileMappings

def maxMappings : ℕ := 256

def protRead : UInt32 := 1
def protWrite : UInt32 := 2
def protExec : UInt32 := 4

def mapShared : UInt32 := 1
def mapPrivate : UInt32 := 2
def mapAnonymous : UInt32 := 16

def protectionBits (protection : UInt32) : UInt32 :=
  (if protection &&& protRead ≠ 0 then Runtime.read else 0) |||
    ((if protection &&& protWrite ≠ 0 then Runtime.write else 0) |||
      (if protection &&& protExec ≠ 0 then Runtime.execute else 0))

/-- Whether a file is mapped shared or private; neither is refused. -/
def mode (flags : UInt32) : Option Bool :=
  if flags &&& mapShared ≠ 0 then some true else if flags &&& mapPrivate ≠ 0 then some false else none

/-- The first slot with an address. -/
def mappingSlot (slots : List Slot) (addr : Pointer) : Option ℕ :=
  slots.findIdx? fun slot ↦ slot.address = addr

/-- The arguments of `MMap`; a length is a `size_t`. -/
structure Request where
  length : ℕ
  protection : UInt32
  flags : UInt32
  offset : ℤ

/-- A call between two of its steps. -/
inductive MappingTask
  /-- `MMap` with its slot reserved, and with what the boundary answered. -/
  | mapping (slot file offset length : ℕ) (access : UInt32) (shared : Bool)
  | recording (slot length : ℕ) (addr : Option ℕ)
  /-- `MUnmap` that found its slot, and that unmapped. -/
  | unmapping (slot addr length : ℕ)
  | clearing (slot addr length : ℕ)
  /-- `MSync` with the length of the slot it found, the one it was given, and whether that
  was live then. -/
  | syncing (addr mapped length : ℕ) (live : Bool)

end FileMappings

open FileMappings

structure FileMappings where
  fs : Memfs.State
  slots : List Slot
  tasks : ExtTreeMap ℕ MappingTask
  /-- What `MMap` returned, and what `MUnmap` unmapped. -/
  returned : List (ℕ × ℕ)
  unmapped : List (ℕ × ℕ)
  /-- What `MUnmap` did not unmap though `MMap` returned it more often than it was unmapped, and the
  live mappings that `MSync` failed for. -/
  failed : List (ℕ × ℕ)
  unsynced : List (ℕ × ℕ)

namespace FileMappings

/-- A call of the boundary. -/
def provide (env : Memfs.Env) (call : Memfs.Call) (fs : Memfs.State) :
    Option (Except Error Memfs.Reply × Memfs.State) :=
  match Memfs.exec env call fs.acquire with
  | .ok reply w' => some (.ok reply, w')
  | .error (.error error) w' => some (.error error, w')
  | .error _ _ => none

/-- The address of a mapping that was made. -/
def mappedAddress : Except Error Memfs.Reply → Option ℕ
  | .ok (.mapped addr) => some addr
  | _ => none

def Request.Refused (request : Request) : Prop :=
  request.length = 0 ∨ request.offset < 0 ∨ protectionBits request.protection = 0

instance (request : Request) : Decidable request.Refused := inferInstanceAs (Decidable (_ ∨ _))

/-- The first part of `MMap`, with the file its descriptor is pinned to. Anonymous memory is
the runtime's. -/
def mmap (id : ℕ) (request : Request) (pin : Option ℕ) (w : FileMappings) : FileMappings :=
  match mode request.flags, pin, mappingSlot w.slots .null with
  | some shared, some file, some slot =>
    if request.flags &&& mapAnonymous ≠ 0 ∨ request.Refused then w
    else { w with
      slots := w.slots.modify slot fun entry ↦ { entry with address := .table }
      tasks := w.tasks.insert id
        (.mapping slot file request.offset.toNat request.length (protectionBits request.protection) shared) }
  | _, _, _ => w

/-- `MUnmap` unmaps nothing. -/
def refuse (addr : Pointer) (length : ℕ) (w : FileMappings) : FileMappings :=
  match addr with
  | .page addr =>
    if w.unmapped.count (addr, length) < w.returned.count (addr, length) then
      { w with failed := (addr, length) :: w.failed }
    else w
  | _ => w

/-- The first part of `MUnmap`. What has no slot is anonymous memory, or none. The boundary has no
mapping at the table's own address. -/
def munmap (id : ℕ) (addr : Pointer) (length : ℕ) (w : FileMappings) : FileMappings :=
  match addr, mappingSlot w.slots addr with
  | .page place, some slot =>
    if length ≠ 0 ∧ (w.slots[slot]?).map Slot.length = some length then
      { w with tasks := w.tasks.insert id (.unmapping slot place length) }
    else w.refuse addr length
  | _, _ => w.refuse addr length

/-- The first part of `MSync`. Anonymous memory has nothing to write back. -/
def msync (id : ℕ) (addr : Pointer) (length : ℕ) (w : FileMappings) : FileMappings :=
  match addr, (mappingSlot w.slots addr).bind fun slot ↦ w.slots[slot]? with
  | .page place, some entry =>
    { w with
      tasks := w.tasks.insert id
        (.syncing place entry.length length (decide (0 < w.fs.live (place, length)))) }
  | _, _ => w

/-- The calls of the boundary that the file descriptors of other functions, and stores through
mappings, make. -/
def otherCall : Memfs.Call → Bool
  | .map .. | .unmap .. => false
  | _ => true

inductive Action
  | mmap (id : ℕ) (request : Request) (pin : Option ℕ)
  | map (id : ℕ) (env : Memfs.Env)
  | record (id : ℕ)
  | munmap (id : ℕ) (addr : Pointer) (length : ℕ)
  | unmap (id : ℕ) (env : Memfs.Env)
  | clear (id : ℕ)
  | msync (id : ℕ) (addr : Pointer) (length : ℕ)
  | sync (id : ℕ) (env : Memfs.Env)
  | other (env : Memfs.Env) (call : Memfs.Call)

def next : Action → FileMappings → Option FileMappings
  | .mmap id request pin, w => if w.tasks[id]?.isNone then some (w.mmap id request pin) else none
  | .map id env, w =>
    match w.tasks[id]? with
    | some (.mapping slot file offset length access shared) =>
      (provide env (.map file offset length access shared) w.fs).map fun answer ↦
        { w with
          fs := answer.2
          tasks := w.tasks.insert id (.recording slot length (mappedAddress answer.1)) }
    | _ => none
  | .record id, w =>
    match w.tasks[id]? with
    | some (.recording slot length (some addr)) =>
      some { w with
        slots := w.slots.set slot ⟨.page addr, length⟩
        tasks := w.tasks.erase id
        returned := (addr, length) :: w.returned }
    | some (.recording slot length none) =>
      some { w with slots := w.slots.set slot ⟨.null, length⟩, tasks := w.tasks.erase id }
    | _ => none
  | .munmap id addr length, w => if w.tasks[id]?.isNone then some (w.munmap id addr length) else none
  | .unmap id env, w =>
    match w.tasks[id]? with
    | some (.unmapping slot addr length) =>
      (provide env (.unmap addr length) w.fs).map fun answer ↦
        match answer.1 with
        | .ok _ => { w with fs := answer.2, tasks := w.tasks.insert id (.clearing slot addr length) }
        | .error _ =>
          { w with fs := answer.2, tasks := w.tasks.erase id, failed := (addr, length) :: w.failed }
    | _ => none
  | .clear id, w =>
    match w.tasks[id]? with
    | some (.clearing slot addr length) =>
      some { w with
        slots := w.slots.modify slot fun entry ↦ { entry with address := .null }
        tasks := w.tasks.erase id
        unmapped := (addr, length) :: w.unmapped }
    | _ => none
  | .msync id addr length, w => if w.tasks[id]?.isNone then some (w.msync id addr length) else none
  | .sync id env, w =>
    match w.tasks[id]? with
    | some (.syncing addr mapped length live) =>
      (provide env (.sync addr mapped) w.fs).map fun answer ↦
        match answer.1 with
        | .ok _ => { w with fs := answer.2, tasks := w.tasks.erase id }
        | .error _ =>
          { w with
            fs := answer.2
            tasks := w.tasks.erase id
            unsynced := if live = true ∧ 0 < w.fs.live (addr, length) then (addr, length) :: w.unsynced
              else w.unsynced }
    | _ => none
  | .other env call, w =>
    if otherCall call then (provide env call w.fs).map fun answer ↦ { w with fs := answer.2 } else none

def initial : FileMappings :=
  ⟨Memfs.State.static.acquire, List.replicate maxMappings ⟨.null, 0⟩, ∅, [], [], [], []⟩

def machine : Machine FileMappings Action := ⟨initial, next⟩

/-! ## Conditions on runs -/

/-- The outside of the boundary is honest, and handles are those of files that are open. -/
def Action.Honest : Action → FileMappings → Prop
  | .map id env, w => env.Honest w.fs ∧ ∀ slot file offset length access shared,
      w.tasks[id]? = some (.mapping slot file offset length access shared) → w.fs.Trusts file
  | .unmap _ env, w | .sync _ env, w => env.Honest w.fs
  | .other env call, w => env.Honest w.fs ∧ call.Trusted w.fs
  | _, _ => True

/-- No `MUnmap` of an address is between its look at the table and the end of its call. -/
def Settled (w : FileMappings) : Pointer → Prop
  | .page addr => ∀ (id slot length : ℕ), w.tasks[id]? ≠ some (.unmapping slot addr length) ∧
      w.tasks[id]? ≠ some (.clearing slot addr length)
  | _ => True

/-- A file is mapped shared only where no live mapping of its pages begins at the same place and
has another length, and `MUnmap` and `MSync` of an address start only while no `MUnmap` of that
address is running. -/
def Action.Orderly : Action → FileMappings → Prop
  | .map id _, w => ∀ slot file offset length access,
      w.tasks[id]? = some (.mapping slot file offset length access true) → w.fs.Fitting file offset length
  | .munmap _ addr _, w | .msync _ addr _, w => w.Settled addr
  | _, _ => True

end FileMappings

end DotnetPal.Native
