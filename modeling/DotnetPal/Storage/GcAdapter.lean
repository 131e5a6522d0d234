import DotnetPal.Foundations.Machines
import DotnetPal.Storage.Arena
import DotnetPal.Storage.Ledger

/-!
# The collector's memory over the arena

The collector reserves, commits and releases address ranges. The adapter keeps a table of the
regions it reserved and passes reservations, zeroing and releases on to the boundary, which rounds
and checks them and passes them on to the arena; there they are checked against the slots once more.
All memory is there from the start, so that committing changes nothing. The calls run under the
adapter's gate, one at a time; between them the collector writes its memory.
-/

namespace DotnetPal.Storage

open Programs

/-! ## The boundary -/

namespace LinearApi

def roundSize (place : Place) (size page : ℕ) : Option ℕ :=
  if size = 0 ∨ ¬ page.isPowerOfTwo then none
  else if place.usizeMax < size + (page - 1) then none
  else if (size + (page - 1)) / page * page ≤ place.isizeMax then some ((size + (page - 1)) / page * page)
  else none

/-- The size and the alignment of a block. -/
def geometry (place : Place) (size align page : ℕ) : Option (ℕ × ℕ) :=
  match roundSize place size page with
  | none => none
  | some size =>
    if align ≠ 0 ∧ ¬ align.isPowerOfTwo then none
    else if place.usizeMax < size + (max align page - page) then none
    else if place.isizeMax < size + (max align page - page) then none
    else some (size, max align page)

def allocate (place : Place) (size align : ℕ) (flags : UInt32) (arena : Arena) : Except Error ℕ × Arena :=
  if flags ≠ 0 then (.error .unsupported, arena)
  else match geometry place size align granularity with
    | none => (.error .invalidArgument, arena)
    | some (size, align) =>
      match arena.allocate place size align with
      | (.ok addr, final) =>
        -- A provider that breaks its contract is not believed.
        if addr = 0 ∨ addr % align ≠ 0 ∨ place.usizeMax < addr + size then (.error .os, final)
        else (.ok addr, final)
      | (.error error, final) => (.error error, final)

def zero (place : Place) (addr size : ℕ) (arena : Arena) : Except Error Unit × Arena :=
  if addr = 0 ∨ size = 0 ∨ place.usizeMax < addr + size then (.error .invalidArgument, arena)
  else arena.zero place addr size

def release (place : Place) (addr size : ℕ) (arena : Arena) : Except Error Unit × Arena :=
  match roundSize place size granularity with
  | none => (.error .invalidArgument, arena)
  | some size => if addr = 0 then (.error .invalidArgument, arena) else arena.release place addr size

end LinearApi

/-! ## The adapter -/

/-- The adapter's counters, `uint64_t` each. -/
structure GcStats where
  reserveOk : ℕ
  commitOk : ℕ
  decommitOk : ℕ
  releaseOk : ℕ
  resetOk : ℕ
  failures : ℕ
  ownedBytes : ℕ
  peakBytes : ℕ

structure GcAdapter where
  regions : List Region
  counters : GcStats
  arena : Arena

namespace GcAdapter

def maxRegions : ℕ := 256

def initial : GcAdapter := ⟨List.replicate maxRegions Region.empty, ⟨0, 0, 0, 0, 0, 0, 0, 0⟩, Arena.initial⟩

def increment (value : ℕ) : ℕ := if value ≠ 2 ^ 64 - 1 then value + 1 else value

def failed (gc : GcAdapter) : GcAdapter :=
  { gc with counters := { gc.counters with failures := increment gc.counters.failures } }

/-- Zero where the size is zero or cannot be rounded. -/
def rounded (place : Place) (size : ℕ) : ℕ :=
  if size = 0 ∨ place.usizeMax - (granularity - 1) < size then 0
  else (size + granularity - 1) / granularity * granularity

def pageRange (place : Place) (addr size : ℕ) : ℕ :=
  if addr = 0 ∨ addr % granularity ≠ 0 then 0 else rounded place size

/-- The region that holds a range. -/
def find (place : Place) (addr size : ℕ) (gc : GcAdapter) : Option ℕ :=
  if addr = 0 ∨ size = 0 ∨ place.usizeMax - size < addr then none
  else gc.regions.findIdx? fun region ↦
    region.base ≠ 0 ∧ region.base ≤ addr ∧ addr - region.base < region.size ∧
      size ≤ region.size - (addr - region.base)

def reserve (place : Place) (size align : ℕ) (flags : UInt32) (gc : GcAdapter) : Option ℕ × GcAdapter :=
  let n := rounded place size
  if n = 0 ∨ flags ≠ 0 then (none, gc.failed)
  else match gc.regions.findIdx? (·.base = 0) with
    | none => (none, gc.failed)
    | some slot =>
      match LinearApi.allocate place n align 0 gc.arena with
      | (.error _, arena) => (none, { gc with arena }.failed)
      | (.ok addr, arena) =>
        if addr = 0 then (none, { gc with arena }.failed)
        else
          let owned := (gc.counters.ownedBytes + n) % 2 ^ 64
          (some addr, ⟨gc.regions.set slot ⟨addr, n⟩, { gc.counters with
            reserveOk := increment gc.counters.reserveOk
            ownedBytes := owned
            peakBytes := if gc.counters.peakBytes < owned then owned else gc.counters.peakBytes }, arena⟩)

def commit (place : Place) (addr size : ℕ) (gc : GcAdapter) : Bool × GcAdapter :=
  match gc.find place addr (pageRange place addr size) with
  | none => (false, gc.failed)
  | some _ => (true, { gc with counters := { gc.counters with commitOk := increment gc.counters.commitOk } })

/-- `decommit` and `reset`. -/
def zero (place : Place) (addr size : ℕ) (reset : Bool) (gc : GcAdapter) : Bool × GcAdapter :=
  let n := pageRange place addr size
  match gc.find place addr n with
  | none => (false, gc.failed)
  | some _ =>
    match LinearApi.zero place addr n gc.arena with
    | (.error _, arena) => (false, { gc with arena }.failed)
    | (.ok _, arena) =>
      (true, { gc with
        arena
        counters := if reset then { gc.counters with resetOk := increment gc.counters.resetOk }
          else { gc.counters with decommitOk := increment gc.counters.decommitOk } })

def decommit (place : Place) (addr size : ℕ) : GcAdapter → Bool × GcAdapter := zero place addr size false

def reset (place : Place) (addr size : ℕ) : GcAdapter → Bool × GcAdapter := zero place addr size true

def release (place : Place) (addr size : ℕ) (gc : GcAdapter) : Bool × GcAdapter :=
  let n := pageRange place addr size
  match gc.find place addr n with
  | none => (false, gc.failed)
  | some slot =>
    if gc.regions[slot]? ≠ some ⟨addr, n⟩ then (false, gc.failed)
    else match LinearApi.release place addr n gc.arena with
      | (.error _, arena) => (false, { gc with arena }.failed)
      | (.ok _, arena) =>
        (true, ⟨gc.regions.set slot Region.empty, { gc.counters with
          releaseOk := increment gc.counters.releaseOk
          ownedBytes := (gc.counters.ownedBytes + (2 ^ 64 - n % 2 ^ 64)) % 2 ^ 64 }, arena⟩)

/-- A call, or a write of the collector to its memory. -/
inductive Action
  | reserve (size align : ℕ) (flags : UInt32)
  | commit (addr size : ℕ)
  | decommit (addr size : ℕ)
  | reset (addr size : ℕ)
  | release (addr size : ℕ)
  | store (offset : ℕ) (value : UInt8)

def next (place : Place) : Action → GcAdapter → Option GcAdapter
  | .reserve size align flags, gc => some (gc.reserve place size align flags).2
  | .commit addr size, gc => some (gc.commit place addr size).2
  | .decommit addr size, gc => some (gc.decommit place addr size).2
  | .reset addr size, gc => some (gc.reset place addr size).2
  | .release addr size, gc => some (gc.release place addr size).2
  | .store offset value, gc =>
    some { gc with arena := { gc.arena with bytes := Function.update gc.arena.bytes offset value } }

def machine (place : Place) : Machine GcAdapter Action where
  start := initial
  next := next place

end GcAdapter

end DotnetPal.Storage
