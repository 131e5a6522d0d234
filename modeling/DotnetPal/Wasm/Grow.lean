import DotnetPal.Foundations.Spans
import DotnetPal.Port

/-!
# Memory that a module grows for itself

`Grow` hands out blocks of the pages it obtained with `memory.grow` from a list of free blocks,
sorted by address and with neighbours joined. The list has a bounded number of records. Addresses
are those of wasm32, and the calls come one at a time under the lock of the ledger.
-/

namespace DotnetPal.Wasm

open Spans

/-- The addresses of wasm32 are below. -/
def addresses : ℕ := 2 ^ 32

def page : ℕ := 65536

/-- The records of the free list. -/
def maxFree : ℕ := 512

/-! ## Arithmetic -/

def checkedAdd (first second : ℕ) : Option ℕ :=
  if first + second < addresses then some (first + second) else none

/-- `v & !(alignment - 1)` where `v` is the value moved up by less than the alignment. -/
def alignUp (value align : ℕ) : Option ℕ :=
  (checkedAdd value (align - 1)).map fun moved ↦ moved &&& (addresses - 1 - (align - 1))

/-! ## The free list -/

/-- Inserts a block and joins it with its neighbours. Nothing is inserted if the list is full and
nothing joins. -/
def insert (list : List Span) (base size : ℕ) : Option (List Span) :=
  let i := list.findIdx fun block ↦ block.base > base
  -- The block before it ends where it begins.
  if 0 < i ∧ list[i - 1]?.map Span.stop = some base then
    -- The block behind it begins where it ends.
    if list[i]?.map Span.base = some (base + size) then
      some ((list.modify (i - 1) fun block ↦
        { block with size := block.size + (size + (list[i]?.map Span.size).getD 0) }).eraseIdx i)
    else some (list.modify (i - 1) fun block ↦ { block with size := block.size + size })
  else if list[i]?.map Span.base = some (base + size) then
    some (list.modify i fun block ↦ ⟨base, block.size + size⟩)
  else if list.length = maxFree then none
  else some (list.insertIdx i ⟨base, size⟩)

/-- `assert!(insert(..))`. -/
def asserted : Option (List Span) → Result (List Span)
  | some list => .ok list
  | none => .error .panic

/-- Where the loop of `take` takes a block that a list of `count` records has. -/
def fit (count size align : ℕ) (block : Span) : Option ℕ := do
  let start ← alignUp block.base align
  let stop ← checkedAdd start size
  if stop > block.stop then none
  -- Two remainders may need one extra record.
  else if start - block.base ≠ 0 ∧ block.stop - stop ≠ 0 ∧ count = maxFree then none
  else some start

/-- A part of a block that is not taken returns to the list. -/
def remainder (list : List Span) (base size : ℕ) : Result (List Span) :=
  if size ≠ 0 then asserted (insert list base size) else .ok list

/-- Removes the record at `index` and inserts what is left of its block before and behind the part
that is taken. -/
def carve (list : List Span) (i : ℕ) (block : Span) (start size : ℕ) : Result (List Span) := do
  let led ← remainder (list.eraseIdx i) block.base (start - block.base)
  remainder led (start + size) (block.stop - (start + size))

/-- First fit with alignment. -/
def take (list : List Span) (size align : ℕ) : Result (Option (ℕ × List Span)) :=
  match list.findIdx? fun block ↦ (fit list.length size align block).isSome with
  | none => .ok none
  | some i =>
    match list[i]? with
    | none => .error .panic
    | some block =>
      match fit list.length size align block with
      | none => .error .panic
      | some start => do
        let left ← carve list i block start size
        return some (start, left)

/-! ## Growing -/

/-- The free list, and the pages of the memory. -/
structure Heap where
  list : List Span
  pages : ℕ

/-- The first address behind the memory. -/
def Heap.top (heap : Heap) : ℕ := heap.pages * page

/-- The pages `grow` asks for, if it comes to that. -/
def Heap.wanted (heap : Heap) (size align : ℕ) : Option ℕ := do
  let current := min heap.top (addresses - 1)
  let start ← alignUp current align
  let needed ← checkedAdd (start - current) size
  let pages := (needed + (page - 1)) / page
  if heap.list.length = maxFree ∨ pages = 0 then none else some pages

/-- `granted` is the answer of `memory.grow`; nobody else grows the memory. -/
def grow (granted : Bool) (size align : ℕ) (heap : Heap) : Except Fault Unit × Heap :=
  match heap.wanted size align with
  | none => (.error Error.outOfMemory, heap)
  | some pages =>
    if granted then
      let grown : Heap := { heap with pages := heap.pages + pages }
      if heap.top ≠ min heap.top (addresses - 1) then (.error Error.os, grown)
      else match asserted (insert heap.list (min heap.top (addresses - 1)) (pages * page)) with
        | .ok list => (.ok (), { grown with list := list })
        | .error fault => (.error fault, grown)
    else (.error Error.outOfMemory, heap)

def allocate (granted : Bool) (size align : ℕ) (heap : Heap) : Except Fault ℕ × Heap :=
  if size = 0 ∨ ¬align.isPowerOfTwo then (.error Error.invalidArgument, heap)
  else match take heap.list size align with
    | .error fault => (.error fault, heap)
    | .ok (some (start, list)) => (.ok start, { heap with list := list })
    | .ok none =>
      match grow granted size align heap with
      | (.error fault, grown) => (.error fault, grown)
      | (.ok (), grown) =>
        match take grown.list size align with
        | .error fault => (.error fault, grown)
        | .ok (some (start, list)) => (.ok start, { grown with list := list })
        | .ok none => (.error Error.os, grown)

def release (base size : ℕ) (heap : Heap) : Except Fault Unit × Heap :=
  if base = 0 ∨ size = 0 ∨ checkedAdd base size = none then (.error Error.invalidArgument, heap)
  else match insert heap.list base size with
    | some list => (.ok (), { heap with list := list })
    | none => (.error Error.os, heap)

end DotnetPal.Wasm
