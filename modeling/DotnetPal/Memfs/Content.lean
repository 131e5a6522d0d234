import DotnetPal.Foundations.Extents
import DotnetPal.Foundations.GrowableArray
import DotnetPal.Foundations.Programs
import DotnetPal.Port

/-!
# The bytes of a file

A file keeps its bytes in a growable array until it is first mapped shared, and in pinned pages from
then on until a change of size that no mapping is in the way of moves them back. Every reservation
can be refused; the answers of the allocator are an argument of each change. An edit keeps what it
did before it failed, as the code does, although no failing edit turns out to have done anything.

The model is of a 64-bit target: an offset that fits 64 bits fits a length.
-/

open List

namespace DotnetPal.Memfs

open Programs

abbrev Bytes := List UInt8

/-- The unit of a mapping's offset, and of the memory a mapped file and a private mapping live in. -/
def page : ℕ := 4096

/-- The largest length and address. -/
def usizeMax : ℕ := 2 ^ 64 - 1

/-- The least multiple of `page` that is not below `length`. -/
def nextMultipleOfPage (length : ℕ) : ℕ := (length + (page - 1)) / page * page

theorem le_nextMultipleOfPage (length : ℕ) : length ≤ nextMultipleOfPage length := by
  have h := Nat.div_add_mod (length + (page - 1)) page
  have hmod := Nat.mod_lt (length + (page - 1)) (show 0 < page by decide)
  have hpage : page = 4096 := rfl
  unfold nextMultipleOfPage
  rw [Nat.mul_comm] at h
  omega

theorem page_dvd_nextMultipleOfPage (length : ℕ) : page ∣ nextMultipleOfPage length :=
  Nat.dvd_mul_left _ _

/-- It is the least one. -/
theorem nextMultipleOfPage_le {length bound : ℕ} (hle : length ≤ bound) (hdvd : page ∣ bound) :
    nextMultipleOfPage length ≤ bound := by
  obtain ⟨n, rfl⟩ := hdvd
  have hpage : page = 4096 := rfl
  have hdiv : (length + (page - 1)) / page < n + 1 := by
    rw [Nat.div_lt_iff_lt_mul (by decide)]
    rw [hpage] at hle ⊢
    omega
  unfold nextMultipleOfPage
  rw [Nat.mul_comm page n]
  exact Nat.mul_le_mul_right page (Nat.lt_succ_iff.mp hdiv)

/-- The pages of a file that has been mapped shared: `capacity` bytes at `base`, of which the first
`size` are the file. A consumer stores into `memory` through its mappings. -/
structure Pinned where
  base : ℕ
  size : ℕ
  capacity : ℕ
  memory : Bytes

/-- Makes the file `size` bytes. The bytes that leave it are zeroed, and so are those that enter. -/
def Pinned.setSize (pinned : Pinned) (size : ℕ) : Result Pinned :=
  let start := min pinned.size size
  let stop := max pinned.size size
  if stop ≤ pinned.capacity then
    .ok { pinned with
      size := size
      memory := pinned.memory.take start ++ replicate (stop - start) 0 ++ pinned.memory.drop stop }
  else .error .panic

inductive Content
  | plain (bytes : Vec UInt8)
  | pinned (pages : Pinned)

/-- The allocator's answers to the requests that one change of a content can make. -/
structure Reservations where
  /-- The array that pinned bytes move back into. -/
  unpin : Bool
  /-- Amortized growth, with what it adds beyond the request. -/
  amortized : Option ℕ
  /-- The exact growth asked for when the amortized one is refused. -/
  exact : Bool
  /-- The exact copy a shrunken array moves into. -/
  shrink : Bool

/-! ## Plain arrays -/

/-- Makes room for `additional` more bytes. -/
def reserve (answers : Reservations) (c : Vec UInt8) (additional room : ℕ) :
    Result (Vec UInt8) :=
  if additional > room then .error Error.noSpace
  else match c.tryReserve additional answers.amortized with
    | some reserved => .ok reserved
    | none => match c.tryReserveExact additional answers.exact with
      | some reserved => .ok reserved
      | none => .error Error.noSpace

def resize (answers : Reservations) (c : Vec UInt8) (size room : ℕ) : Result (Vec UInt8) :=
  if size > usizeMax then .error Error.noSpace
  else if size > c.length then do
    let reserved ← reserve answers c (size - c.length) room
    return reserved.extend (replicate (size - c.length) 0)
  else if size = 0 then .ok Vec.empty
  else
    let cut := c.truncate size
    if size ≤ cut.capacity / 2 then
      match (Vec.empty : Vec UInt8).tryReserveExact size answers.shrink with
      | some exact => .ok (exact.extend cut.data)
      | none => .ok cut
    else .ok cut

/-- Room for the bytes up to `stop`, zeros up to `start`. -/
def extendTo (answers : Reservations) (c : Vec UInt8) (start stop room : ℕ) :
    Result (Vec UInt8) :=
  if stop > c.length then do
    let reserved ← reserve answers c (stop - c.length) room
    if start > reserved.length then return reserved.extend (replicate (start - reserved.length) 0)
    else return reserved
  else .ok c

def write (answers : Reservations) (c : Vec UInt8) (offset : ℕ) (data : Bytes) (room : ℕ) :
    Result (ℕ × Vec UInt8) :=
  if offset + data.length > usizeMax then .error Error.noSpace
  else do
    let stop := offset + data.length
    let start := stop - data.length
    let c ← extendTo answers c start stop room
    if min c.length stop < start then throw .panic
    else
      let inside := min c.length stop - start
      let copied := c.withData
        (c.data.take start ++ data.take inside ++ c.data.drop (start + inside))
      return (data.length, copied.extend (data.drop inside))

/-! ## Contents -/

namespace Content

/-- A program that changes one content. -/
abbrev Edit := EStateM Fault Content

def len : Content → ℕ
  | plain bytes => bytes.length
  | pinned pages => pages.size

/-- The memory a content lives in, from its first byte on. -/
def memory : Content → Bytes
  | plain bytes => bytes.data
  | pinned pages => pages.memory

/-- What the file holds from `offset` on, `capacity` bytes at most. -/
def read (c : Content) (offset capacity : ℕ) : Bytes :=
  if offset ≤ usizeMax ∧ offset < c.len then
    (c.memory.drop offset).take (min (c.len - offset) capacity)
  else []

/-- Moves the bytes into `capacity` bytes of pages unless they are pinned already, and tells where
they are. `pages` is where the allocator puts the pages, if it has any. -/
def pin (capacity : ℕ) (pages : Option ℕ) : Edit ℕ := fun c ↦
  match c with
  | plain bytes =>
    match pages with
    | none => .error Error.outOfMemory c
    | some base =>
      if bytes.length ≤ capacity then
        .ok base (pinned ⟨base, bytes.length, capacity,
          bytes.data ++ replicate (capacity - bytes.length) 0⟩)
      else .error .panic c
  | pinned pages => .ok pages.base c

/-- Moves pinned bytes back into an array with room for `wanted` bytes, keeping no more than that. -/
def unpin (answers : Reservations) (wanted : ℕ) : Edit Unit := fun c ↦
  match c with
  | plain _ => .ok () c
  | pinned pages =>
    let kept := min pages.size wanted
    match (Vec.empty : Vec UInt8).tryReserveExact wanted answers.unpin with
    | none => .error Error.noSpace c
    | some bytes => .ok () (plain (bytes.extend (pages.memory.take kept)))

/-- Gets pinned bytes ready to become `wanted` bytes. While the file is `mapped` they stay
where they are. Otherwise they go back into an array when they outgrow the pages or leave half
of them unused. -/
def prepare (answers : Reservations) (wanted room : ℕ) (mapped : Bool) : Edit Unit := fun c ↦
  match c with
  | plain _ => .ok () c
  | pinned pages =>
    if wanted - pages.size > room then .error Error.noSpace c
    else
      let outgrown : Bool := wanted > pages.capacity
      let wasteful : Bool := wanted ≤ pages.capacity / 2
      if mapped then
        if outgrown then .error Error.noSpace c else .ok () c
      else if !outgrown && !wasteful then .ok () c
      else match unpin answers wanted c with
        | .error refused c => if outgrown then .error refused c else .ok () c
        | .ok () c => .ok () c

/-- The resize of a content that was prepared for it. -/
def resizePrepared (answers : Reservations) (size room : ℕ) : Edit Unit := fun c ↦
  match c with
  | plain bytes => match Memfs.resize answers bytes size room with
    | .ok bytes => .ok () (plain bytes)
    | .error fault => .error fault c
  | pinned pages => match pages.setSize size with
    | .ok pages => .ok () (pinned pages)
    | .error fault => .error fault c

def resize (answers : Reservations) (size room : ℕ) (mapped : Bool) : Edit Unit := do
  refuseIf (size > usizeMax) (Error.noSpace : Fault)
  prepare answers size room mapped
  resizePrepared answers size room

/-- Makes the file at least `stop` bytes. -/
def grow (pages : Pinned) (stop : ℕ) : Result Pinned :=
  if stop > pages.size then pages.setSize stop else .ok pages

/-- Copies the data into pages that hold it. -/
def copyIn (pages : Pinned) (stop : ℕ) (data : Bytes) : Result Pinned := do
  let pages ← grow pages stop
  if stop ≤ pages.capacity ∧ data.length ≤ stop then
    return { pages with
      memory := pages.memory.take (stop - data.length) ++ data ++ pages.memory.drop stop }
  else throw .panic

/-- The write into a content that was prepared for it. -/
def writePrepared (answers : Reservations) (offset : ℕ) (data : Bytes) (room : ℕ) : Edit ℕ := fun c ↦
  match c with
  | plain bytes => match Memfs.write answers bytes offset data room with
    | .ok (count, bytes) => .ok count (plain bytes)
    | .error fault => .error fault c
  | pinned pages => match copyIn pages (offset + data.length) data with
    | .ok pages => .ok data.length (pinned pages)
    | .error fault => .error fault c

/-- A write that does not fit is refused whole. -/
def write (answers : Reservations) (offset : ℕ) (data : Bytes) (room : ℕ) (mapped : Bool) : Edit ℕ := do
  refuseIf (offset + data.length > usizeMax) (Error.noSpace : Fault)
  let c ← get
  prepare answers (max (offset + data.length) c.len) room mapped
  writePrepared answers offset data room

end Content

/-! ## What a change of a plain array does -/

section Plain

variable (ans : Reservations) (c : Vec UInt8) {room : ℕ}

/-- Why a change of an array is refused: not for want of room that is there. -/
def Short (fits : Prop) (fault : Fault) : Prop := fault = .error .noSpace ∧ ¬fits

/-- A reservation is refused or leaves the bytes alone and stays within the room. -/
theorem reserve_yields (additional room : ℕ) :
    Yields (Short (additional ≤ room ∧ c.data.length + additional ≤ c.capacity))
      (reserve ans c additional room) fun reserved ↦
        reserved.data = c.data ∧ additional ≤ room := by
  unfold reserve
  split
  · exact .error ⟨rfl, by omega⟩
  · rename_i hroom
    split
    · rename_i reserved hreserved
      exact .ok ⟨Vec.tryReserve_data hreserved, by omega⟩
    · rename_i hamortized
      split
      · rename_i reserved hreserved
        exact .ok ⟨Vec.tryReserve_data hreserved, by omega⟩
      · refine .error ⟨rfl, fun hfits ↦ ?_⟩
        rw [Vec.tryReserve_of_room _ hfits.2] at hamortized
        cases hamortized

theorem resize_yields (size room : ℕ) :
    Yields (Short (size ≤ usizeMax ∧ size - c.data.length ≤ room ∧ size ≤ c.capacity))
      (resize ans c size room) fun final ↦
        final.data = Extents.resize 0 c.data size ∧ size - c.data.length ≤ room := by
  unfold resize
  split
  · exact .error ⟨rfl, by omega⟩
  split
  · rename_i hgrow
    rw [Vec.length_eq] at hgrow ⊢
    refine ((reserve_yields ans c _ room).weaken ?_).bind fun reserved ⟨hdata, hroom⟩ ↦ .ok ⟨?_, hroom⟩
    · exact fun fault ⟨hfault, hshort⟩ ↦ ⟨hfault, by omega⟩
    · rw [Vec.data_extend, hdata, Extents.resize, take_of_length_le (by omega)]
  rename_i hshrink
  rw [Vec.length_eq, Nat.not_lt] at hshrink
  have hcut : Extents.resize 0 c.data size = c.data.take size := by
    rw [Extents.resize, Nat.sub_eq_zero_of_le hshrink]
    simp
  split
  · rename_i hzero
    exact .ok ⟨by simp [hzero, Extents.resize], by omega⟩
  · dsimp only
    split
    · split
      · rename_i exact hexact
        refine .ok ⟨?_, by omega⟩
        rw [Vec.data_extend, Vec.tryReserve_data hexact, hcut]
        rfl
      · exact .ok ⟨hcut.symm, by omega⟩
    · exact .ok ⟨hcut.symm, by omega⟩

theorem extendTo_yields (start stop room : ℕ) (hle : start ≤ stop) :
    Yields (Short (stop - c.data.length ≤ room ∧ stop ≤ c.capacity))
      (extendTo ans c start stop room) fun final ↦
        final.data = c.data ++ replicate (start - c.data.length) 0 ∧ stop - c.data.length ≤ room := by
  unfold extendTo
  split
  · rename_i hgrow
    rw [Vec.length_eq] at hgrow ⊢
    refine ((reserve_yields ans c _ room).weaken ?_).bind fun reserved ⟨hdata, hroom⟩ ↦ ?_
    · exact fun fault ⟨hfault, hshort⟩ ↦ ⟨hfault, by omega⟩
    · split
      · exact .ok ⟨by simp [hdata], hroom⟩
      · rename_i hgap
        rw [Vec.length_eq, hdata] at hgap
        exact .ok ⟨by simp [hdata, Nat.sub_eq_zero_of_le (Nat.not_lt.mp hgap)], hroom⟩
  · rename_i hstay
    rw [Vec.length_eq] at hstay
    exact .ok ⟨by simp [Nat.sub_eq_zero_of_le (show start ≤ c.data.length by omega)], by omega⟩

/-- What is copied over the array and appended to it is the overwrite of the array. -/
theorem overwrite_eq_splice (array data : Bytes) (start : ℕ) :
    let filled := array ++ replicate (start - array.length) 0
    let inside := min filled.length (start + data.length) - start
    filled.take start ++ data.take inside ++ filled.drop (start + inside) ++ data.drop inside =
      Extents.overwrite 0 array start data := by
  intro filled inside
  have hfilled : filled.length = max array.length start := by
    simp only [filled, length_append, length_replicate]
    omega
  have hinside : inside = min (filled.length - start) data.length := by
    simp only [inside]
    omega
  have htake : filled.take start = Extents.resize 0 array start := by
    simp [filled, Extents.resize, take_append, take_replicate]
  rw [htake, Extents.overwrite, append_assoc, append_assoc, append_assoc]
  congr 1
  by_cases hlong : start + data.length ≤ array.length
  · have hall : inside = data.length := by omega
    have hsame : filled = array := by
      simp [filled, Nat.sub_eq_zero_of_le (show start ≤ array.length by omega)]
    rw [hall, hsame]
    simp
  · have hnone : filled.drop (start + inside) = [] := drop_eq_nil_of_le (by omega)
    have harray : array.drop (start + data.length) = [] := drop_eq_nil_of_le (by omega)
    rw [hnone, harray]
    simp

theorem write_yields (off : ℕ) (data : Bytes) (room : ℕ) :
    Yields (Short (off + data.length ≤ usizeMax ∧ off + data.length - c.data.length ≤ room ∧
        off + data.length ≤ c.capacity))
      (write ans c off data room) fun result ↦
        result.1 = data.length ∧ result.2.data = Extents.overwrite 0 c.data off data ∧
          off + data.length - c.data.length ≤ room := by
  unfold write
  split
  · exact .error ⟨rfl, by omega⟩
  dsimp only
  rw [Nat.add_sub_cancel]
  refine ((extendTo_yields ans c off _ room (by omega)).weaken ?_).bind fun extended ⟨hdata, hroom⟩ ↦ ?_
  · exact fun fault ⟨hfault, hshort⟩ ↦ ⟨hfault, by omega⟩
  have hlen : extended.data.length = max c.data.length off := by
    rw [hdata, length_append, length_replicate]
    omega
  have hstart : ¬min extended.length (off + data.length) < off := by
    rw [Vec.length_eq]
    omega
  rw [if_neg hstart]
  refine .ok ⟨rfl, ?_, hroom⟩
  rw [Vec.data_extend, Vec.data_withData, Vec.length_eq, hdata]
  exact overwrite_eq_splice c.data data off

end Plain

/-! ## What a change of a content does -/

/-- Pages hold the file, and are whole pages. -/
structure Pinned.Valid (pinned : Pinned) : Prop where
  capacity_pos : 0 < pinned.capacity
  page_dvd : page ∣ pinned.capacity
  size_le : pinned.size ≤ pinned.capacity
  memory_length : pinned.memory.length = pinned.capacity

/-- Growing and shrinking within the pages is the resize of the bytes of the file. -/
theorem Pinned.setSize_spec {pinned : Pinned} (hvalid : pinned.Valid) {size : ℕ}
    (hsize : size ≤ pinned.capacity) :
    ∃ final, pinned.setSize size = .ok final ∧ final.Valid ∧ final.size = size ∧
      final.base = pinned.base ∧ final.capacity = pinned.capacity ∧
      final.memory.take size = Extents.resize 0 (pinned.memory.take pinned.size) size := by
  have hold := hvalid.size_le
  have hlen := hvalid.memory_length
  unfold setSize
  dsimp only
  rw [if_pos (by omega)]
  refine ⟨_, rfl, ⟨hvalid.capacity_pos, hvalid.page_dvd, hsize, ?_⟩, rfl, rfl, rfl, ?_⟩
  · simp only [length_append, length_take, length_replicate, length_drop]
    omega
  · apply ext_getElem?
    intro i
    rw [getElem?_take, Extents.getElem?_resize]
    split
    · rename_i hindex
      rw [getElem?_append_left (by simp; omega), getElem?_append, getElem?_take, getElem?_take,
        getElem?_replicate]
      by_cases hkept : i < pinned.size
      · have hinside : i < pinned.memory.length := by omega
        have hsome : pinned.memory[i]? = some pinned.memory[i] := getElem?_eq_getElem hinside
        rw [if_pos (by simp; omega), if_pos (by omega), if_pos hkept, hsome]
        rfl
      · rw [if_neg (by simp; omega), if_pos (by simp; omega), if_neg hkept]
        rfl
    · rfl

namespace Content

/-- The bytes of the file. -/
def bytes (c : Content) : Bytes := c.memory.take c.len

/-- Where the pages of the file are and how long, if it has any. -/
def pages? : Content → Option (ℕ × ℕ)
  | plain _ => none
  | pinned pages => some (pages.base, pages.capacity)

/-- A length fits the machine, and pages hold the file. -/
structure Valid (c : Content) : Prop where
  len_le : c.len ≤ usizeMax
  pages_valid : ∀ pages, c = pinned pages → pages.Valid

theorem valid_plain {bytes : Vec UInt8} (h : bytes.length ≤ usizeMax) : (plain bytes).Valid :=
  ⟨h, by simp⟩

variable {p : Pinned}

theorem valid_pinned (hsize : p.size ≤ usizeMax) (hvalid : p.Valid) : (pinned p).Valid :=
  ⟨hsize, by rintro x ⟨⟩; exact hvalid⟩

@[simp]
theorem bytes_plain (bytes : Vec UInt8) : (plain bytes).bytes = bytes.data := by
  simp [Content.bytes, memory, len]

@[simp]
theorem bytes_pinned (p : Pinned) : (pinned p).bytes = p.memory.take p.size := rfl

variable {c : Content}

theorem length_bytes (hvalid : c.Valid) : c.bytes.length = c.len := by
  cases c with
  | plain bytes => simp [len]
  | pinned p =>
    have hsize := (hvalid.pages_valid p rfl).size_le
    have hlen := (hvalid.pages_valid p rfl).memory_length
    simp only [bytes_pinned, length_take, len]
    omega

/-- A read sees the bytes of the file and nothing behind them. -/
theorem read_eq (hvalid : c.Valid) (off cap : ℕ) :
    c.read off cap = (c.bytes.drop off).take cap := by
  have hlen := hvalid.len_le
  unfold read
  split
  · rename_i hinside
    rw [Content.bytes, drop_take, take_take, Nat.min_comm]
  · rename_i houtside
    have hend : c.bytes.length ≤ off := by
      rw [length_bytes hvalid]
      omega
    rw [drop_eq_nil_of_le hend, take_nil]

/-- What a successful change that makes the file `bytes` leaves behind. -/
structure Edited (c : Content) (room : ℕ) (mapped : Bool) (bytes : Bytes) (final : Content) :
    Prop where
  valid : final.Valid
  bytes_eq : final.bytes = bytes
  grown : final.len ≤ c.len + room
  /-- No change makes pages. -/
  pages : final.pages? = none ∨ final.pages? = c.pages?
  /-- Nothing moves while a mapping points into it. -/
  stays : mapped = true → final.pages? = c.pages?

theorem edited_plain {room : ℕ} {mapped : Bool} {bytes : Bytes} {final : Vec UInt8}
    (hbytes : final.data = bytes) (hmax : bytes.length ≤ usizeMax) (hgrown : bytes.length ≤ c.len + room)
    (hmoves : mapped = true → c.pages? = none) : Edited c room mapped bytes (plain final) where
  valid := valid_plain (by rw [Vec.length_eq, hbytes]; exact hmax)
  bytes_eq := by rw [bytes_plain, hbytes]
  grown := by rw [len, Vec.length_eq, hbytes]; exact hgrown
  pages := .inl rfl
  stays := fun h ↦ (hmoves h).symm

theorem edited_pinned {final : Pinned} {room : ℕ} (mapped : Bool) {bytes : Bytes} (hvalid : final.Valid)
    (hbase : final.base = p.base) (hcapacity : final.capacity = p.capacity)
    (hbytes : final.memory.take final.size = bytes) (hmax : final.size ≤ usizeMax)
    (hgrown : final.size ≤ p.size + room) : Edited (pinned p) room mapped bytes (pinned final) := by
  have hpages : (pinned final).pages? = (pinned p).pages? := by simp [pages?, hbase, hcapacity]
  exact ⟨valid_pinned hmax hvalid, hbytes, hgrown, .inr hpages, fun _ ↦ hpages⟩

/-- Preparing refuses, keeps pages that hold what is wanted, or moves the bytes into an array that
has room for it. -/
theorem prepare_cases (ans : Reservations) (wanted room : ℕ) (mapped : Bool) (c : Content) :
    (∃ error : Error, prepare ans wanted room mapped c = .error error c) ∨
    (prepare ans wanted room mapped c = .ok () c ∧
      ∀ p, c = pinned p → wanted ≤ p.capacity ∧ wanted - p.size ≤ room) ∨
    (mapped = false ∧ ∃ p array, c = pinned p ∧
      prepare ans wanted room mapped c = .ok () (plain array) ∧
      array.data = p.memory.take (min p.size wanted) ∧ wanted ≤ array.capacity ∧
      wanted - p.size ≤ room) := by
  cases c with
  | plain bytes => exact .inr (.inl ⟨rfl, by simp⟩)
  | pinned p =>
    unfold prepare
    dsimp only
    by_cases hroom : wanted - p.size > room
    · exact .inl ⟨.noSpace, by rw [if_pos hroom]⟩
    rw [if_neg hroom]
    cases mapped with
    | true =>
      by_cases hout : wanted > p.capacity
      · exact .inl ⟨.noSpace, by simp [hout]⟩
      · refine .inr (.inl ⟨by simp [hout], ?_⟩)
        rintro x ⟨⟩
        omega
    | false =>
      by_cases hstay : (!decide (wanted > p.capacity) && !decide (wanted ≤ p.capacity / 2)) = true
      · refine .inr (.inl ⟨by simp only [hstay]; rfl, ?_⟩)
        rintro x ⟨⟩
        simp at hstay
        omega
      · simp only [hstay, Bool.false_eq_true, if_false, unpin]
        cases hgrant : (Vec.empty : Vec UInt8).tryReserveExact wanted ans.unpin with
        | none =>
          by_cases hout : wanted > p.capacity
          · exact .inl ⟨.noSpace, by simp [hout]⟩
          · refine .inr (.inl ⟨by simp [hout], ?_⟩)
            rintro x ⟨⟩
            omega
        | some array =>
          have hcapacity := Vec.tryReserve_room hgrant
          have hdata := Vec.tryReserve_data hgrant
          refine .inr (.inr ⟨trivial, p, _, rfl, rfl, by simp [hdata], ?_, by omega⟩)
          simp only [Vec.extend]
          simp only [Vec.data_empty, length_nil] at hcapacity
          omega

theorem resize_take_of_le (array : Bytes) (kept size : ℕ) :
    Extents.resize 0 (array.take (min kept size)) size = Extents.resize 0 (array.take kept) size := by
  apply ext_getElem?
  intro i
  rw [Extents.getElem?_resize, Extents.getElem?_resize, getElem?_take, getElem?_take]
  split
  · congr 2
    split <;> split <;> first | rfl | omega
  · rfl

/-- A resize is refused and changes nothing, or is the resize of the bytes. -/
theorem resize_atomic (ans : Reservations) (size room : ℕ) (mapped : Bool) (hvalid : c.Valid) :
    Atomic Fault.Refusal (resize ans size room mapped) c fun _ final ↦
      Edited c room mapped (Extents.resize 0 c.bytes size) final := by
  refine .bind_refuseIf (Fault.refusal_error _) fun hsize ↦ ?_
  rcases prepare_cases ans size room mapped c with
    ⟨error, h⟩ | ⟨h, hfits⟩ | ⟨hmapped, p, array, rfl, h, hdata, hcapacity, hroom⟩
  · exact .refused (bind_of_error h)
  · refine .bind_ok h ?_
    cases c with
    | plain bytes =>
      have hyields := resize_yields ans bytes size room
      cases hresize : Memfs.resize ans bytes size room with
      | error fault =>
        obtain ⟨rfl, _⟩ := hyields.of_error hresize
        exact .refused (by simp only [resizePrepared, hresize]; rfl)
      | ok final =>
        obtain ⟨hbytes, hroom⟩ := hyields.of_ok hresize
        refine .of_ok (by simp only [resizePrepared, hresize]; rfl)
          (edited_plain (by simp [hbytes]) ?_ ?_ fun _ ↦ rfl) <;>
          simp only [len, bytes_plain, Vec.length_eq, Extents.length_resize] <;> omega
    | pinned p =>
      obtain ⟨hwanted, hroom⟩ := hfits p rfl
      obtain ⟨final, hfinal, hfinalValid, hnew, hbase, hcapacity, hbytes⟩ :=
        Pinned.setSize_spec (hvalid.pages_valid p rfl) hwanted
      exact .of_ok (by simp only [resizePrepared, hfinal]; rfl)
        (edited_pinned mapped hfinalValid hbase hcapacity (by rw [hnew, hbytes]; rfl) (by omega) (by omega))
  · have hlen : array.data.length = min p.size size := by
      have hpages := hvalid.pages_valid p rfl
      rw [hdata, length_take, hpages.memory_length]
      have hle := hpages.size_le
      omega
    have hyields := resize_yields ans array size room
    cases hresize : Memfs.resize ans array size room with
    | error fault => exact absurd ⟨Nat.not_lt.mp hsize, by omega, hcapacity⟩ (hyields.of_error hresize).2
    | ok final =>
      refine .of_ok ((bind_of_ok h).trans (by simp only [resizePrepared, hresize]; rfl))
        (edited_plain ?_ ?_ ?_ (by simp [hmapped]))
      · rw [(hyields.of_ok hresize).1, hdata, bytes_pinned, resize_take_of_le]
      · simpa only [Extents.length_resize] using Nat.not_lt.mp hsize
      · simp only [len, Extents.length_resize]
        omega

/-- Growing pages to hold a write is the resize of the file to where the write ends. -/
theorem grow_spec (hvalid : p.Valid) {stop : ℕ} (hstop : stop ≤ p.capacity) :
    ∃ grown, grow p stop = .ok grown ∧ grown.Valid ∧
      grown.base = p.base ∧ grown.capacity = p.capacity ∧ grown.size = max p.size stop ∧
      grown.memory.take grown.size = Extents.resize 0 (p.memory.take p.size) (max p.size stop) := by
  unfold grow
  by_cases hgrow : stop > p.size
  · obtain ⟨grown, hgrown, hgrownValid, hsize, hbase, hcapacity, hbytes⟩ := Pinned.setSize_spec hvalid hstop
    have hmax : max p.size stop = stop := by omega
    exact ⟨grown, by rw [if_pos hgrow, hgrown], hgrownValid, hbase, hcapacity, by omega,
      by rw [hsize, hmax, hbytes]⟩
  · have hmax : max p.size stop = p.size := by omega
    have hlen : (p.memory.take p.size).length = p.size := by
      have hsize := hvalid.size_le
      rw [length_take, hvalid.memory_length]
      omega
    refine ⟨p, by rw [if_neg hgrow], hvalid, rfl, rfl, hmax.symm, ?_⟩
    rw [hmax]
    nth_rewrite 3 [← hlen]
    rw [Extents.resize_self]

/-- Copying into pages that hold the data is the overwrite of the bytes of the file. -/
theorem copyIn_spec (hvalid : p.Valid) (off : ℕ) (data : Bytes) (hstop : off + data.length ≤ p.capacity) :
    ∃ final, copyIn p (off + data.length) data = .ok final ∧ final.Valid ∧
      final.base = p.base ∧ final.capacity = p.capacity ∧
      final.size = max p.size (off + data.length) ∧
      final.memory.take final.size = Extents.overwrite 0 (p.memory.take p.size) off data := by
  obtain ⟨grown, hgrown, hgrownValid, hbase, hcapacity, hsize, hbytes⟩ := grow_spec hvalid hstop
  have hmemory := hgrownValid.memory_length
  have hfits := hgrownValid.size_le
  have hold : (p.memory.take p.size).length = p.size := by
    have := hvalid.size_le
    rw [length_take, hvalid.memory_length]
    omega
  unfold copyIn
  simp only [hgrown, bind, Except.bind, Nat.add_sub_cancel]
  rw [if_pos (by omega)]
  refine ⟨_, rfl, ⟨hgrownValid.capacity_pos, hgrownValid.page_dvd, hfits, ?_⟩, hbase, hcapacity, hsize, ?_⟩
  · simp only [length_append, length_take, length_drop]
    omega
  · -- Below the data and behind it, the bytes are those of the grown file.
    have hgrownByte : ∀ i, i < grown.size → grown.memory[i]? =
      some ((p.memory.take p.size)[i]?.getD 0) := by
      intro i hindex
      have hpoint := congrArg (fun bytes ↦ bytes[i]?) hbytes
      simpa only [getElem?_take, hindex, if_true, Extents.getElem?_resize, ← hsize] using hpoint
    apply ext_getElem?
    intro i
    rw [Extents.getElem?_overwrite, getElem?_take]
    by_cases hindex : i < grown.size
    · rw [if_pos hindex, append_assoc, getElem?_append, length_take,
        Nat.min_eq_left (show off ≤ grown.memory.length by omega), getElem?_append,
        getElem?_take, getElem?_drop]
      by_cases hbelow : i < off
      · rw [if_pos hbelow, if_pos hbelow, if_pos hbelow, hgrownByte i hindex]
      · rw [if_neg hbelow, if_neg hbelow]
        by_cases hinside : i < off + data.length
        · rw [if_pos (by omega), if_pos hinside]
        · rw [if_neg (by omega), if_neg hinside]
          have hbehind : off + data.length + (i - off - data.length) = i := by omega
          rw [hbehind, hgrownByte i hindex]
          have hinsideOld : i < (p.memory.take p.size).length := by omega
          rw [getElem?_eq_getElem hinsideOld]
          rfl
    · rw [if_neg hindex, if_neg (by omega), if_neg (by omega), getElem?_eq_none (by omega)]

/-- A write is refused and changes nothing, or is the overwrite of the bytes. -/
theorem write_atomic (ans : Reservations) (off : ℕ) (data : Bytes) (room : ℕ) (mapped : Bool)
    (hvalid : c.Valid) :
    Atomic Fault.Refusal (write ans off data room mapped) c fun n final ↦
      n = data.length ∧ Edited c room mapped (Extents.overwrite 0 c.bytes off data) final := by
  refine .bind_refuseIf (Fault.refusal_error _) fun hsize ↦ .bind_ok rfl ?_
  have hlen := length_bytes hvalid
  have hmax := hvalid.len_le
  have hnew : (Extents.overwrite 0 c.bytes off data).length ≤ usizeMax := by
    rw [Extents.length_overwrite, hlen]
    omega
  rcases prepare_cases ans (max (off + data.length) c.len) room mapped c with
    ⟨error, h⟩ | ⟨h, hfits⟩ | ⟨hmapped, p, array, rfl, h, hdata, hcapacity, hroom⟩
  · exact .refused (bind_of_error h)
  · refine .bind_ok h ?_
    cases c with
    | plain bytes =>
      have hyields := write_yields ans bytes off data room
      cases hwrite : Memfs.write ans bytes off data room with
      | error fault =>
        obtain ⟨rfl, _⟩ := hyields.of_error hwrite
        exact .refused (by simp only [writePrepared, hwrite]; rfl)
      | ok result =>
        obtain ⟨hn, hbytes, hroom⟩ := hyields.of_ok hwrite
        refine .of_ok (by simp only [writePrepared, hwrite]; rfl)
          ⟨hn, edited_plain (by simp [hbytes]) hnew ?_ fun _ ↦ rfl⟩
        simp only [len, bytes_plain, Vec.length_eq, Extents.length_overwrite]
        omega
    | pinned p =>
      obtain ⟨hwanted, hroom⟩ := hfits p rfl
      simp only [len] at hwanted hroom hmax
      obtain ⟨final, hfinal, hfinalValid, hbase, hcapacity, hfinalSize, hbytes⟩ :=
        copyIn_spec (hvalid.pages_valid p rfl) off data (by omega)
      exact .of_ok (by simp only [writePrepared, hfinal])
        ⟨rfl, edited_pinned mapped hfinalValid hbase hcapacity hbytes (by omega) (by omega)⟩
  · simp only [len] at hdata hcapacity hroom hlen
    have hall : array.data = (pinned p).bytes := by
      rw [hdata, Nat.min_eq_left (Nat.le_max_right _ _), bytes_pinned]
    have hyields := write_yields ans array off data room
    cases hwrite : Memfs.write ans array off data room with
    | error fault =>
      refine absurd ⟨Nat.not_lt.mp hsize, ?_, by omega⟩ (hyields.of_error hwrite).2
      rw [hall, hlen]
      omega
    | ok result =>
      obtain ⟨hn, hbytes, _⟩ := hyields.of_ok hwrite
      refine .of_ok ((bind_of_ok h).trans (by simp only [writePrepared, hwrite]; rfl))
        ⟨hn, edited_plain (by rw [hbytes, hall]) hnew ?_ (by simp [hmapped])⟩
      simp only [len, Extents.length_overwrite, hlen]
      omega

/-- Pinning keeps the bytes: it finds the pages that are there, or moves the file into new ones. -/
theorem pin_cases (cap : ℕ) (p : Option ℕ) (hfits : c.len ≤ cap)
    (hpos : 0 < cap) (hdvd : page ∣ cap) :
    pin cap p c = .error Error.outOfMemory c ∨
    (∃ x, c = pinned x ∧ pin cap p c = .ok x.base c) ∨
    (c.pages? = none ∧ ∃ x : Pinned, p = some x.base ∧
      pin cap p c = .ok x.base (pinned x) ∧ x.capacity = cap ∧
      x.Valid ∧ x.size = c.len ∧ (pinned x).bytes = c.bytes) := by
  cases c with
  | pinned x => exact .inr (.inl ⟨x, rfl, rfl⟩)
  | plain array =>
    cases p with
    | none => exact .inl rfl
    | some base =>
      simp only [len] at hfits
      refine .inr (.inr ⟨rfl, ⟨base, array.length, cap,
        array.data ++ replicate (cap - array.length) 0⟩, rfl, ?_, rfl, ?_, rfl, ?_⟩)
      · simp only [pin, if_pos hfits]
      · refine ⟨hpos, hdvd, hfits, ?_⟩
        rw [Vec.length_eq] at hfits ⊢
        simp only [length_append, length_replicate]
        omega
      · simp

end Content

end DotnetPal.Memfs
