import DotnetPal.Port

/-!
# The static arena

`Arena` hands out runs of blocks of a static array. A slot per block holds the number of blocks at
the head of a run, a mark in its tail and zero where the block is free; addresses are turned into
slots and checked against them. The calls run under the arena's lock, one at a time. The offsets
below are into the array and the slots are a function of the block, of which only the first `blocks`
values are the array's.
-/

namespace DotnetPal.Storage

def granularity : ℕ := 4096

/-- Where the array of a program lies. Objects do not reach the end of the address space nor
half its size. -/
structure Place where
  bits : ℕ
  blocks : ℕ
  base : ℕ
  width : bits ≤ 64
  /-- `CAPACITY` is 8, 256 or 64 MiB. -/
  configured : blocks ∈ [2048, 65536, 16384]
  base_pos : 0 < base
  aligned : base % 65536 = 0
  fits : base + blocks * granularity < 2 ^ bits
  small : blocks * granularity < 2 ^ (bits - 1)

namespace Place

def capacity (p : Place) : ℕ := p.blocks * granularity

/-- `usize::MAX`, which also marks the tail of a run. -/
def usizeMax (p : Place) : ℕ := 2 ^ p.bits - 1

def isizeMax (p : Place) : ℕ := 2 ^ (p.bits - 1) - 1

/-- The address of a block. -/
def address (p : Place) (first : ℕ) : ℕ := p.base + first * granularity

theorem blocks_lt_usizeMax (p : Place) : p.blocks < p.usizeMax := by
  have hfits := p.fits
  have hpos := p.base_pos
  have hblocks : p.blocks ≤ p.blocks * granularity := Nat.le_mul_of_pos_right _ (by decide)
  unfold usizeMax
  omega

end Place

/-- The small arena of a 32-bit program. -/
def lowPlace : Place where
  bits := 32
  blocks := 2048
  base := 65536
  width := by decide
  configured := by decide
  base_pos := by decide
  aligned := by decide
  fits := by decide
  small := by decide

structure Arena where
  slots : ℕ → ℕ
  bytes : ℕ → UInt8

namespace Arena

def initial : Arena := ⟨fun _ ↦ 0, fun _ ↦ 0⟩

/-- The first of some slots that is in use. -/
def occupied (slots : ℕ → ℕ) (first count : ℕ) : Option ℕ :=
  (List.range count).find? fun i ↦ slots (first + i) ≠ 0

/-- The first free and aligned run from a slot on. Every turn moves on, so turns for all the
slots suffice. -/
def search (p : Place) (slots : ℕ → ℕ) (count align : ℕ) : ℕ → ℕ → Option ℕ
  | 0, _ => none
  | turns + 1, first =>
    if first ≤ p.blocks - count then
      if p.address first &&& (align - 1) ≠ 0 then search p slots count align turns (first + 1)
      else match occupied slots first count with
        | some i => search p slots count align turns (first + (i + 1))
        | none => some first
    else none

/-- The slots of a new run. -/
def claimed (p : Place) (slots : ℕ → ℕ) (first count : ℕ) : ℕ → ℕ := fun slot ↦
  if slot = first then count else if first < slot ∧ slot < first + count then p.usizeMax else slots slot

/-- The slots without a run. -/
def freed (slots : ℕ → ℕ) (first count : ℕ) : ℕ → ℕ :=
  fun slot ↦ if first ≤ slot ∧ slot < first + count then 0 else slots slot

def wiped (bytes : ℕ → UInt8) (offset size : ℕ) : ℕ → UInt8 :=
  fun byte ↦ if offset ≤ byte ∧ byte < offset + size then 0 else bytes byte

def allocate (p : Place) (size align : ℕ) (a : Arena) : Except Error ℕ × Arena :=
  if size / granularity = 0 ∨ size / granularity > p.blocks then (.error .outOfMemory, a)
  else match search p a.slots (size / granularity) align (p.blocks + 1) 0 with
    | some first =>
      (.ok (p.address first),
        ⟨claimed p a.slots first (size / granularity), wiped a.bytes (first * granularity) size⟩)
    | none => (.error .outOfMemory, a)

def release (p : Place) (addr size : ℕ) (a : Arena) : Except Error Unit × Arena :=
  if addr < p.base then (.error .invalidArgument, a)
  else if p.capacity ≤ addr - p.base ∨ (addr - p.base) % granularity ≠ 0 then (.error .invalidArgument, a)
  else
    let first := (addr - p.base) / granularity
    let count := a.slots first
    if count = 0 ∨ count = p.usizeMax ∨ count ≠ size / granularity then (.error .invalidArgument, a)
    else (.ok (), { a with slots := freed a.slots first count })

/-- The head of the run a slot is in, or the slot itself where it is in none. -/
def head (p : Place) (slots : ℕ → ℕ) : ℕ → Option ℕ
  | 0 => if slots 0 = p.usizeMax then none else some 0
  | slot + 1 => if slots (slot + 1) = p.usizeMax then head p slots slot else some (slot + 1)

def zero (p : Place) (addr size : ℕ) (a : Arena) : Except Error Unit × Arena :=
  if addr < p.base then (.error .invalidArgument, a)
  else if p.usizeMax < addr - p.base + size then (.error .invalidArgument, a)
  else if size = 0 ∨ p.capacity < addr - p.base + size then (.error .invalidArgument, a)
  else match head p a.slots ((addr - p.base) / granularity) with
    | none => (.error .invalidArgument, a)
    | some first =>
      if a.slots first = 0 ∨ (first + a.slots first) * granularity < addr - p.base + size then
        (.error .invalidArgument, a)
      else (.ok (), { a with bytes := wiped a.bytes (addr - p.base) size })

/-! ## Runs of blocks -/

/-- A run of blocks begins at a slot. -/
def Heads (p : Place) (a : Arena) (first : ℕ) : Prop :=
  first < p.blocks ∧ a.slots first ≠ 0 ∧ a.slots first ≠ p.usizeMax

/-- Runs end in the array, with marks after their heads, and marks are in runs. -/
structure Sound (p : Place) (a : Arena) : Prop where
  run : ∀ first, a.Heads p first → first + a.slots first ≤ p.blocks ∧
    ∀ slot, first < slot → slot < first + a.slots first → a.slots slot = p.usizeMax
  tail : ∀ slot < p.blocks, a.slots slot = p.usizeMax →
    ∃ first, a.Heads p first ∧ first < slot ∧ slot < first + a.slots first

variable {p : Place} {a : Arena}

theorem usizeMax_ne_zero (p : Place) : p.usizeMax ≠ 0 := (Nat.zero_lt_of_lt p.blocks_lt_usizeMax).ne'

theorem sound_initial (p : Place) : Sound p initial where
  run := fun _ hheads ↦ absurd rfl hheads.2.1
  tail := fun _ _ htail ↦ absurd htail.symm (usizeMax_ne_zero p)

variable {slot : ℕ}

variable {f : ℕ}

/-- Two runs with a block in common are one. -/
theorem Sound.eq_of_overlap (h : Sound p a) {j : ℕ} (hfirst : a.Heads p f)
    (hj : a.Heads p j) (hin : f ≤ slot ∧ slot < f + a.slots f)
    (hinother : j ≤ slot ∧ slot < j + a.slots j) : f = j := by
  rcases Nat.lt_trichotomy f j with hlt | heq | hgt
  · exact absurd ((h.run f hfirst).2 j hlt (by omega)) hj.2.2
  · exact heq
  · exact absurd ((h.run j hj).2 f hgt (by omega)) hfirst.2.2

/-! ## Allocation -/

variable {slots : ℕ → ℕ}

theorem occupied_eq_none {count : ℕ} (h : occupied slots f count = none) :
    ∀ slot, f ≤ slot → slot < f + count → slots slot = 0 := by
  intro slot hle hlt
  have hfree := List.find?_range_eq_none.mp h (slot - f) (by omega)
  simpa [Nat.add_sub_cancel' hle] using hfree

/-- What a search finds. -/
theorem search_spec {count align turns start : ℕ} (hx : search p slots count align turns start = some f) :
    f ≤ p.blocks - count ∧ p.address f &&& (align - 1) = 0 ∧
      ∀ slot, f ≤ slot → slot < f + count → slots slot = 0 := by
  induction turns generalizing start with
  | zero => cases hx
  | succ turns ih =>
    rw [search] at hx
    split_ifs at hx with hin haligned
    · exact ih hx
    · split at hx
      · exact ih hx
      · next hfree =>
        obtain rfl := Option.some.inj hx
        exact ⟨hin, not_not.mp haligned, occupied_eq_none hfree⟩

/-- A search passes over no free and aligned run. -/
theorem search_complete {count align turns start : ℕ} (hturns : p.blocks < turns + start)
    (hstart : start ≤ f) (hin : f ≤ p.blocks - count) (haligned : p.address f &&& (align - 1) = 0)
    (hfree : ∀ slot, f ≤ slot → slot < f + count → slots slot = 0) :
    ∃ x ≤ f, search p slots count align turns start = some x := by
  induction turns generalizing start with
  | zero => omega
  | succ turns ih =>
    rw [search, if_pos (hstart.trans hin)]
    split_ifs with hskew
    · have hne : start ≠ f := fun heq ↦ hskew (heq ▸ haligned)
      exact ih (by omega) (by omega)
    · split
      · next i hindex =>
        obtain ⟨hused, hrange, _⟩ := List.find?_range_eq_some.mp hindex
        rw [decide_eq_true_eq] at hused
        rw [List.mem_range] at hrange
        -- The slot in use is in no free run.
        have hpast : start + i < f := by
          by_contra hnot
          exact hused (hfree (start + i) (by omega) (by omega))
        exact ih (by omega) (by omega)
      · exact ⟨start, hstart, rfl⟩

theorem slots_claimed {count : ℕ} (hout : slot < f ∨ f + count ≤ slot) (hcount : 0 < count) :
    claimed p slots f count slot = slots slot := by
  unfold claimed
  rw [if_neg (by omega), if_neg (by omega)]

section Claims

variable {f count : ℕ} (hcount : 0 < count) (hin : f + count ≤ p.blocks)
  (hfree : ∀ slot, f ≤ slot → slot < f + count → a.slots slot = 0) (bytes : ℕ → UInt8)

include hcount hin hfree

/-- A new run is one more. -/
theorem heads_claimed (slot : ℕ) :
    Heads p ⟨claimed p a.slots f count, bytes⟩ slot ↔ slot = f ∨ a.Heads p slot := by
  have hmax := p.blocks_lt_usizeMax
  unfold Heads
  by_cases hsame : slot = f
  · subst hsame
    simp only [claimed, if_true, true_or, iff_true]
    omega
  · by_cases hinside : f < slot ∧ slot < f + count
    · have hzero := hfree slot (by omega) (by omega)
      simp [claimed, hsame, hinside, hzero]
    · simp [claimed, hsame, hinside]

theorem Sound.claimed (h : Sound p a) : Sound p ⟨claimed p a.slots f count, bytes⟩ := by
  have hmax := usizeMax_ne_zero p
  have hout : ∀ slot, a.slots slot ≠ 0 → slot < f ∨ f + count ≤ slot := by
    intro slot hused
    by_contra hnot
    exact hused (hfree slot (by omega) (by omega))
  constructor
  · intro j hj
    rcases (heads_claimed hcount hin hfree bytes j).mp hj with rfl | hold
    · have hhead : Arena.claimed p a.slots j count j = count := by simp [Arena.claimed]
      simp only [hhead]
      refine ⟨hin, fun slot hlt hle ↦ ?_⟩
      simp [Arena.claimed, hlt, hle, hlt.ne']
    · obtain ⟨hend, htail⟩ := h.run j hold
      simp only [slots_claimed (hout j hold.2.1) hcount]
      refine ⟨hend, fun slot hlt hle ↦ ?_⟩
      have hslot := htail slot hlt hle
      rw [slots_claimed (hout slot (by rw [hslot]; exact hmax)) hcount]
      exact hslot
  · intro slot hslot htail
    by_cases hinside : f < slot ∧ slot < f + count
    · refine ⟨f, (heads_claimed hcount hin hfree bytes f).mpr (.inl rfl), hinside.1, ?_⟩
      simpa [Arena.claimed] using hinside.2
    · have hne : slot ≠ f := by
        rintro rfl
        have hhead : Arena.claimed p a.slots slot count slot = count := by simp [Arena.claimed]
        have hlt := p.blocks_lt_usizeMax
        simp only [hhead] at htail
        omega
      have hold : a.slots slot = p.usizeMax := by simpa [Arena.claimed, hne, hinside] using htail
      obtain ⟨j, hj, hlt, hle⟩ := h.tail slot hslot hold
      refine ⟨j, (heads_claimed hcount hin hfree bytes j).mpr (.inr hj), hlt, ?_⟩
      simpa only [slots_claimed (hout j hj.2.1) hcount] using hle

end Claims

/-! ## Release -/

section Releases

variable {f : ℕ} (h : Sound p a) (hfirst : a.Heads p f) (bytes : ℕ → UInt8)

include h hfirst

theorem heads_freed (slot : ℕ) :
    Heads p ⟨freed a.slots f (a.slots f), bytes⟩ slot ↔ slot ≠ f ∧ a.Heads p slot := by
  unfold Heads
  by_cases hinside : f ≤ slot ∧ slot < f + a.slots f
  · simp only [freed, hinside, and_self, if_true, ne_eq, not_true_eq_false, false_and, and_false,
      false_iff, not_and]
    intro hne _ _
    exact not_not.mpr ((h.run f hfirst).2 slot (by omega) hinside.2)
  · have hne : slot ≠ f := by
      rintro rfl
      have hpos := Nat.pos_of_ne_zero hfirst.2.1
      omega
    simp [freed, hinside, hne]

theorem slots_freed_of_heads {j : ℕ} (hj : a.Heads p j) (hne : j ≠ f)
    (hin : j ≤ slot ∧ slot < j + a.slots j) : freed a.slots f (a.slots f) slot = a.slots slot := by
  refine if_neg fun hinside ↦ hne ?_
  exact h.eq_of_overlap hj hfirst hin hinside

theorem Sound.freed : Sound p ⟨freed a.slots f (a.slots f), bytes⟩ := by
  constructor
  · intro j hj
    obtain ⟨hne, hold⟩ := (heads_freed h hfirst bytes j).mp hj
    obtain ⟨hend, htail⟩ := h.run j hold
    have hself : Arena.freed a.slots f (a.slots f) j = a.slots j :=
      slots_freed_of_heads h hfirst hold hne ⟨le_rfl, Nat.lt_add_of_pos_right (Nat.pos_of_ne_zero hold.2.1)⟩
    simp only [hself]
    refine ⟨hend, fun slot hlt hle ↦ ?_⟩
    rw [slots_freed_of_heads h hfirst hold hne ⟨hlt.le, hle⟩]
    exact htail slot hlt hle
  · intro slot hslot htail
    have hout : ¬(f ≤ slot ∧ slot < f + a.slots f) := by
      intro hinside
      simp only [Arena.freed, hinside, and_self, if_true] at htail
      exact usizeMax_ne_zero p htail.symm
    have hold : a.slots slot = p.usizeMax := by simpa [Arena.freed, hout] using htail
    obtain ⟨j, hj, hlt, hle⟩ := h.tail slot hslot hold
    have hne : j ≠ f := by
      rintro rfl
      exact hout ⟨hlt.le, hle⟩
    have hself : Arena.freed a.slots f (a.slots f) j = a.slots j :=
      slots_freed_of_heads h hfirst hj hne ⟨le_rfl, by omega⟩
    exact ⟨j, (heads_freed h hfirst bytes j).mpr ⟨hne, hj⟩, hlt, by simpa only [hself] using hle⟩

end Releases

/-! ## Lookup -/

/-- The head of the run a slot is in. -/
theorem Sound.head_eq (h : Sound p a) (hfirst : a.Heads p f)
    (hin : f ≤ slot ∧ slot < f + a.slots f) : head p a.slots slot = some f := by
  induction slot with
  | zero =>
    obtain rfl : f = 0 := by omega
    exact if_neg hfirst.2.2
  | succ slot ih =>
    by_cases hsame : f = slot + 1
    · rw [head, if_neg (hsame ▸ hfirst.2.2), hsame]
    · rw [head, if_pos ((h.run f hfirst).2 (slot + 1) (by omega) hin.2)]
      exact ih (by omega)

/-- A slot in no run is its own head. -/
theorem head_of_free (hfree : a.slots slot = 0) : head p a.slots slot = some slot := by
  have hne : a.slots slot ≠ p.usizeMax := hfree ▸ (usizeMax_ne_zero p).symm
  cases slot with
  | zero | succ => exact if_neg hne

end Arena

end DotnetPal.Storage
