import DotnetPal.Foundations.Machines
import DotnetPal.Storage.Arena

/-!
# The arena over whole histories

The arena's calls with the blocks it has handed out: each was returned by an allocation and not
released since. The slots are a partition into free ones and runs in every history, a run for each
block, so the answers of all three calls can be told from the blocks.
-/

open List

namespace DotnetPal.Storage

open Programs

/-- A block that was handed out. -/
structure Block where
  address : ℕ
  size : ℕ
  alignment : ℕ
  deriving DecidableEq

/-- The arena with the blocks that are out. -/
structure Stock where
  arena : Arena
  live : List Block

namespace Stock

inductive Call
  | allocate (size align : ℕ)
  | release (addr size : ℕ)
  | zero (addr size : ℕ)
  /-- A store of a holder of a block. -/
  | store (offset : ℕ) (value : UInt8)

def initial : Stock := ⟨Arena.initial, []⟩

def allocate (p : Place) (size align : ℕ) (stock : Stock) : Stock :=
  match stock.arena.allocate p size align with
  | (.ok addr, arena) => ⟨arena, ⟨addr, size, align⟩ :: stock.live⟩
  | (.error _, arena) => { stock with arena := arena }

def release (p : Place) (addr size : ℕ) (stock : Stock) : Stock :=
  match stock.arena.release p addr size with
  | (.ok _, arena) => ⟨arena, stock.live.filter fun block ↦ block.address ≠ addr⟩
  | (.error _, arena) => { stock with arena := arena }

def next (p : Place) : Call → Stock → Option Stock
  | .allocate size align, stock => some (stock.allocate p size align)
  | .release addr size, stock => some (stock.release p addr size)
  | .zero addr size, stock => some { stock with arena := (stock.arena.zero p addr size).2 }
  | .store offset value, stock =>
    some { stock with arena := { stock.arena with bytes := Function.update stock.arena.bytes offset value } }

def machine (p : Place) : Machine Stock Call := ⟨initial, next p⟩

/-- What an allocation may ask for. -/
structure Request (size align : ℕ) : Prop where
  positive : 0 < size
  multiple : granularity ∣ size
  power : ∃ exponent, align = 2 ^ exponent

def Call.Valid : Call → Stock → Prop
  | .allocate size align, _ => Request size align
  | _, _ => True

/-- The histories of calls with valid requests. -/
def histories (p : Place) : System Stock := (machine p).system Call.Valid

end Stock

/-! ## Slots that a call looks at -/

namespace Arena

/-- Where the slices end that a search takes of the slots. -/
def searchEnds (p : Place) (slots : ℕ → ℕ) (count align : ℕ) : ℕ → ℕ → List ℕ
  | 0, _ => []
  | turns + 1, first =>
    if first ≤ p.blocks - count then
      if p.address first &&& (align - 1) ≠ 0 then searchEnds p slots count align turns (first + 1)
      else (first + count) :: match occupied slots first count with
        | some i => searchEnds p slots count align turns (first + (i + 1))
        | none => []
    else []

/-- Where the slots end that the way back to a head looks at. -/
def headEnds (p : Place) (slots : ℕ → ℕ) : ℕ → List ℕ
  | 0 => [1]
  | slot + 1 => (slot + 2) :: if slots (slot + 1) = p.usizeMax then headEnds p slots slot else []

end Arena

/-- Where the slices of the slot array end that a call takes. -/
def Stock.Call.ends (p : Place) (arena : Arena) : Stock.Call → List ℕ
  | .allocate size align =>
    if size / granularity = 0 ∨ size / granularity > p.blocks then []
    else Arena.searchEnds p arena.slots (size / granularity) align (p.blocks + 1) 0
  | .release addr size =>
    if addr < p.base then []
    else if p.capacity ≤ addr - p.base ∨ (addr - p.base) % granularity ≠ 0 then []
    else
      let first := (addr - p.base) / granularity
      let count := arena.slots first
      (first + 1) ::
        if count = 0 ∨ count = p.usizeMax ∨ count ≠ size / granularity then [] else [first + count]
  | .zero addr size =>
    if addr < p.base then []
    else if p.usizeMax < addr - p.base + size then []
    else if size = 0 ∨ p.capacity < addr - p.base + size then []
    else Arena.headEnds p arena.slots ((addr - p.base) / granularity)
  | .store _ _ => []

namespace Stock

variable {p : Place} {stock : Stock} {arena : Arena}

/-! ## Blocks and runs -/

/-- A block is a run. -/
structure Block.Of (p : Place) (arena : Arena) (block : Block) (first : ℕ) : Prop where
  heads : arena.Heads p first
  address : block.address = p.address first
  size : block.size = arena.slots first * granularity

/-- The blocks that are out are the runs. -/
structure Kept (p : Place) (stock : Stock) : Prop where
  sound : Arena.Sound p stock.arena
  run : ∀ block ∈ stock.live, ∃ first, Block.Of p stock.arena block first
  block : ∀ first, stock.arena.Heads p first → ∃ block ∈ stock.live, block.address = p.address first
  aligned : ∀ block ∈ stock.live, block.alignment ∣ block.address
  apart : (stock.live.map Block.address).Nodup

theorem address_injective (p : Place) {a b : ℕ} (h : p.address a = p.address b) : a = b := by
  unfold Place.address at h
  exact Nat.eq_of_mul_eq_mul_right (by decide : 0 < granularity) (by omega)

theorem kept_initial (p : Place) : Kept p initial where
  sound := Arena.sound_initial p
  run := fun _ hblock ↦ (not_mem_nil hblock).elim
  block := fun _ hheads ↦ absurd rfl hheads.2.1
  aligned := fun _ hblock ↦ (not_mem_nil hblock).elim
  apart := nodup_nil

theorem Request.count_pos {size al : ℕ} (h : Request size al) : 0 < size / granularity :=
  Nat.div_pos (Nat.le_of_dvd h.positive h.multiple) (by decide)

theorem Request.aligned_iff {size al : ℕ} (h : Request size al) (addr : ℕ) :
    addr &&& (al - 1) = 0 ↔ al ∣ addr := by
  obtain ⟨exponent, rfl⟩ := h.power
  rw [Nat.and_two_pow_sub_one_eq_mod]
  exact Nat.dvd_iff_mod_eq_zero.symm

/-- A free and aligned run for a request. -/
def Free (p : Place) (arena : Arena) (size align first : ℕ) : Prop :=
  first + size / granularity ≤ p.blocks ∧ align ∣ p.address first ∧
    ∀ slot, first ≤ slot → slot < first + size / granularity → arena.slots slot = 0

/-- An allocation takes a free and aligned run, or there is none. -/
theorem allocate_cases (p : Place) {size al : ℕ} (h : Request size al) (arena : Arena) :
    (∃ a, Free p arena size al a ∧ arena.allocate p size al =
        (.ok (p.address a), ⟨Arena.claimed p arena.slots a (size / granularity),
          Arena.wiped arena.bytes (a * granularity) size⟩)) ∨
      (arena.allocate p size al = (.error .outOfMemory, arena) ∧ ∀ a, ¬Free p arena size al a) := by
  have hn := h.count_pos
  unfold Arena.allocate
  split
  · next hlarge =>
    refine .inr ⟨rfl, fun a ha ↦ ?_⟩
    have hin := ha.1
    omega
  · next hfits =>
    split
    · next a hx =>
      obtain ⟨hin, haligned, hfree⟩ := Arena.search_spec hx
      exact .inl ⟨a, ⟨by omega, (h.aligned_iff _).mp haligned, hfree⟩, rfl⟩
    · next hnone =>
      refine .inr ⟨rfl, fun a ha ↦ ?_⟩
      obtain ⟨hin, haligned, hfree⟩ := ha
      obtain ⟨x, _, hx⟩ : ∃ x ≤ a,
          Arena.search p arena.slots (size / granularity) al (p.blocks + 1) 0 = some x :=
        Arena.search_complete (by omega) (Nat.zero_le a) (by omega) ((h.aligned_iff _).mpr haligned) hfree
      cases hnone.symm.trans hx

theorem Kept.allocate (h : Kept p stock) {size al : ℕ} (hrequest : Request size al) :
    Kept p (stock.allocate p size al) := by
  unfold Stock.allocate
  rcases allocate_cases p hrequest stock.arena with ⟨a, ⟨hin, haligned, hfree⟩, hallocate⟩ | ⟨hrefused, _⟩
  · rw [hallocate]
    have hn := hrequest.count_pos
    have hheads := Arena.heads_claimed hn hin hfree (Arena.wiped stock.arena.bytes (a * granularity) size)
    refine ⟨h.sound.claimed hn hin hfree _, fun k hblock ↦ ?_, fun j hj ↦ ?_, fun k hblock ↦ ?_, ?_⟩
    · rcases mem_cons.mp hblock with rfl | hold
      · refine ⟨a, (hheads a).mpr (.inl rfl), rfl, ?_⟩
        simp only [Arena.claimed, if_true]
        exact (Nat.div_mul_cancel hrequest.multiple).symm
      · obtain ⟨j, hj, haddr, hsize⟩ := h.run k hold
        refine ⟨j, (hheads j).mpr (.inr hj), haddr, ?_⟩
        have hout : j < a ∨ a + size / granularity ≤ j := by
          by_contra hnot
          exact hj.2.1 (hfree j (by omega) (by omega))
        simp only [Arena.slots_claimed hout hn]
        exact hsize
    · rcases (hheads j).mp hj with rfl | hold
      · exact ⟨_, mem_cons_self, rfl⟩
      · obtain ⟨k, hblock, haddr⟩ := h.block j hold
        exact ⟨k, mem_cons_of_mem _ hblock, haddr⟩
    · rcases mem_cons.mp hblock with rfl | hold
      · exact haligned
      · exact h.aligned k hold
    · refine nodup_cons.mpr ⟨fun hmem ↦ ?_, h.apart⟩
      obtain ⟨k, hblock, haddr⟩ := mem_map.mp hmem
      obtain ⟨j, hj, hp, _⟩ := h.run k hblock
      obtain rfl := address_injective p (hp.symm.trans haddr)
      exact hj.2.1 (hfree j le_rfl (by omega))
  · rw [hrefused]
    exact h

/-- A release takes away a run of the given number of blocks that begins at the address, or
there is none. -/
theorem release_cases (p : Place) (arena : Arena) (addr size : ℕ) :
    (∃ x, arena.Heads p x ∧ addr = p.address x ∧ arena.slots x = size / granularity ∧
        arena.release p addr size =
          (.ok (), { arena with slots := Arena.freed arena.slots x (arena.slots x) })) ∨
      (arena.release p addr size = (.error .invalidArgument, arena) ∧
        ∀ x, arena.Heads p x → addr = p.address x → arena.slots x ≠ size / granularity) := by
  unfold Arena.release
  split_ifs with hlow houtside
  · refine .inr ⟨rfl, fun x _ haddr ↦ ?_⟩
    rw [haddr, Place.address] at hlow
    omega
  · refine .inr ⟨rfl, fun x hheads haddr ↦ ?_⟩
    have hoffset : addr - p.base = x * granularity := by
      rw [haddr, Place.address]
      omega
    rw [hoffset, Nat.mul_mod_left] at houtside
    rcases houtside with hbeyond | hskew
    · have hle : p.blocks ≤ x := Nat.le_of_mul_le_mul_right hbeyond (by decide)
      exact absurd hheads.1 (by omega)
    · exact absurd rfl hskew
  · simp only [not_or, not_not, Nat.not_le] at houtside
    set x := (addr - p.base) / granularity with ha
    have hoffset : x * granularity = addr - p.base := Nat.div_mul_cancel (Nat.dvd_of_mod_eq_zero houtside.2)
    have haddr : addr = p.address x := by
      rw [Place.address, hoffset]
      omega
    have hin : x < p.blocks := by
      refine Nat.lt_of_mul_lt_mul_right (a := granularity) ?_
      rw [hoffset]
      exact houtside.1
    simp only
    split_ifs with hrefused
    · refine .inr ⟨rfl, fun j hheads hj hn ↦ ?_⟩
      obtain rfl := address_injective p (haddr.symm.trans hj)
      rcases hrefused with hzero | htail | hsize
      · exact hheads.2.1 hzero
      · exact hheads.2.2 htail
      · exact hsize hn
    · simp only [not_or, not_not] at hrefused
      exact .inl ⟨x, ⟨hin, hrefused.1, hrefused.2.1⟩, haddr, hrefused.2.2, rfl⟩

theorem Kept.release (h : Kept p stock) (addr size : ℕ) : Kept p (stock.release p addr size) := by
  unfold Stock.release
  rcases release_cases p stock.arena addr size with ⟨a, ha, haddr, _, hrelease⟩ | ⟨hrefused, _⟩
  · rw [hrelease]
    have hheads := Arena.heads_freed h.sound ha stock.arena.bytes
    refine ⟨h.sound.freed ha _, fun k hblock ↦ ?_, fun j hj ↦ ?_, fun k hblock ↦ ?_, ?_⟩
    · obtain ⟨hmem, hne⟩ := mem_filter.mp hblock
      rw [decide_eq_true_eq] at hne
      obtain ⟨j, hj, hp, hsize⟩ := h.run k hmem
      have hdistinct : j ≠ a := by
        rintro rfl
        exact hne (hp.trans haddr.symm)
      refine ⟨j, (hheads j).mpr ⟨hdistinct, hj⟩, hp, ?_⟩
      have hslots : Arena.freed stock.arena.slots a (stock.arena.slots a) j = stock.arena.slots j :=
        Arena.slots_freed_of_heads h.sound ha hj hdistinct
          ⟨le_rfl, Nat.lt_add_of_pos_right (Nat.pos_of_ne_zero hj.2.1)⟩
      simp only [hslots]
      exact hsize
    · obtain ⟨hne, hold⟩ := (hheads j).mp hj
      obtain ⟨k, hblock, hp⟩ := h.block j hold
      refine ⟨k, mem_filter.mpr ⟨hblock, decide_eq_true fun heq ↦ hne ?_⟩, hp⟩
      exact address_injective p (hp.symm.trans (heq.trans haddr))
    · exact h.aligned k (mem_filter.mp hblock).1
    · exact h.apart.sublist (filter_sublist.map _)
  · rw [hrefused]
    exact h

/-- Bytes are not part of it. -/
theorem Kept.bytes (h : Kept p stock) (bytes : ℕ → UInt8) :
    Kept p { stock with arena := { stock.arena with bytes := bytes } } :=
  ⟨⟨h.sound.run, h.sound.tail⟩, fun k hblock ↦ by
    obtain ⟨a, hheads, haddr, hsize⟩ := h.run k hblock
    exact ⟨a, hheads, haddr, hsize⟩, h.block, h.aligned, h.apart⟩

/-- A slot is free or in a run. -/
theorem slot_cases (h : Arena.Sound p arena) {slot : ℕ} (hslot : slot < p.blocks) :
    arena.slots slot = 0 ∨ ∃ a, arena.Heads p a ∧ a ≤ slot ∧ slot < a + arena.slots a := by
  by_cases hfree : arena.slots slot = 0
  · exact .inl hfree
  · by_cases htail : arena.slots slot = p.usizeMax
    · obtain ⟨a, hheads, hlt, hend⟩ := h.tail slot hslot htail
      exact .inr ⟨a, hheads, hlt.le, hend⟩
    · exact .inr ⟨slot, ⟨hslot, hfree, htail⟩, le_rfl, Nat.lt_add_of_pos_right (Nat.pos_of_ne_zero hfree)⟩

theorem slots_ne_zero_of_run (h : Arena.Sound p arena) {a slot : ℕ} (hheads : arena.Heads p a)
    (hin : a ≤ slot ∧ slot < a + arena.slots a) : arena.slots slot ≠ 0 := by
  rcases Nat.lt_or_eq_of_le hin.1 with hlt | rfl
  · rw [(h.run a hheads).2 slot hlt hin.2]
    exact Arena.usizeMax_ne_zero p
  · exact hheads.2.1

/-- The bytes lie in a run. -/
def Within (p : Place) (arena : Arena) (addr size first : ℕ) : Prop :=
  arena.Heads p first ∧ p.address first ≤ addr ∧
    addr + size ≤ p.address first + arena.slots first * granularity

/-- Bytes that lie in a run lie in the run of their first slot, and in the array. -/
theorem Within.slot (h : Arena.Sound p arena) {addr size a : ℕ} (hwithin : Within p arena addr size a)
    (hsize : 0 < size) : p.base ≤ addr ∧ addr - p.base + size ≤ p.capacity ∧
      a ≤ (addr - p.base) / granularity ∧ (addr - p.base) / granularity < a + arena.slots a := by
  obtain ⟨hheads, hlow, hhigh⟩ := hwithin
  have hend := (h.run a hheads).1
  have hcapacity : (a + arena.slots a) * granularity ≤ p.capacity := Nat.mul_le_mul_right _ hend
  rw [Nat.add_mul] at hcapacity
  unfold Place.address at hlow hhigh
  refine ⟨by omega, by omega, (Nat.le_div_iff_mul_le (by decide)).mpr (by omega),
    (Nat.div_lt_iff_lt_mul (by decide)).mpr ?_⟩
  rw [Nat.add_mul]
  omega

/-- A wipe takes place inside one block, or the bytes are not inside one. -/
theorem zero_cases (h : Arena.Sound p arena) (addr size : ℕ) :
    (∃ bytes, arena.zero p addr size = (.ok (), { arena with bytes := bytes }) ∧ 0 < size ∧
        ∃ a, Within p arena addr size a) ∨
      (arena.zero p addr size = (.error .invalidArgument, arena) ∧
        (0 < size → ∀ a, ¬Within p arena addr size a)) := by
  unfold Arena.zero
  split_ifs with hlow hwrap houtside
  · refine .inr ⟨rfl, fun hsize a hwithin ↦ ?_⟩
    have hbase := (hwithin.slot h hsize).1
    omega
  · refine .inr ⟨rfl, fun hsize a hwithin ↦ ?_⟩
    have hcapacity := (hwithin.slot h hsize).2.1
    have hfits := p.fits
    unfold Place.usizeMax at hwrap
    unfold Place.capacity at hcapacity
    omega
  · refine .inr ⟨rfl, fun hsize a hwithin ↦ ?_⟩
    have hcapacity := (hwithin.slot h hsize).2.1
    omega
  · simp only [not_or, Nat.not_lt] at houtside
    have hslot : (addr - p.base) / granularity < p.blocks := by
      refine (Nat.div_lt_iff_lt_mul (by decide)).mpr ?_
      have hcapacity := houtside.2
      unfold Place.capacity at hcapacity
      omega
    have hbelow := Nat.div_mul_le_self (addr - p.base) granularity
    rcases slot_cases h hslot with hfree | ⟨a, hheads, hin⟩
    · rw [Arena.head_of_free hfree]
      simp only [hfree, true_or, if_true]
      refine .inr ⟨trivial, fun hsize a hwithin ↦ ?_⟩
      exact slots_ne_zero_of_run h hwithin.1 (hwithin.slot h hsize).2.2 hfree
    · rw [h.head_eq hheads hin]
      have hstart : a * granularity ≤ addr - p.base := (Nat.mul_le_mul_right _ hin.1).trans hbelow
      simp only
      split_ifs with hrefused
      · refine .inr ⟨rfl, fun hsize j hwithin ↦ ?_⟩
        obtain rfl := h.eq_of_overlap hheads hwithin.1 hin (hwithin.slot h hsize).2.2
        obtain ⟨_, hlow', hhigh⟩ := hwithin
        unfold Place.address at hhigh
        rw [Nat.add_mul] at hrefused
        rcases hrefused with hzero | hbeyond
        · exact hheads.2.1 hzero
        · omega
      · simp only [not_or, Nat.not_lt, Nat.add_mul] at hrefused
        refine .inl ⟨_, rfl, Nat.pos_of_ne_zero houtside.1, a, hheads, ?_, ?_⟩
        · unfold Place.address
          omega
        · unfold Place.address
          omega

variable (h : Kept p stock)
include h

theorem Kept.next {call : Call} (hvalid : call.Valid stock) {final : Stock}
    (hnext : next p call stock = some final) : Kept p final := by
  cases call with
  | allocate size al =>
    cases hnext
    exact h.allocate hvalid
  | release addr size =>
    cases hnext
    exact h.release addr size
  | zero addr size =>
    cases hnext
    rcases zero_cases h.sound addr size with ⟨bytes, hzero, _⟩ | ⟨hzero, _⟩
    · rw [hzero]
      exact h.bytes bytes
    · rw [hzero]
      exact h
  | store offset v =>
    cases hnext
    exact h.bytes _

omit h in
theorem kept_of_history (h : (histories p).Reachable stock) : Kept p stock := by
  refine Machine.invariant (kept_initial p) (fun call old final hvalid hkept hnext ↦ ?_) h
  exact hkept.next hvalid hnext

/-! ## Answers in terms of blocks -/

theorem Kept.exists_block {a : ℕ} (hheads : stock.arena.Heads p a) :
    ∃ k ∈ stock.live, Block.Of p stock.arena k a := by
  obtain ⟨k, hblock, haddr⟩ := h.block a hheads
  obtain ⟨j, hj, hp, hsize⟩ := h.run k hblock
  obtain rfl := address_injective p (haddr.symm.trans hp)
  exact ⟨k, hblock, hj, hp, hsize⟩

theorem Kept.pairwise : stock.live.Pairwise fun k j ↦
      k.address + k.size ≤ j.address ∨ j.address + j.size ≤ k.address := by
  have hne := pairwise_map.mp h.apart
  refine hne.imp_of_mem fun {k j} hblock hj haddresses ↦ ?_
  obtain ⟨a, hheads, haddr, hsize⟩ := h.run k hblock
  obtain ⟨b, hheads', haddress', hsize'⟩ := h.run j hj
  have hdistinct : a ≠ b := by
    rintro rfl
    exact haddresses (haddr.trans haddress'.symm)
  rw [haddr, haddress', hsize, hsize', Place.address, Place.address]
  have hapart : a + stock.arena.slots a ≤ b ∨ b + stock.arena.slots b ≤ a := by
    by_contra hnot
    rcases Nat.lt_or_gt_of_ne hdistinct with hlt | hgt
    · have hin : a ≤ b ∧ b < a + stock.arena.slots a := by omega
      exact hdistinct (h.sound.eq_of_overlap hheads hheads' hin
        ⟨le_rfl, Nat.lt_add_of_pos_right (Nat.pos_of_ne_zero hheads'.2.1)⟩)
    · have hin : b ≤ a ∧ a < b + stock.arena.slots b := by omega
      exact hdistinct (h.sound.eq_of_overlap hheads hheads'
        ⟨le_rfl, Nat.lt_add_of_pos_right (Nat.pos_of_ne_zero hheads.2.1)⟩ hin)
  rcases hapart with hle | hle
  · have hmul := Nat.mul_le_mul_right granularity hle
    rw [Nat.add_mul] at hmul
    omega
  · have hmul := Nat.mul_le_mul_right granularity hle
    rw [Nat.add_mul] at hmul
    omega

theorem Kept.release_iff (addr size : ℕ) : (stock.arena.release p addr size).1 = .ok () ↔
      ∃ k ∈ stock.live, k.address = addr ∧ k.size / granularity = size / granularity := by
  rcases release_cases p stock.arena addr size with ⟨a, hheads, haddr, hn, hrelease⟩ | ⟨hrefused, hnone⟩
  · rw [hrelease]
    refine ⟨fun _ ↦ ?_, fun _ ↦ rfl⟩
    obtain ⟨k, hblock, _, hp, hsize⟩ := h.exists_block hheads
    refine ⟨k, hblock, hp.trans haddr.symm, ?_⟩
    rw [hsize, Nat.mul_div_cancel _ (by decide), hn]
  · rw [hrefused]
    refine ⟨fun herror ↦ (nomatch herror), fun ⟨k, hblock, haddr, hsize⟩ ↦ ?_⟩
    obtain ⟨a, hheads, hp, hlen⟩ := h.run k hblock
    refine absurd ?_ (hnone a hheads (haddr.symm.trans hp))
    rw [← hsize, hlen, Nat.mul_div_cancel _ (by decide)]

theorem Kept.zero_iff (addr size : ℕ) : (stock.arena.zero p addr size).1 = .ok () ↔
      0 < size ∧ ∃ k ∈ stock.live, k.address ≤ addr ∧ addr + size ≤ k.address + k.size := by
  rcases zero_cases h.sound addr size with ⟨bytes, hzero, hsize, a, hheads, hlow, hhigh⟩ | ⟨hzero, hnone⟩
  · rw [hzero]
    refine ⟨fun _ ↦ ⟨hsize, ?_⟩, fun _ ↦ rfl⟩
    obtain ⟨k, hblock, _, hp, hlen⟩ := h.exists_block hheads
    exact ⟨k, hblock, by rw [hp]; exact hlow, by rw [hp, hlen]; exact hhigh⟩
  · rw [hzero]
    refine ⟨fun herror ↦ (nomatch herror), fun ⟨hsize, k, hblock, hlow, hhigh⟩ ↦ ?_⟩
    obtain ⟨a, hheads, hp, hlen⟩ := h.run k hblock
    rw [hp] at hlow
    rw [hp, hlen] at hhigh
    exact absurd ⟨hheads, hlow, hhigh⟩ (hnone hsize a)

theorem Kept.exists_unique_run {slot : ℕ} (hslot : slot < p.blocks) (hused : stock.arena.slots slot ≠ 0) :
    ∃! a, stock.arena.Heads p a ∧ a ≤ slot ∧ slot < a + stock.arena.slots a := by
  obtain ⟨a, hheads, hin⟩ := (slot_cases h.sound hslot).resolve_left hused
  exact ⟨a, ⟨hheads, hin⟩, fun j hj ↦ h.sound.eq_of_overlap hj.1 hheads hj.2 hin⟩

/-! ## Slots are looked up inside the array -/

omit h in
theorem searchEnds_le {slots : ℕ → ℕ} {n al turns start : ℕ} (hn : n ≤ p.blocks) :
    ∀ last ∈ Arena.searchEnds p slots n al turns start, last ≤ p.blocks := by
  induction turns generalizing start with
  | zero => exact fun _ hmem ↦ (not_mem_nil hmem).elim
  | succ turns ih =>
    intro last hlast
    rw [Arena.searchEnds] at hlast
    split_ifs at hlast with hin hskew
    · exact ih last hlast
    · rcases mem_cons.mp hlast with rfl | hlast
      · omega
      · split at hlast
        · exact ih last hlast
        · exact (not_mem_nil hlast).elim
    · exact (not_mem_nil hlast).elim

omit h in
theorem headEnds_le {slots : ℕ → ℕ} {slot : ℕ} (hslot : slot < p.blocks) :
    ∀ last ∈ Arena.headEnds p slots slot, last ≤ p.blocks := by
  induction slot with
  | zero =>
    intro last hlast
    rw [mem_singleton.mp hlast]
    exact hslot
  | succ slot ih =>
    intro last hlast
    rcases mem_cons.mp hlast with rfl | hlast
    · exact hslot
    · split at hlast
      · exact ih (by omega) last hlast
      · exact (not_mem_nil hlast).elim

theorem Kept.ends_le (call : Call) : ∀ last ∈ call.ends p stock.arena, last ≤ p.blocks := by
  intro last hlast
  cases call with
  | allocate size al =>
    simp only [Call.ends] at hlast
    split_ifs at hlast with hlarge
    · exact (not_mem_nil hlast).elim
    · exact searchEnds_le (by omega) last hlast
  | release addr size =>
    simp only [Call.ends] at hlast
    split_ifs at hlast with hlow houtside hrefused
    · exact (not_mem_nil hlast).elim
    · exact (not_mem_nil hlast).elim
    all_goals
      have hin : (addr - p.base) / granularity < p.blocks := by
        refine (Nat.div_lt_iff_lt_mul (by decide)).mpr ?_
        simp only [not_or, Nat.not_le] at houtside
        exact houtside.1
      rcases mem_cons.mp hlast with rfl | hlast
      · exact hin
    · exact (not_mem_nil hlast).elim
    · simp only [not_or] at hrefused
      rw [mem_singleton.mp hlast]
      exact (h.sound.run _ ⟨hin, hrefused.1, hrefused.2.1⟩).1
  | zero addr size =>
    simp only [Call.ends] at hlast
    split_ifs at hlast with hlow hwrap houtside
    · exact (not_mem_nil hlast).elim
    · exact (not_mem_nil hlast).elim
    · exact (not_mem_nil hlast).elim
    · refine headEnds_le ((Nat.div_lt_iff_lt_mul (by decide)).mpr ?_) last hlast
      simp only [not_or, Nat.not_lt] at houtside
      have hcapacity := houtside.2
      unfold Place.capacity at hcapacity
      omega
  | store offset v => exact (not_mem_nil hlast).elim

omit h

/-- In every history the slots are a partition into free ones and runs, the blocks that are out are
apart, aligned and in the arena, and the calls answer as the blocks say. -/
theorem blocks_of_history (h : (histories p).Reachable stock) :
    (∀ slot < p.blocks, stock.arena.slots slot ≠ 0 →
        ∃! x, stock.arena.Heads p x ∧ x ≤ slot ∧ slot < x + stock.arena.slots x) ∧
      (∀ x, stock.arena.Heads p x → x + stock.arena.slots x ≤ p.blocks ∧
        ∀ slot, x < slot → slot < x + stock.arena.slots x → stock.arena.slots slot = p.usizeMax) ∧
      (∀ k ∈ stock.live, p.base ≤ k.address ∧ k.address + k.size ≤ p.base + p.capacity ∧
        k.alignment ∣ k.address) ∧
      (stock.live.Pairwise fun k other ↦
        k.address + k.size ≤ other.address ∨ other.address + other.size ≤ k.address) ∧
      (∀ size al, Request size al → ((∃ error, (stock.arena.allocate p size al).1 = .error error) ↔
          ¬∃ x, Free p stock.arena size al x) ∧
        ∀ addr, (stock.arena.allocate p size al).1 = .ok addr →
          (∃ x, Free p stock.arena size al x ∧ addr = p.address x) ∧
          ∀ byte, addr ≤ p.base + byte → p.base + byte < addr + size →
            (stock.arena.allocate p size al).2.bytes byte = 0) ∧
      (∀ addr size, (stock.arena.release p addr size).1 = .ok () ↔
        ∃ k ∈ stock.live, k.address = addr ∧ k.size / granularity = size / granularity) ∧
      (∀ k ∈ stock.live, granularity ∣ k.size) ∧
      (∀ addr size, (stock.arena.zero p addr size).1 = .ok () ↔
        0 < size ∧ ∃ k ∈ stock.live, k.address ≤ addr ∧ addr + size ≤ k.address + k.size) ∧
      ∀ (call : Call), ∀ last ∈ call.ends p stock.arena, last ≤ p.blocks := by
  have hkept := kept_of_history h
  refine ⟨fun slot hslot hused ↦ hkept.exists_unique_run hslot hused, hkept.sound.run,
    fun k hblock ↦ ?_, hkept.pairwise,
    fun size al hrequest ↦ ⟨?_, fun addr hallocate ↦ ?_⟩, hkept.release_iff,
      fun k hblock ↦ ?_, hkept.zero_iff,
    hkept.ends_le⟩
  · obtain ⟨x, hheads, haddr, hsize⟩ := hkept.run k hblock
    have hend := Nat.mul_le_mul_right granularity (hkept.sound.run x hheads).1
    rw [Nat.add_mul] at hend
    rw [haddr, hsize, Place.address, Place.capacity]
    refine ⟨by omega, by omega, ?_⟩
    have haligned := hkept.aligned k hblock
    rwa [haddr, Place.address] at haligned
  · rcases allocate_cases p hrequest stock.arena with ⟨x, hfree, hallocate⟩ | ⟨hrefused, hnone⟩
    · rw [hallocate]
      exact ⟨fun ⟨error, herror⟩ ↦ (nomatch herror), fun hnone ↦ absurd ⟨x, hfree⟩ hnone⟩
    · rw [hrefused]
      exact ⟨fun _ ⟨x, hfree⟩ ↦ hnone x hfree, fun _ ↦ ⟨_, rfl⟩⟩
  · rcases allocate_cases p hrequest stock.arena with ⟨x, hfree, hrun⟩ | ⟨hrefused, _⟩
    · rw [hrun] at hallocate ⊢
      cases hallocate
      refine ⟨⟨x, hfree, rfl⟩, fun byte hlow hhigh ↦ ?_⟩
      unfold Place.address at hlow hhigh
      exact if_pos ⟨by omega, by omega⟩
    · rw [hrefused] at hallocate
      cases hallocate
  · obtain ⟨x, _, _, hsize⟩ := hkept.run k hblock
    exact ⟨stock.arena.slots x, by rw [hsize, Nat.mul_comm]⟩

/-! ## One block -/

def onePage : Stock := initial.allocate lowPlace 4096 8192

theorem reachable_onePage : (histories lowPlace).Reachable onePage :=
  .of_step (.of_start rfl) ⟨.allocate 4096 8192, ⟨by decide, by decide, 13, rfl⟩, rfl⟩

theorem blocks_of_history_onePage :
    (histories lowPlace).Reachable onePage ∧ onePage.live = [⟨65536, 4096, 8192⟩] ∧
    ((onePage.arena.zero lowPlace 65540 8).1 = .ok () ↔
      0 < 8 ∧ ∃ k ∈ onePage.live, k.address ≤ 65540 ∧ 65540 + 8 ≤ k.address + k.size) :=
  ⟨reachable_onePage, rfl, (blocks_of_history reachable_onePage).2.2.2.2.2.2.2.1 65540 8⟩

/-- A release of a byte more than the block has succeeds. -/
theorem long_release : (histories lowPlace).Reachable onePage ∧ onePage.live = [⟨65536, 4096, 8192⟩] ∧
    (onePage.arena.release lowPlace 65536 4097).1 = .ok () :=
  ⟨reachable_onePage, rfl, rfl⟩

end Stock

end DotnetPal.Storage
