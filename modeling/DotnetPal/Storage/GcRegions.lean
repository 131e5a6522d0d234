import DotnetPal.Storage.GcAdapter

/-!
# The adapter's table and the arena's slots

The table of regions and the runs of blocks in the arena are the same set, kept in two ways; the
boundary between them adds checks that never refuse what the adapter passes on, except where there
is no memory. That invariant decides every call.
-/

open List Option

namespace DotnetPal.Storage

open Programs

/-- A size in whole blocks. -/
def roundUp (size : ℕ) : ℕ := (size + (granularity - 1)) / granularity * granularity

/-- A run of blocks as a range of addresses. -/
def Arena.Live (p : Place) (arena : Arena) (r : Region) : Prop :=
  ∃ first, arena.Heads p first ∧ r = ⟨p.address first, arena.slots first * granularity⟩

section Geometry

variable {p : Place} {size : ℕ}

theorem roundUp_pos (h : 0 < size) : 0 < roundUp size := by
  unfold roundUp granularity
  omega

theorem le_roundUp (size : ℕ) : size ≤ roundUp size := by
  unfold roundUp granularity
  omega

theorem roundUp_mod (size : ℕ) : roundUp size % granularity = 0 := Nat.mul_mod_left ..

theorem roundUp_of_mod (h : size % granularity = 0) : roundUp size = size := by
  unfold roundUp granularity at *
  omega

theorem Place.base_mod (p : Place) : p.base % granularity = 0 := by
  have haligned := p.aligned
  unfold granularity
  omega

theorem Place.capacity_le (p : Place) : p.capacity ≤ 2 ^ 28 := by
  have hconfigured := p.configured
  simp only [mem_cons, not_mem_nil, or_false] at hconfigured
  unfold Place.capacity granularity
  omega

theorem Place.fits_usizeMax (p : Place) : p.base + p.capacity ≤ p.usizeMax := by
  have hfits := p.fits
  unfold Place.capacity Place.usizeMax
  omega

theorem Place.capacity_le_isizeMax (p : Place) : p.capacity ≤ p.isizeMax := by
  have hsmall := p.small
  unfold Place.capacity Place.isizeMax
  omega

theorem GcAdapter.rounded_eq (h : 0 < size) (hle : size ≤ p.usizeMax - (granularity - 1)) :
    GcAdapter.rounded p size = roundUp size := by
  rw [rounded, if_neg (by omega)]
  rfl

theorem GcAdapter.rounded_ne_zero (h : GcAdapter.rounded p size ≠ 0) :
    0 < size ∧ GcAdapter.rounded p size = roundUp size := by
  unfold rounded at h ⊢
  split_ifs at h ⊢ with hbad
  · exact absurd rfl h
  · exact ⟨by omega, rfl⟩

end Geometry

namespace GcAdapter

/-- The table has a region. -/
def Owns (gc : GcAdapter) (r : Region) : Prop := r ∈ gc.regions ∧ r.base ≠ 0

/-- A range of whole blocks is in one region. -/
def Inside (gc : GcAdapter) (addr size : ℕ) : Prop :=
  addr % granularity = 0 ∧ 0 < size ∧
    ∃ r, gc.Owns r ∧ r.base ≤ addr ∧ addr + roundUp size ≤ r.base + r.size

/-- The table and the slots agree, and the counter says how much they hold. -/
structure Consistent (p : Place) (gc : GcAdapter) : Prop where
  arena : Arena.Sound p gc.arena
  length : gc.regions.length = maxRegions
  table : ∀ r, gc.Owns r ↔ gc.arena.Live p r
  unique : ∀ (i j : ℕ) r, gc.regions[i]? = some r → gc.regions[j]? = some r → r.base ≠ 0 → i = j
  free : ∀ r ∈ gc.regions, r.base = 0 → r = Region.empty
  owned : gc.counters.ownedBytes = (gc.regions.map Region.size).sum

variable {p : Place} {gc : GcAdapter}

/-! ## Regions -/

variable {r : Region}

/-- A run lies in the array, on whole blocks. -/
theorem bounds_of_live {arena : Arena} (hs : Arena.Sound p arena) (h : arena.Live p r) :
    p.base ≤ r.base ∧ 0 < r.size ∧ r.base + r.size ≤ p.base + p.capacity ∧
      r.base % granularity = 0 ∧ r.size % granularity = 0 := by
  obtain ⟨x, ha, rfl⟩ := h
  have hend := (hs.run x ha).1
  have hpos := Nat.pos_of_ne_zero ha.2.1
  have hbase := p.base_mod
  unfold Place.address Place.capacity granularity at *
  dsimp only
  refine ⟨by omega, by omega, by omega, by omega, by omega⟩

variable (h : Consistent p gc)
include h

theorem Consistent.bounds (hregion : gc.Owns r) :
    p.base ≤ r.base ∧ 0 < r.size ∧ r.base + r.size ≤ p.base + p.capacity ∧
      r.base % granularity = 0 ∧ r.size % granularity = 0 :=
  bounds_of_live h.arena ((h.table r).mp hregion)

theorem Consistent.size_le (hregion : r ∈ gc.regions) : r.size ≤ p.capacity := by
  by_cases hbase : r.base = 0
  · rw [h.free r hregion hbase]
    exact Nat.zero_le _
  · have hbounds := h.bounds ⟨hregion, hbase⟩
    omega

/-- Far below what a `uint64_t` holds. -/
theorem Consistent.owned_le : (gc.regions.map Region.size).sum ≤ 2 ^ 36 := by
  have hsum := sum_le_card_nsmul (gc.regions.map Region.size) p.capacity fun size hsize ↦ by
    obtain ⟨r, hregion, rfl⟩ := mem_map.mp hsize
    exact h.size_le hregion
  rw [length_map, h.length] at hsum
  change _ ≤ maxRegions * p.capacity at hsum
  have hcapacity := p.capacity_le
  unfold maxRegions at hsum
  omega

theorem Consistent.size_le_owned (hregion : r ∈ gc.regions) : r.size ≤ gc.counters.ownedBytes := by
  rw [h.owned]
  exact single_le_sum (fun _ _ ↦ Nat.zero_le _) _ (mem_map_of_mem hregion)

/-- Two regions with an address in common are one. -/
theorem Consistent.eq_of_overlap {j : Region} (hregion : gc.Owns r)
    (hj : gc.Owns j) {addr : ℕ} (hin : r.base ≤ addr ∧ addr < r.base + r.size)
    (hinother : j.base ≤ addr ∧ addr < j.base + j.size) : r = j := by
  obtain ⟨x, ha, rfl⟩ := (h.table r).mp hregion
  obtain ⟨b, hb, rfl⟩ := (h.table j).mp hj
  have hslot : ∀ head, p.address head ≤ addr → addr < p.address head + gc.arena.slots head * granularity →
      head ≤ (addr - p.base) / granularity ∧ (addr - p.base) / granularity < head +
        gc.arena.slots head := by
    intro head hle hlt
    unfold Place.address granularity at *
    omega
  obtain rfl := h.arena.eq_of_overlap ha hb (hslot x hin.1 hin.2) (hslot b hinother.1 hinother.2)
  rfl

/-! ## Lookup -/

/-- The adapter finds exactly the ranges of whole blocks in a region. -/
theorem Consistent.find_iff (addr size slot : ℕ) : gc.find p addr (pageRange p addr size) = some slot ↔
      addr % granularity = 0 ∧ 0 < size ∧ pageRange p addr size = roundUp size ∧
        ∃ r, gc.regions[slot]? = some r ∧ r.base ≠ 0 ∧ r.base ≤ addr ∧
          addr + roundUp size ≤ r.base + r.size := by
  constructor
  · intro hfind
    unfold find at hfind
    split_ifs at hfind with hbad
    obtain ⟨hlt, hregion, _⟩ := findIdx?_eq_some_iff_getElem.mp hfind
    rw [decide_eq_true_eq] at hregion
    have hrange : pageRange p addr size ≠ 0 := fun hzero ↦ hbad (.inr (.inl hzero))
    have haligned : addr % granularity = 0 := by
      by_contra hskew
      exact hrange (if_pos (.inr hskew))
    have hpage : pageRange p addr size = rounded p size := if_neg (by omega)
    obtain ⟨hsize, hround⟩ := rounded_ne_zero (hpage ▸ hrange)
    refine ⟨haligned, hsize, hpage.trans hround, _, getElem?_eq_getElem hlt, hregion.1, hregion.2.1, ?_⟩
    rw [hpage, hround] at hregion
    omega
  · rintro ⟨haligned, hsize, hpage, r, hregion, hbase, hle, hend⟩
    have hmem := mem_of_getElem? hregion
    have hbounds := h.bounds ⟨hmem, hbase⟩
    have hpos := roundUp_pos hsize
    have hmax := p.fits_usizeMax
    obtain ⟨hlt, hget⟩ := List.getElem?_eq_some_iff.mp hregion
    have ha := p.base_pos
    rw [find, hpage, if_neg (by omega), findIdx?_eq_some_iff_getElem]
    refine ⟨hlt, by rw [hget, decide_eq_true_eq]; omega, fun j hj hother ↦ ?_⟩
    -- An earlier region with the range would be the same one.
    rw [decide_eq_true_eq] at hother
    have hsame : gc.regions[j] = r := by
      have hin : r.base ≤ addr ∧ addr < r.base + r.size := by omega
      exact h.eq_of_overlap ⟨getElem_mem _, hother.1⟩ ⟨hmem, hbase⟩ ⟨hother.2.1, by omega⟩ hin
    have hindex := h.unique j slot r (by rw [getElem?_eq_getElem (hj.trans hlt), hsame]) hregion hbase
    omega

theorem Consistent.pageRange_eq {addr size : ℕ} (hin : gc.Inside addr size) :
    pageRange p addr size = roundUp size := by
  obtain ⟨haligned, hsize, r, hregion, hle, hend⟩ := hin
  have hbounds := h.bounds hregion
  have hmax := p.fits_usizeMax
  have ha := p.base_pos
  have hbase := p.base_mod
  have hround := le_roundUp size
  rw [pageRange, if_neg (by omega)]
  refine rounded_eq hsize ?_
  unfold granularity at *
  omega

theorem Consistent.find_isSome_iff (addr size : ℕ) :
    (∃ slot, gc.find p addr (pageRange p addr size) = some slot) ↔ gc.Inside addr size := by
  constructor
  · rintro ⟨slot, hfind⟩
    obtain ⟨haligned, hsize, _, r, hregion, hbase, hle, hend⟩ := (h.find_iff addr size slot).mp hfind
    exact ⟨haligned, hsize, r, ⟨mem_of_getElem? hregion, hbase⟩, hle, hend⟩
  · intro hin
    obtain ⟨haligned, hsize, r, ⟨hmem, hbase⟩, hle, hend⟩ := id hin
    obtain ⟨slot, hslot⟩ := mem_iff_getElem?.mp hmem
    exact ⟨slot,
      (h.find_iff addr size slot).mpr ⟨haligned, hsize, h.pageRange_eq hin, r, hslot, hbase, hle, hend⟩⟩

theorem Consistent.find_eq_none_iff (addr size : ℕ) :
    gc.find p addr (pageRange p addr size) = none ↔ ¬ gc.Inside addr size := by
  rw [← h.find_isSome_iff, eq_none_iff_forall_ne_some, not_exists]

/-! ## What the boundary and the arena answer -/

/-- The arena zeroes what the adapter found. -/
theorem Consistent.zero_eq {addr size : ℕ} (hin : gc.Inside addr size) :
    LinearApi.zero p addr (roundUp size) gc.arena =
      (.ok (), { gc.arena with bytes := Arena.wiped gc.arena.bytes (addr - p.base) (roundUp size) }) := by
  obtain ⟨haligned, hsize, r, hregion, hle, hend⟩ := hin
  have hbounds := h.bounds hregion
  obtain ⟨x, ha, rfl⟩ := (h.table r).mp hregion
  have hmax := p.fits_usizeMax
  have hpos := p.base_pos
  have hround := roundUp_pos hsize
  have hhead : Arena.head p gc.arena.slots ((addr - p.base) / granularity) = some x := by
    refine h.arena.head_eq ha ?_
    unfold Place.address granularity at *
    dsimp only at *
    omega
  have hinside : ¬(gc.arena.slots x = 0 ∨
      (x + gc.arena.slots x) * granularity < addr - p.base + roundUp size) := by
    rintro (hzero | hout)
    · exact ha.2.1 hzero
    · unfold Place.address at *
      dsimp only at *
      rw [Nat.add_mul] at hout
      omega
  dsimp only at *
  rw [LinearApi.zero, if_neg (by omega), Arena.zero, if_neg (by omega), if_neg (by omega),
    if_neg (by omega), hhead]
  exact if_neg hinside

omit h in
theorem roundSize_eq {size : ℕ} (hpos : 0 < size) (hmod : size % granularity = 0)
    (hle : size ≤ p.capacity) :
    LinearApi.roundSize p size granularity = some size := by
  have hround : (size + (granularity - 1)) / granularity * granularity = size := roundUp_of_mod hmod
  have hmax := p.fits_usizeMax
  have hbase := p.base_pos
  have haligned := p.aligned
  have hpower : granularity.isPowerOfTwo := ⟨12, rfl⟩
  have hisize := p.capacity_le_isizeMax
  rw [LinearApi.roundSize, if_neg (by simp [hpos.ne', hpower]),
    if_neg (by unfold granularity; omega), hround, if_pos (by omega)]

/-- The arena releases a region of the table. -/
theorem Consistent.release_eq {x : ℕ} (ha : gc.arena.Heads p x) :
    LinearApi.release p (p.address x) (gc.arena.slots x * granularity) gc.arena =
      (.ok (), { gc.arena with slots := Arena.freed gc.arena.slots x (gc.arena.slots x) }) := by
  have hbounds := bounds_of_live h.arena ⟨x, ha, rfl⟩
  dsimp only at hbounds
  have hpos := p.base_pos
  have hoffset : p.address x - p.base = x * granularity := Nat.add_sub_cancel_left ..
  have hin : x * granularity < p.capacity := by
    unfold Place.address at hbounds
    omega
  have hslot : x * granularity / granularity = x := Nat.mul_div_cancel _ (by decide)
  have hn : gc.arena.slots x * granularity / granularity = gc.arena.slots x :=
    Nat.mul_div_cancel _ (by decide)
  have hmod : x * granularity % granularity = 0 := Nat.mul_mod_left ..
  rw [LinearApi.release, roundSize_eq hbounds.2.1 hbounds.2.2.2.2 (by omega)]
  simp only
  rw [if_neg (by omega), Arena.release, if_neg (by omega), hoffset, if_neg (by simp only [hmod]; omega)]
  simp only [hslot, hn]
  rw [if_neg (by simp [ha.2.1, ha.2.2])]

omit h

/-- What the boundary hands out: an aligned run of free blocks, zeroed. -/
theorem allocate_cases (p : Place) (arena : Arena) {size : ℕ} (hmod : size % granularity = 0) (align : ℕ) :
    (∃ error, LinearApi.allocate p size align 0 arena = (.error error, arena)) ∨
    ∃ x, LinearApi.allocate p size align 0 arena = (.ok (p.address x),
        ⟨Arena.claimed p arena.slots x (size / granularity),
          Arena.wiped arena.bytes (x * granularity) size⟩) ∧
      0 < size / granularity ∧ x + size / granularity ≤ p.blocks ∧
      (∀ slot, x ≤ slot → slot < x + size / granularity → arena.slots slot = 0) ∧
      (align ≠ 0 → p.address x % align = 0) := by
  rw [LinearApi.allocate, if_neg (by simp)]
  cases hgeometry : LinearApi.geometry p size align granularity with
  | none => exact .inl ⟨_, rfl⟩
  | some shape =>
    -- The size is in whole blocks already, and the alignment is a power of two.
    have hshape : shape = (size, max align granularity) ∧ (align = 0 ∨ align.isPowerOfTwo) := by
      unfold LinearApi.geometry at hgeometry
      split at hgeometry
      · cases hgeometry
      · next rounded hrounded =>
        unfold LinearApi.roundSize at hrounded
        split_ifs at hrounded hgeometry with _ _ _ _ _ hpower
        rw [show (size + (granularity - 1)) / granularity * granularity =
          size from roundUp_of_mod hmod] at hrounded
        cases hrounded
        cases hgeometry
        exact ⟨rfl, by tauto⟩
    obtain ⟨rfl, hpower⟩ := hshape
    have hbits : ∃ bits, max align granularity = 2 ^ bits := by
      rcases Nat.le_total align granularity with hle | hle
      · exact ⟨12, max_eq_right hle⟩
      · rw [max_eq_left hle]
        rcases hpower with rfl | ⟨bits, hbits⟩
        · cases hle
        · exact ⟨bits, hbits⟩
    obtain ⟨bits, hbits⟩ := hbits
    simp only [Arena.allocate]
    by_cases hn : size / granularity = 0 ∨ size / granularity > p.blocks
    · rw [if_pos hn]
      exact .inl ⟨_, rfl⟩
    · rw [if_neg hn]
      cases hsearch : Arena.search p arena.slots (size / granularity) (max align granularity)
        (p.blocks + 1) 0 with
      | none => exact .inl ⟨_, rfl⟩
      | some x =>
        obtain ⟨hin, haligned, hfree⟩ := Arena.search_spec hsearch
        rw [hbits, Nat.and_two_pow_sub_one_eq_mod, ← hbits] at haligned
        have hend : x + size / granularity ≤ p.blocks := by omega
        have hmax := p.fits_usizeMax
        have hpos := p.base_pos
        have hsize : size / granularity * granularity = size :=
          Nat.div_mul_cancel (Nat.dvd_of_mod_eq_zero hmod)
        have hfits : p.address x + size ≤ p.base + p.capacity := by
          rw [← hsize]
          unfold Place.address Place.capacity granularity at *
          omega
        have haddr : p.base ≤ p.address x := Nat.le_add_right ..
        have hgood : ¬(p.address x = 0 ∨ p.address x % max align granularity ≠ 0 ∨
            p.usizeMax < p.address x + size) := by
          rintro (hzero | hskew | hover)
          · omega
          · exact hskew haligned
          · omega
        refine .inr ⟨x, ?_, Nat.pos_of_ne_zero fun hzero ↦ hn (.inl hzero), hend, hfree, fun hne ↦ ?_⟩
        · simp only
          rw [if_neg hgood]
        · rcases hpower with hzero | ⟨own, hown⟩
          · exact absurd hzero hne
          · have hdvd : align ∣ max align granularity := by
              rw [hbits, hown]
              refine pow_dvd_pow 2 ((Nat.pow_le_pow_iff_right (a := 2) (by decide)).mp ?_)
              rw [← hbits, ← hown]
              exact le_max_left ..
            exact Nat.mod_eq_zero_of_dvd (hdvd.trans (Nat.dvd_of_mod_eq_zero haligned))

/-! ## What a call changes -/

/-- A new region is in an empty place of the table and in free slots. -/
structure Reserved (p : Place) (gc : GcAdapter) (size slot first : ℕ) (final : GcAdapter) : Prop where
  positive : 0 < size
  vacant : gc.regions[slot]? = some Region.empty
  regions : final.regions = gc.regions.set slot ⟨p.address first, roundUp size⟩
  slots : final.arena.slots = Arena.claimed p gc.arena.slots first (roundUp size / granularity)
  bytes : final.arena.bytes = Arena.wiped gc.arena.bytes (first * granularity) (roundUp size)
  owned : final.counters.ownedBytes = gc.counters.ownedBytes + roundUp size
  blocks : first + roundUp size / granularity ≤ p.blocks
  free : ∀ slot, first ≤ slot → slot < first + roundUp size / granularity → gc.arena.slots slot = 0

/-- A released region leaves the table and its slots. -/
structure Released (p : Place) (gc : GcAdapter) (addr size slot first : ℕ) (final : GcAdapter) : Prop where
  head : gc.arena.Heads p first
  region : (⟨addr, roundUp size⟩ : Region) = ⟨p.address first, gc.arena.slots first * granularity⟩
  held : gc.regions[slot]? = some ⟨addr, roundUp size⟩
  regions : final.regions = gc.regions.set slot Region.empty
  slots : final.arena.slots = Arena.freed gc.arena.slots first (gc.arena.slots first)
  bytes : final.arena.bytes = gc.arena.bytes
  owned : final.counters.ownedBytes + roundUp size = gc.counters.ownedBytes

theorem Consistent.reserve_cases (h : Consistent p gc) (size align : ℕ) (flags : UInt32) :
    gc.reserve p size align flags = (none, gc.failed) ∨
      ∃ slot x, (gc.reserve p size align flags).1 = some (p.address x) ∧
        Reserved p gc size slot x (gc.reserve p size align flags).2 ∧
        (align ≠ 0 → p.address x % align = 0) := by
  unfold reserve
  by_cases hbad : rounded p size = 0 ∨ flags ≠ 0
  · exact .inl (if_pos hbad)
  · obtain ⟨hsize, hround⟩ := rounded_ne_zero (not_or.mp hbad).1
    simp only [if_neg hbad]
    cases hslot : gc.regions.findIdx? (·.base = 0) with
    | none => exact .inl rfl
    | some slot =>
      obtain ⟨hlt, hempty, _⟩ := findIdx?_eq_some_iff_getElem.mp hslot
      have hget : gc.regions[slot]? = some Region.empty := by
        rw [getElem?_eq_getElem hlt, h.free _ (getElem_mem _) (by simpa using hempty)]
      rw [hround]
      rcases allocate_cases p gc.arena (roundUp_mod size) align with ⟨error, hfail⟩ |
        ⟨x, hallocate, hn, hin, hfree, haligned⟩
      · left
        simp only [hfail]
      · have haddr : p.address x ≠ 0 := by
          have hpos := p.base_pos
          unfold Place.address
          omega
        have howned : (gc.counters.ownedBytes + roundUp size) % 2 ^ 64 = gc.counters.ownedBytes +
          roundUp size := by
          have hle := h.owned_le
          rw [← h.owned] at hle
          have hcapacity := p.capacity_le
          have hsmall : roundUp size ≤ p.capacity := by
            rw [← Nat.div_mul_cancel (Nat.dvd_of_mod_eq_zero (roundUp_mod size))]
            exact Nat.mul_le_mul_right _ (by omega)
          exact Nat.mod_eq_of_lt (by omega)
        simp only [hallocate, if_neg haddr, howned]
        exact .inr ⟨slot, x, rfl, ⟨hsize, hget, rfl, rfl, rfl, rfl, hin, hfree⟩, haligned⟩

theorem Consistent.release_cases (h : Consistent p gc) (addr size : ℕ) :
    (gc.release p addr size = (false, gc.failed) ∧ ¬ (0 < size ∧ gc.Owns ⟨addr, roundUp size⟩)) ∨
      ((gc.release p addr size).1 = true ∧ 0 < size ∧
        ∃ slot x, Released p gc addr size slot x (gc.release p addr size).2) := by
  cases hfind : gc.find p addr (pageRange p addr size) with
  | none =>
    have hrefused : gc.release p addr size = (false, gc.failed) := by simp only [release, hfind]
    refine .inl ⟨hrefused, fun ⟨hsize, howns⟩ ↦ (h.find_eq_none_iff addr size).mp hfind ?_⟩
    exact ⟨(h.bounds howns).2.2.2.1, hsize, _, howns, le_rfl, le_rfl⟩
  | some slot =>
    obtain ⟨haligned, hsize, hpage, r, hregion, hbase, hle, hend⟩ := (h.find_iff addr size slot).mp hfind
    have hpos := roundUp_pos hsize
    rw [hpage] at hfind
    by_cases hwhole : gc.regions[slot]? = some ⟨addr, roundUp size⟩
    · obtain rfl := some.inj (hregion.symm.trans hwhole)
      have howns : gc.Owns ⟨addr, roundUp size⟩ := ⟨mem_of_getElem? hregion, hbase⟩
      obtain ⟨x, ha, heq⟩ := (h.table _).mp howns
      obtain ⟨rfl, hn⟩ := Region.mk.inj heq
      have hrelease := h.release_eq ha
      rw [← hn] at hrelease
      have hfits : roundUp size ≤ gc.counters.ownedBytes := h.size_le_owned howns.1
      have howned : (gc.counters.ownedBytes + (2 ^ 64 - roundUp size % 2 ^ 64)) % 2 ^ 64 + roundUp size =
          gc.counters.ownedBytes := by
        have hbound := h.owned_le
        rw [← h.owned] at hbound
        omega
      simp only [release, hpage, hfind, hwhole, ne_eq, not_true_eq_false, if_false, hrelease]
      exact .inr ⟨trivial, hsize, slot, x, ha, heq, hwhole, rfl, rfl, rfl, howned⟩
    · have hrefused : gc.release p addr size = (false, gc.failed) := by
        simp only [release, hpage, hfind, ne_eq, hwhole, not_false_eq_true, if_true]
      refine .inl ⟨hrefused, fun ⟨_, howns⟩ ↦ hwhole ?_⟩
      have hsame := h.eq_of_overlap ⟨mem_of_getElem? hregion, hbase⟩ howns
        (show r.base ≤ addr ∧ addr < r.base + r.size from ⟨hle, by omega⟩) ⟨le_rfl, by simpa using hpos⟩
      rw [hregion, hsame]

/-! ## The table -/

variable {final : GcAdapter}

/-- The table with one place changed. -/
theorem owns_set {slot : ℕ} {old new : Region} (hold : gc.regions[slot]? = some old)
    (hregions : final.regions = gc.regions.set slot new) (r : Region) :
    final.Owns r ↔ r.base ≠ 0 ∧ (r = new ∨ ∃ index, index ≠ slot ∧ gc.regions[index]? = some r) := by
  rw [Owns, hregions, and_comm]
  refine and_congr_right fun _ ↦ ?_
  rw [List.mem_iff_getElem?]
  have hlt := (List.getElem?_eq_some_iff.mp hold).1
  constructor
  · rintro ⟨index, hindex⟩
    rw [List.getElem?_set] at hindex
    split_ifs at hindex with hsame
    · exact .inl (some.inj hindex).symm
    · exact .inr ⟨index, Ne.symm hsame, hindex⟩
  · rintro (rfl | ⟨index, hne, hindex⟩)
    · exact ⟨slot, by rw [List.getElem?_set_self hlt]⟩
    · exact ⟨index, by rw [List.getElem?_set_ne hne.symm]; exact hindex⟩

section Reserved

variable {size slot x : ℕ} {final : GcAdapter}

variable (hreserved : Reserved p gc size slot x final)
include hreserved

theorem Reserved.owns_iff (r : Region) :
    final.Owns r ↔ r = ⟨p.address x, roundUp size⟩ ∨ gc.Owns r := by
  have hbase : p.address x ≠ 0 := by
    have hpos := p.base_pos
    unfold Place.address
    omega
  rw [owns_set hreserved.vacant hreserved.regions]
  constructor
  · rintro ⟨hne, rfl | ⟨index, _, hindex⟩⟩
    · exact .inl rfl
    · exact .inr ⟨mem_of_getElem? hindex, hne⟩
  · rintro (rfl | ⟨hmem, hne⟩)
    · exact ⟨hbase, .inl rfl⟩
    · obtain ⟨index, hindex⟩ := mem_iff_getElem?.mp hmem
      refine ⟨hne, .inr ⟨index, ?_, hindex⟩⟩
      rintro rfl
      rw [some.inj (hindex.symm.trans hreserved.vacant)] at hne
      exact hne rfl

theorem Reserved.count_pos : 0 < roundUp size / granularity := by
  have hpos := roundUp_pos hreserved.positive
  have hmod := roundUp_mod size
  unfold granularity at *
  omega

theorem Reserved.live_iff (r : Region) :
    final.arena.Live p r ↔ r = ⟨p.address x, roundUp size⟩ ∨ gc.arena.Live p r := by
  have hsize : roundUp size / granularity * granularity = roundUp size :=
    Nat.div_mul_cancel (Nat.dvd_of_mod_eq_zero (roundUp_mod size))
  have harena : final.arena =
    ⟨Arena.claimed p gc.arena.slots x (roundUp size / granularity), final.arena.bytes⟩ := by
    rw [← hreserved.slots]
  have hheads := Arena.heads_claimed hreserved.count_pos hreserved.blocks hreserved.free final.arena.bytes
  rw [← harena] at hheads
  have hself : final.arena.slots x = roundUp size / granularity := by simp [hreserved.slots, Arena.claimed]
  have hothers : ∀ j, gc.arena.Heads p j → final.arena.slots j = gc.arena.slots j := by
    intro j hj
    rw [hreserved.slots]
    refine Arena.slots_claimed ?_ hreserved.count_pos
    by_contra hin
    exact hj.2.1 (hreserved.free j (by omega) (by omega))
  constructor
  · rintro ⟨j, hj, rfl⟩
    rcases (hheads j).mp hj with rfl | hold
    · rw [hself, hsize]
      exact .inl rfl
    · exact .inr ⟨j, hold, by rw [hothers j hold]⟩
  · rintro (rfl | ⟨j, hj, rfl⟩)
    · exact ⟨x, (hheads x).mpr (.inl rfl), by rw [hself, hsize]⟩
    · exact ⟨j, (hheads j).mpr (.inr hj), by rw [hothers j hj]⟩

omit hreserved

/-- The region was not there before. -/
theorem Reserved.fresh (h : Consistent p gc) (hreserved : Reserved p gc size slot x final) :
    ¬ gc.Owns ⟨p.address x, roundUp size⟩ := by
  intro howns
  obtain ⟨j, hj, heq⟩ := (h.table _).mp howns
  have hsame : x = j := by
    have haddr := (Region.mk.inj heq).1
    unfold Place.address granularity at haddr
    omega
  subst hsame
  have hpos := hreserved.count_pos
  exact hj.2.1 (hreserved.free x le_rfl (by omega))

theorem Consistent.reserved (h : Consistent p gc) (hreserved : Reserved p gc size slot x final) :
    Consistent p final where
  arena := by
    have hs := h.arena.claimed hreserved.count_pos hreserved.blocks hreserved.free final.arena.bytes
    rwa [← hreserved.slots] at hs
  length := by rw [hreserved.regions, List.length_set, h.length]
  table := fun r ↦ by rw [hreserved.owns_iff, hreserved.live_iff, h.table]
  unique := by
    have hlt := (List.getElem?_eq_some_iff.mp hreserved.vacant).1
    intro i j r hi hj hbase
    rw [hreserved.regions, List.getElem?_set] at hi hj
    split_ifs at hi hj with hislot hjslot hjslot
    · exact hislot.symm.trans hjslot
    · exact absurd ⟨List.mem_of_getElem? hj, hbase⟩ (some.inj hi ▸ hreserved.fresh h)
    · exact absurd ⟨List.mem_of_getElem? hi, hbase⟩ (some.inj hj ▸ hreserved.fresh h)
    · exact h.unique i j r hi hj hbase
  free := by
    intro r hmem hbase
    rw [hreserved.regions] at hmem
    rcases List.mem_or_eq_of_mem_set hmem with hold | rfl
    · exact h.free r hold hbase
    · have hpos := p.base_pos
      have haddr : p.base + x * granularity = 0 := hbase
      omega
  owned := by
    have hsum := Ledger.sum_set gc.regions ⟨p.address x, roundUp size⟩ hreserved.vacant
    rw [hreserved.owned, h.owned, hreserved.regions]
    simpa [Region.empty] using hsum.symm

end Reserved

section Released

variable {addr size slot x : ℕ} {final : GcAdapter}

variable (h : Consistent p gc)
include h

theorem Released.owns_iff (hreleased : Released p gc addr size slot x final) (r : Region) :
    final.Owns r ↔ r ≠ ⟨addr, roundUp size⟩ ∧ gc.Owns r := by
  rw [owns_set hreleased.held hreleased.regions]
  constructor
  · rintro ⟨hne, rfl | ⟨index, hindex, hget⟩⟩
    · exact absurd rfl hne
    · refine ⟨fun heq ↦ hindex ?_, mem_of_getElem? hget, hne⟩
      exact h.unique index slot r hget (heq ▸ hreleased.held) hne
  · rintro ⟨hj, hmem, hne⟩
    obtain ⟨index, hindex⟩ := mem_iff_getElem?.mp hmem
    refine ⟨hne, .inr ⟨index, ?_, hindex⟩⟩
    rintro rfl
    exact hj (some.inj (hindex.symm.trans hreleased.held))

theorem Released.owns (hreleased : Released p gc addr size slot x final) :
    gc.Owns ⟨addr, roundUp size⟩ :=
  (h.table _).mpr ⟨x, hreleased.head, hreleased.region⟩

theorem Released.live_iff (hreleased : Released p gc addr size slot x final) (r : Region) :
    final.arena.Live p r ↔ r ≠ ⟨addr, roundUp size⟩ ∧ gc.arena.Live p r := by
  have harena : final.arena = ⟨Arena.freed gc.arena.slots x (gc.arena.slots x), final.arena.bytes⟩ := by
    rw [← hreleased.slots]
  have hheads := Arena.heads_freed h.arena hreleased.head final.arena.bytes
  rw [← harena] at hheads
  have hothers : ∀ j, j ≠ x → gc.arena.Heads p j → final.arena.slots j = gc.arena.slots j := by
    intro j hne hj
    rw [hreleased.slots]
    exact Arena.slots_freed_of_heads h.arena hreleased.head hj hne
      ⟨le_rfl, Nat.lt_add_of_pos_right (Nat.pos_of_ne_zero hj.2.1)⟩
  have haddr : ∀ j, j ≠ x → ∀ n, (⟨p.address j, n⟩ : Region) ≠ ⟨addr, roundUp size⟩ := by
    intro j hne n heq
    have hsame := (Region.mk.inj (heq.trans hreleased.region)).1
    unfold Place.address granularity at hsame
    omega
  constructor
  · rintro ⟨j, hj, rfl⟩
    obtain ⟨hne, hold⟩ := (hheads j).mp hj
    exact ⟨haddr j hne _, j, hold, by rw [hothers j hne hold]⟩
  · rintro ⟨hne, j, hj, rfl⟩
    have hother' : j ≠ x := by
      rintro rfl
      exact hne hreleased.region.symm
    exact ⟨j, (hheads j).mpr ⟨hother', hj⟩, by rw [hothers j hother' hj]⟩

theorem Consistent.released (hreleased : Released p gc addr size slot x final) :
    Consistent p final where
  arena := by
    have hs := Arena.Sound.freed h.arena hreleased.head final.arena.bytes
    rwa [← hreleased.slots] at hs
  length := by rw [hreleased.regions, length_set, h.length]
  table := fun r ↦ by rw [hreleased.owns_iff h, hreleased.live_iff h, h.table]
  unique := by
    intro i j r hi hj hbase
    rw [hreleased.regions, getElem?_set] at hi hj
    split_ifs at hi hj with hislot hjslot hjslot
    · exact hislot.symm.trans hjslot
    · exact absurd (some.inj hi ▸ rfl) hbase
    · exact absurd (some.inj hj ▸ rfl) hbase
    · exact h.unique i j r hi hj hbase
  free := by
    intro r hmem hbase
    rw [hreleased.regions] at hmem
    rcases mem_or_eq_of_mem_set hmem with hold | rfl
    · exact h.free r hold hbase
    · rfl
  owned := by
    have hsum := Ledger.sum_set gc.regions Region.empty hreleased.held
    have howned := hreleased.owned
    rw [hreleased.regions]
    rw [h.owned] at howned
    change _ + roundUp size = _ + 0 at hsum
    omega

end Released

/-! ## Runs -/

theorem consistent_initial (p : Place) : Consistent p initial := by
  have hempty : ∀ r ∈ initial.regions, r = Region.empty := fun r hmem ↦ eq_of_mem_replicate hmem
  refine ⟨Arena.sound_initial p, length_replicate, fun r ↦ ?_, fun i j r hi _ hbase ↦ ?_,
    fun r hmem _ ↦ hempty r hmem, ?_⟩
  · constructor
    · rintro ⟨hmem, hbase⟩
      exact absurd (congrArg Region.base (hempty r hmem)) hbase
    · rintro ⟨x, ha, _⟩
      exact absurd rfl ha.2.1
  · exact absurd (congrArg Region.base (hempty r (mem_of_getElem? hi))) hbase
  · simp [initial, Region.empty]

/-- Only counters of calls and bytes differ. -/
theorem Consistent.of_eq (h : Consistent p gc) (hregions : final.regions = gc.regions)
    (hslots : final.arena.slots = gc.arena.slots)
    (howned : final.counters.ownedBytes = gc.counters.ownedBytes) :
    Consistent p final where
  arena := ⟨by unfold Arena.Heads; rw [hslots]; exact h.arena.run,
    by unfold Arena.Heads; rw [hslots]; exact h.arena.tail⟩
  length := hregions ▸ h.length
  table := by
    unfold Owns Arena.Live Arena.Heads
    rw [hregions, hslots]
    exact h.table
  unique := hregions ▸ h.unique
  free := hregions ▸ h.free
  owned := by rw [howned, hregions, h.owned]

/-- The call was counted as a failure; nothing else changed. -/
def Unchanged (gc final : GcAdapter) : Prop :=
  final.regions = gc.regions ∧ final.counters.ownedBytes = gc.counters.ownedBytes ∧ final.arena = gc.arena

theorem unchanged_failed (gc : GcAdapter) : gc.Unchanged gc.failed := ⟨rfl, rfl, rfl⟩

theorem Consistent.commit_spec (h : Consistent p gc) (addr size : ℕ) :
    ((gc.commit p addr size).1 = true ↔ gc.Inside addr size) ∧ gc.Unchanged (gc.commit p addr size).2 := by
  cases hfind : gc.find p addr (pageRange p addr size) with
  | none =>
    simp only [commit, hfind]
    exact ⟨iff_of_false (by decide) ((h.find_eq_none_iff addr size).mp hfind), unchanged_failed gc⟩
  | some slot =>
    simp only [commit, hfind]
    exact ⟨iff_of_true trivial ((h.find_isSome_iff addr size).mp ⟨slot, hfind⟩), rfl, rfl, rfl⟩

/-- The bytes of the whole blocks of a range are zeroed. -/
structure Zeroed (p : Place) (gc : GcAdapter) (addr size : ℕ) (final : GcAdapter) : Prop where
  regions : final.regions = gc.regions
  owned : final.counters.ownedBytes = gc.counters.ownedBytes
  slots : final.arena.slots = gc.arena.slots
  bytes : final.arena.bytes = Arena.wiped gc.arena.bytes (addr - p.base) (roundUp size)

theorem Consistent.zero_cases (h : Consistent p gc) (addr size : ℕ) (reset : Bool) :
    ((gc.zero p addr size reset).1 = false ∧ ¬ gc.Inside addr size ∧
      gc.Unchanged (gc.zero p addr size reset).2) ∨
      ((gc.zero p addr size reset).1 = true ∧ gc.Inside addr size ∧
        Zeroed p gc addr size (gc.zero p addr size reset).2) := by
  cases hfind : gc.find p addr (pageRange p addr size) with
  | none =>
    simp only [zero, hfind]
    exact .inl ⟨trivial, (h.find_eq_none_iff addr size).mp hfind, unchanged_failed gc⟩
  | some slot =>
    have hin := (h.find_isSome_iff addr size).mp ⟨slot, hfind⟩
    have hpage := h.pageRange_eq hin
    rw [hpage] at hfind
    simp only [zero, hpage, hfind, h.zero_eq hin]
    exact .inr ⟨trivial, hin, rfl, by cases reset <;> rfl, rfl, rfl⟩

theorem Consistent.zeroed (h : Consistent p gc) (addr size : ℕ) (reset : Bool) :
    Consistent p (gc.zero p addr size reset).2 := by
  rcases h.zero_cases addr size reset with ⟨_, _, hregions, howned, harena⟩ | ⟨_, _, hzeroed⟩
  · exact h.of_eq hregions (congrArg Arena.slots harena) howned
  · exact h.of_eq hzeroed.regions hzeroed.slots hzeroed.owned

theorem Consistent.next (h : Consistent p gc) {action : Action}
    (hnext : next p action gc = some final) : Consistent p final := by
  cases action with
  | reserve size align flags =>
    obtain rfl := (some.inj hnext).symm
    rcases h.reserve_cases size align flags with hfail | ⟨slot, x, _, hreserved, _⟩
    · rw [hfail]
      exact h.of_eq rfl rfl rfl
    · exact h.reserved hreserved
  | commit addr size =>
    obtain rfl := (some.inj hnext).symm
    obtain ⟨hregions, howned, harena⟩ := (h.commit_spec addr size).2
    exact h.of_eq hregions (congrArg Arena.slots harena) howned
  | decommit addr size =>
    obtain rfl := (some.inj hnext).symm
    exact h.zeroed addr size false
  | reset addr size =>
    obtain rfl := (some.inj hnext).symm
    exact h.zeroed addr size true
  | release addr size =>
    obtain rfl := (some.inj hnext).symm
    rcases h.release_cases addr size with ⟨hfail, _⟩ | ⟨_, _, slot, x, hreleased⟩
    · rw [hfail]
      exact h.of_eq rfl rfl rfl
    · exact h.released hreleased
  | store offset v =>
    obtain rfl := (some.inj hnext).symm
    exact h.of_eq rfl rfl rfl

theorem consistent_of_reachable (hreach : (machine p).runs.Reachable gc) : Consistent p gc :=
  Machine.invariant (consistent_initial p) (fun _ _ _ _ h hnext ↦ h.next hnext) hreach

/-! ## The refinement -/

/-- What a reservation gives: zeroed memory of the rounded size, aligned, that was not
the collector's. -/
structure Given (p : Place) (gc : GcAdapter) (size align addr : ℕ) (final : GcAdapter) : Prop where
  positive : 0 < size
  page : addr % granularity = 0
  aligned : align ≠ 0 → addr % align = 0
  fresh : ¬ gc.Owns ⟨addr, roundUp size⟩
  owns : ∀ r, final.Owns r ↔ r = ⟨addr, roundUp size⟩ ∨ gc.Owns r
  owned : final.counters.ownedBytes = gc.counters.ownedBytes + roundUp size
  bytes : final.arena.bytes = Arena.wiped gc.arena.bytes (addr - p.base) (roundUp size)

/-- What a release takes: one whole region. -/
structure Taken (gc : GcAdapter) (addr size : ℕ) (final : GcAdapter) : Prop where
  owns : ∀ r, final.Owns r ↔ r ≠ ⟨addr, roundUp size⟩ ∧ gc.Owns r
  owned : final.counters.ownedBytes + roundUp size = gc.counters.ownedBytes
  bytes : final.arena.bytes = gc.arena.bytes

/-- The adapter is linear storage: its table is the set of live runs of the arena, and each call
does what it is for or changes nothing but the counters of calls. -/
structure Refines (p : Place) (gc : GcAdapter) : Prop where
  table : ∀ r, gc.Owns r ↔ gc.arena.Live p r
  length : gc.regions.length = 256
  once : ∀ (i j : ℕ) r, gc.regions[i]? = some r → gc.regions[j]? = some r → r.base ≠ 0 → i = j
  owned : gc.counters.ownedBytes = (gc.regions.map Region.size).sum
  reserve : ∀ size align flags,
    ((gc.reserve p size align flags).1 = none → gc.Unchanged (gc.reserve p size align flags).2) ∧
    ∀ addr, (gc.reserve p size align flags).1 = some addr →
      Given p gc size align addr (gc.reserve p size align flags).2
  commit : ∀ addr size, ((gc.commit p addr size).1 = true ↔ gc.Inside addr size) ∧
    gc.Unchanged (gc.commit p addr size).2
  zero : ∀ addr size, ∀ call ∈ [gc.decommit p addr size, gc.reset p addr size],
    (call.1 = true ↔ gc.Inside addr size) ∧ (call.1 = true → Zeroed p gc addr size call.2) ∧
      (call.1 = false → gc.Unchanged call.2)
  release : ∀ addr size, ((gc.release p addr size).1 = true ↔ 0 < size ∧ gc.Owns ⟨addr, roundUp size⟩) ∧
    ((gc.release p addr size).1 = true → Taken gc addr size (gc.release p addr size).2) ∧
    ((gc.release p addr size).1 = false → gc.Unchanged (gc.release p addr size).2)
  /-- What the adapter looked up and passes on, the boundary and the arena accept. -/
  agrees : ∀ addr size slot, gc.find p addr (pageRange p addr size) = some slot →
    (LinearApi.zero p addr (pageRange p addr size) gc.arena).1 = .ok () ∧
    (gc.regions[slot]? = some ⟨addr, pageRange p addr size⟩ →
      (LinearApi.release p addr (pageRange p addr size) gc.arena).1 = .ok ())

/-- In every state of a run, whatever the arguments of its calls were. -/
theorem refines_of_reachable (hreach : (machine p).runs.Reachable gc) : Refines p gc := by
  have h := consistent_of_reachable hreach
  refine ⟨h.table, h.length, h.unique, h.owned, fun size align flags ↦ ?reserve, h.commit_spec,
    fun addr size call hcall ↦ ?zero, fun addr size ↦ ?release, fun addr size slot hfind ↦ ?agrees⟩
  case reserve =>
    rcases h.reserve_cases size align flags with hfail | ⟨slot, x, haddr, hreserved, haligned⟩
    · rw [hfail]
      exact ⟨fun _ ↦ unchanged_failed gc, fun addr heq ↦ by cases heq⟩
    · refine ⟨fun hnone ↦ (by rw [haddr] at hnone; cases hnone), fun addr heq ↦ ?_⟩
      obtain rfl := some.inj (haddr.symm.trans heq)
      have hoffset : p.address x - p.base = x * granularity := Nat.add_sub_cancel_left ..
      have hpage : p.address x % granularity = 0 := by
        have hbase := p.base_mod
        unfold Place.address granularity at *
        omega
      exact ⟨hreserved.positive, hpage, haligned, hreserved.fresh h, hreserved.owns_iff, hreserved.owned,
        hoffset ▸ hreserved.bytes⟩
  case zero =>
    obtain ⟨reset, rfl⟩ : ∃ reset, call = gc.zero p addr size reset := by
      rcases mem_pair.mp hcall with rfl | rfl
      · exact ⟨false, rfl⟩
      · exact ⟨true, rfl⟩
    rcases h.zero_cases addr size reset with ⟨hfalse, hout, hsame⟩ | ⟨htrue, hin, hzeroed⟩
    · rw [hfalse]
      exact ⟨iff_of_false (by decide) hout, (fun heq ↦ by cases heq), fun _ ↦ hsame⟩
    · rw [htrue]
      exact ⟨iff_of_true rfl hin, fun _ ↦ hzeroed, fun heq ↦ by cases heq⟩
  case release =>
    rcases h.release_cases addr size with ⟨hfail, hnot⟩ | ⟨htrue, hsize, slot, x, hreleased⟩
    · rw [hfail]
      exact ⟨iff_of_false Bool.false_ne_true hnot, (fun heq ↦ by cases heq), fun _ ↦ unchanged_failed gc⟩
    · rw [htrue]
      exact ⟨iff_of_true rfl ⟨hsize, hreleased.owns h⟩,
        fun _ ↦ ⟨hreleased.owns_iff h, hreleased.owned, hreleased.bytes⟩, fun heq ↦ by cases heq⟩
  case agrees =>
    have hin := (h.find_isSome_iff addr size).mp ⟨slot, hfind⟩
    obtain ⟨_, _, hpage, r, hregion, hbase, _⟩ := (h.find_iff addr size slot).mp hfind
    rw [hpage, h.zero_eq hin]
    refine ⟨rfl, fun hwhole ↦ ?_⟩
    obtain rfl := some.inj (hregion.symm.trans hwhole)
    obtain ⟨x, hfirst, heq⟩ := (h.table _).mp ⟨mem_of_getElem? hregion, hbase⟩
    obtain ⟨rfl, hcount⟩ := Region.mk.inj heq
    rw [hcount, h.release_eq hfirst]

/-- A region of two blocks is reserved; it is released as a whole. -/
theorem refines_of_reachable_reserved :
    ∃ gc, (machine lowPlace).runs.Reachable gc ∧ gc.Owns ⟨65536, 8192⟩ ∧
      (gc.release lowPlace 65536 5000).1 = true := by
  have hstart : (machine lowPlace).runs.Reachable initial := System.Reachable.of_start rfl
  have hrun :=
    Machine.reachable_of_run (show (machine lowPlace).run [.reserve 5000 0 0] initial = some _ from rfl)
  have hgiven := ((refines_of_reachable hstart).reserve 5000 0 0).2 65536 (by decide)
  have howns := (hgiven.owns ⟨65536, 8192⟩).mpr (.inl rfl)
  exact ⟨_, hrun, howns, ((refines_of_reachable hrun).release 65536 5000).1.mpr ⟨by decide, howns⟩⟩

end GcAdapter

end DotnetPal.Storage
