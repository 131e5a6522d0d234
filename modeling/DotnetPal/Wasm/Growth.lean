import DotnetPal.Wasm.GrowRuns

/-!
# When growing suffices

After growing, an allocation looks for a block a second time. The memory behind the last block has
the size and the alignment, and it is still refused if its record is the last one and the part that
is taken would leave a remainder on both sides.
-/

open List Option

namespace DotnetPal.Wasm

open Programs Spans
open DotnetPal.Span (weight)

variable {heap : Heap} {list : List Span} {size al pages start : ℕ}

/-- How far the end of the memory is from the next multiple of the alignment. -/
def Heap.padding (heap : Heap) (align : ℕ) : ℕ := (align - heap.top % align) % align

/-- Another record is free, or the pages join the last block, or the part that is taken is at one
end of the pages. -/
def Heap.Roomy (heap : Heap) (size align : ℕ) : Prop :=
  heap.list.length + 1 < maxFree ∨ (∃ last ∈ heap.list.getLast?, last.stop = heap.top) ∨ align ∣ heap.top ∨
    page ∣ heap.padding align + size

/-! ## The pages that are asked for -/

/-- The distance to the next multiple is what is missing to one. -/
theorem padding_of_next {v next : ℕ} (hv : v ≤ next) (hnext : next < v + al) (hdvd : al ∣ next) :
    next - v = (al - v % al) % al := by
  obtain ⟨distance, rfl⟩ := Nat.exists_eq_add_of_le hv
  have hpos : 0 < al := by omega
  have hless : v % al < al := Nat.mod_lt _ hpos
  have hsum : (v % al + distance) % al = 0 := by
    rw [Nat.mod_add_mod]
    exact Nat.mod_eq_zero_of_dvd hdvd
  rw [Nat.add_sub_cancel_left]
  by_cases hzero : v % al = 0
  · rw [hzero, Nat.zero_add, Nat.mod_eq_of_lt (by omega)] at hsum
    rw [hzero, hsum, Nat.sub_zero, Nat.mod_self]
  · rw [Nat.mod_eq_of_lt (by omega)]
    obtain ⟨factor, hfactor⟩ := Nat.dvd_of_mod_eq_zero hsum
    have hone : factor = 1 := by
      have hlow : 0 < factor := Nat.pos_of_ne_zero (by rintro rfl; omega)
      have hhigh : factor < 2 := by
        by_contra hmany
        have hle := Nat.mul_le_mul_left al (Nat.not_lt.mp hmany)
        omega
      omega
    rw [hone, Nat.mul_one] at hfactor
    omega

/-- The pages asked for hold the size from the next multiple of the alignment on, and end less than
a page behind it. -/
theorem wanted_spec (hbelow : heap.top < addresses) (halign : al.isPowerOfTwo)
    (h : heap.wanted size al = some pages) :
    ∃ start, alignUp heap.top al = some start ∧ start = heap.top + heap.padding al ∧
      heap.padding al + size ≤ pages * page ∧
      (pages * page = heap.padding al + size ↔ page ∣ heap.padding al + size) := by
  have hmin : min heap.top (addresses - 1) = heap.top := Nat.min_eq_left (Nat.le_sub_one_of_lt hbelow)
  simp only [Heap.wanted, hmin, bind_eq_bind, bind_eq_some_iff] at h
  obtain ⟨start, hstart, needed, hneeded, hpages⟩ := h
  obtain ⟨hle, hlt, hdvd, _⟩ := alignUp_eq_some halign hstart
  have hpadding : start - heap.top = heap.padding al := padding_of_next hle hlt hdvd
  obtain ⟨_, rfl⟩ := checkedAdd_eq_some_iff.mp hneeded
  split at hpages
  · simp at hpages
  · have hpages := some.inj hpages
    rw [hpadding] at hpages
    generalize heap.padding al + size = needed at hpages ⊢
    simp only [page] at hpages ⊢
    exact ⟨start, hstart, by omega, by omega, by omega⟩

/-! ## The second search -/

/-- The pages behind every block of the list join the last one or get a record of their own. -/
theorem insert_top (hs : heap.Sound) (h : insert heap.list heap.top size = some list) :
    (∃ init last, heap.list = init ++ [last] ∧ last.stop = heap.top ∧ list = init ++
      [⟨last.base, last.size + size⟩]) ∨
      (∀ last ∈ heap.list.getLast?, last.stop ≠ heap.top) ∧ list = heap.list ++ [⟨heap.top, size⟩] := by
  obtain ⟨old, new, hsplit, _, hnew, hinserted⟩ := insert_cases heap.list heap.top size
  obtain rfl : new = [] := by
    cases new with
    | nil => rfl
    | cons next rest =>
      -- A block behind the end would have a byte there.
      have hmem : next ∈ heap.list := by simp [hsplit]
      have hbase := hnew next rfl
      have hload : 0 < load heap.list next.base :=
        load_pos hmem ⟨le_rfl, Nat.lt_add_of_pos_right (hs.gapped.nonempty next hmem)⟩
      rw [hs.above next.base hbase.le] at hload
      exact absurd hload (lt_irrefl _)
  rw [append_nil] at hsplit
  subst hsplit
  rw [h] at hinserted
  generalize hresult : some list = result at hinserted
  cases hinserted with
  | both _ hnext => cases hnext
  | next hnext => cases hnext
  | full => cases hresult
  | previous hinit hstop => exact .inl ⟨_, _, hinit, hstop, some.inj hresult⟩
  | alone hlast => exact .inr ⟨hlast, some.inj hresult⟩

variable {n : ℕ}

variable {b : Span}

/-- With fewer records in use no fewer blocks fit. -/
theorem fit_of_more (hn : n ≠ maxFree) (h : fit (n + 1) size al b = some start) :
    fit n size al b = some start := by
  obtain ⟨halign, hbelow, hstop, _⟩ := fit_eq_some_iff.mp h
  exact fit_eq_some_iff.mpr ⟨halign, hbelow, hstop, fun hfull ↦ hn hfull.2.2⟩

/-- A block that has the bytes from the end of the memory on, and the pages that were asked for, has
the size behind a multiple of the alignment. -/
theorem fit_joined (hbelow : heap.top < addresses) (halign : al.isPowerOfTwo)
    (hwanted : heap.wanted size al = some pages) (hend : heap.top + pages * page < addresses) {last : Span}
    (hlast : last.stop = heap.top) (hn : n ≠ maxFree) :
    ∃ start, fit n size al ⟨last.base, last.size + pages * page⟩ = some start := by
  obtain ⟨next, hnext, rfl, hfits, _⟩ := wanted_spec hbelow halign hwanted
  obtain ⟨_, _, hdvd, _⟩ := alignUp_eq_some halign hnext
  have hbase : last.base ≤ heap.top := hlast ▸ Nat.le_add_right _ _
  have hmoved : last.base + (al - 1) < addresses := by
    obtain ⟨moved, hmoved, _⟩ := map_eq_some_iff.mp hnext
    have htop := (checkedAdd_eq_some_iff.mp hmoved).1
    omega
  obtain ⟨start, hstart⟩ := isSome_iff_exists.mp (alignUp_isSome hmoved)
  obtain ⟨_, _, _, hleast⟩ := alignUp_eq_some halign hstart
  have hle : start ≤ heap.top + heap.padding al := hleast _ (by omega) hdvd
  simp only [Span.stop] at hlast
  refine ⟨start, fit_eq_some_iff.mpr ⟨hstart, by omega, ?_, fun hfull ↦ hn hfull.2.2⟩⟩
  simp only [Span.stop]
  omega

/-- The pages alone fit unless they have the last record and would leave a remainder on both sides. -/
theorem fit_alone_iff (hbelow : heap.top < addresses) (halign : al.isPowerOfTwo)
    (hwanted : heap.wanted size al = some pages) (hend : heap.top + pages * page < addresses) :
    (∃ start, fit n size al ⟨heap.top, pages * page⟩ = some start) ↔
      n ≠ maxFree ∨ al ∣ heap.top ∨ page ∣ heap.padding al + size := by
  obtain ⟨next, hnext, rfl, hfits, hexact⟩ := wanted_spec hbelow halign hwanted
  obtain ⟨_, _, hdvd, hleast⟩ := alignUp_eq_some halign hnext
  have haligned : al ∣ heap.top ↔ heap.padding al = 0 := by
    constructor
    · intro htop
      have hle := hleast heap.top le_rfl htop
      omega
    · intro hzero
      rwa [hzero, Nat.add_zero] at hdvd
  rw [haligned, ← hexact]
  simp only [fit_eq_some_iff, hnext, Span.stop, some.injEq]
  constructor
  · rintro ⟨start, rfl, _, _, hroom⟩
    omega
  · intro hroom
    exact ⟨_, rfl, by omega, by omega, by omega⟩

/-- Whether a block of the grown list fits, if none did before. -/
theorem fits_grown_iff (hs : heap.Sound) (halign : al.isPowerOfTwo)
    (hwanted : heap.wanted size al = some pages) (hend : heap.top + pages * page < addresses)
    (hinsert : insert heap.list heap.top (pages * page) = some list)
    (hnone : ∀ b ∈ heap.list, fit heap.list.length size al b = none) :
    (∃ b ∈ list, ∃ start, fit list.length size al b = some start) ↔ heap.Roomy size al := by
  have hn := (Heap.wanted_eq_some hwanted).1
  have hrecords := hs.records
  rcases insert_top hs hinsert with ⟨init, last, hlist, hstop, rfl⟩ | ⟨hapart, rfl⟩
  · -- The pages joined the last block, and no record more is in use.
    have hlen : (init ++ [(⟨last.base, last.size + pages * page⟩ : Span)]).length =
      heap.list.length := by simp [hlist]
    refine iff_of_true ⟨_, mem_append_right _ (mem_singleton_self _), ?_⟩ (.inr (.inl ⟨last, ?_, hstop⟩))
    · exact fit_joined hs.below halign hwanted hend hstop (hlen ▸ hn)
    · simp [hlist]
  · have hlen : (heap.list ++ [(⟨heap.top, pages * page⟩ : Span)]).length = heap.list.length + 1 := by simp
    rw [hlen]
    have hpages : (∃ b ∈ heap.list ++ [(⟨heap.top, pages * page⟩ : Span)], ∃ start,
          fit (heap.list.length + 1) size al b = some start) ↔
        ∃ start, fit (heap.list.length + 1) size al ⟨heap.top, pages * page⟩ = some start := by
      constructor
      · rintro ⟨b, hblock, start, hstart⟩
        rcases mem_append.mp hblock with hold | hnew
        · have hfit := fit_of_more hn hstart
          rw [hnone b hold] at hfit
          exact absurd hfit nofun
        · exact ⟨start, mem_singleton.mp hnew ▸ hstart⟩
      · rintro ⟨start, hstart⟩
        exact ⟨_, mem_append_right _ (mem_singleton_self _), start, hstart⟩
    have hjoins : ¬∃ last ∈ heap.list.getLast?, last.stop = heap.top := fun ⟨last, hlast, hstop⟩ ↦
      hapart last hlast hstop
    rw [hpages, fit_alone_iff hs.below halign hwanted hend, Heap.Roomy]
    have hless : heap.list.length + 1 ≠ maxFree ↔ heap.list.length + 1 < maxFree := by omega
    rw [hless]
    simp only [hjoins, false_or]

/-- An allocation that has to grow takes a block of the grown memory, or has grown it for nothing. -/
theorem allocate_grown (hs : heap.Sound) (hsize : 0 < size) (halign : al.isPowerOfTwo)
    (hnone : take heap.list size al = .ok none) (hwanted : heap.wanted size al = some pages)
    (hend : heap.top + pages * page < addresses) :
    (heap.Roomy size al ∧ ∃ start left, allocate true size al heap =
      (.ok start, ⟨left, heap.pages + pages⟩) ∧
        al ∣ start ∧ ∀ byte, load heap.list byte + weight ⟨heap.top, pages * page⟩ byte =
          load left byte + weight ⟨start, size⟩ byte) ∨
      ¬heap.Roomy size al ∧ ∃ list, allocate true size al heap =
        (.error Error.os, ⟨list, heap.pages + pages⟩) := by
  have hvalid : ¬(size = 0 ∨ ¬al.isPowerOfTwo) := by
    rintro (hzero | hj)
    · omega
    · exact hj halign
  rcases grow_spec hs true size al with ⟨hrefused, _⟩ | ⟨asked, list, hasked, hgrow, hinsert, hadded⟩
  · simp [hwanted] at hrefused
  obtain rfl : pages = asked := some.inj (hwanted.symm.trans hasked)
  have hunfit : ∀ b ∈ heap.list, fit heap.list.length size al b = none := by
    rcases take_spec hs.gapped hs.records halign size with ⟨_, hunfit⟩ | ⟨_, _, _, _, _, htake, _⟩
    · exact hunfit
    · rw [hnone] at htake
      exact absurd htake nofun
  have hlen : list.length ≤ maxFree := by
    have hn := (Heap.wanted_eq_some hwanted).1
    have hrecords := hs.records
    have hle := hadded.length_le
    omega
  have hfits := fits_grown_iff hs halign hwanted hend hinsert hunfit
  unfold allocate
  rw [if_neg hvalid, hnone]
  simp only [hgrow]
  rcases take_spec hadded.gapped hlen halign size with
    ⟨htake, hagain⟩ | ⟨b, hblock, start, left, hstart, htake, hdvd, _, _, hleft⟩
  · refine .inr ⟨fun hroomy ↦ ?_, list, by rw [htake]⟩
    obtain ⟨b, hblock, start, hstart⟩ := hfits.mpr hroomy
    rw [hagain b hblock] at hstart
    exact absurd hstart nofun
  · refine .inl ⟨hfits.mp ⟨b, hblock, start, hstart⟩, start, left, by rw [htake], hdvd, fun byte ↦ ?_⟩
    rw [← hadded.load_eq, hleft]

/-! ## The last record -/

/-- A block behind all the others gets a record of its own behind theirs. -/
theorem insert_behind {base : ℕ} (hold : ∀ b ∈ list, b.stop < base) (hroom : list.length ≠ maxFree) :
    insert list base size = some (list ++ [⟨base, size⟩]) := by
  have hinserted : Inserted list [] base size (insert (list ++ []) base size) :=
    insert_split (fun b hblock ↦ (Nat.le_add_right _ _).trans (hold b hblock).le) (by simp)
  rw [append_nil] at hinserted
  generalize insert list base size = result at hinserted
  cases hinserted with
  | both _ hnext => cases hnext
  | next hnext => cases hnext
  | full hfull => exact absurd hfull (by rwa [append_nil])
  | previous hlist hstop => exact absurd hstop (hold _ (by simp [hlist])).ne
  | alone => rfl

theorem take_eq_none (h : ∀ b ∈ list, fit list.length size al b = none) : take list size al = .ok none := by
  have hindex : list.findIdx? (fun b ↦ (fit list.length size al b).isSome) = none :=
    findIdx?_eq_none_iff.mpr fun b hblock ↦ by rw [h b hblock]; rfl
  rw [take, hindex]

/-- First fit reaches the last block if no block before it fits. -/
theorem take_last {front left : List Span}
    (hfront : ∀ j ∈ front, fit (front.length + 1) size al j = none)
    (hfit : fit (front.length + 1) size al b = some start)
    (hleft : carve (front ++ [b]) front.length b start size = .ok left) :
    take (front ++ [b]) size al = .ok (some (start, left)) := by
  have hnone : front.findIdx? (fun b ↦ (fit (front.length + 1) size al b).isSome) = none :=
    findIdx?_eq_none_iff.mpr fun j hj ↦ by rw [hfront j hj]; rfl
  have hlen : (front ++ [b]).length = front.length + 1 := by simp
  have hindex : (front ++ [b]).findIdx? (fun b ↦ (fit (front.length + 1) size al b).isSome) =
      some front.length := by
    simp [findIdx?_append, hnone, hfit]
  have hget : (front ++ [b])[front.length]? = some b := by simp
  rw [take, hlen, hindex]
  simp only [hget, hfit, hleft]
  rfl

/-- Free bytes with a byte between any two. -/
def singles (count : ℕ) : List Span := (range count).map fun i ↦ ⟨65537 + 2 * i, 1⟩

@[simp]
theorem length_singles (n : ℕ) : (singles n).length = n := by simp [singles]

theorem singles_succ (n : ℕ) : singles (n + 1) = singles n ++ [⟨65537 + 2 * n, 1⟩] := by
  simp [singles, range_succ]

theorem mem_singles (h : b ∈ singles n) : ∃ i < n, b = ⟨65537 + 2 * i, 1⟩ := by
  obtain ⟨i, hindex, rfl⟩ := mem_map.mp h
  exact ⟨i, mem_range.mp hindex, rfl⟩

/-- The free bytes, and what is left of the page behind them. -/
def scattered (count : ℕ) : List Span := singles count ++ [⟨65537 + 2 * count, 65535 - 2 * count⟩]

theorem alignUp_odd {i : ℕ} (hindex : i < 512) : alignUp (65537 + 2 * i) 2 = some (65538 + 2 * i) := by
  have hfits : 65537 + 2 * i + (2 - 1) < addresses := by
    simp only [addresses]
    omega
  obtain ⟨start, hstart⟩ := isSome_iff_exists.mp (alignUp_isSome hfits)
  obtain ⟨_, _, _, _⟩ := alignUp_eq_some (by decide) hstart
  rw [hstart, some.injEq]
  omega

/-- One byte at an even address leaves the odd byte before it behind. -/
theorem take_scattered (hn : n < 511) :
    take (scattered n) 1 2 = .ok (some (65538 + 2 * n, scattered (n + 1))) := by
  have halign := alignUp_odd (hn.trans (by decide))
  refine take_last (fun j hj ↦ ?_) (fit_eq_some_iff.mpr ⟨halign, ?_, ?_, ?_⟩) ?_
  · obtain ⟨i, hindex, rfl⟩ := mem_singles hj
    rw [eq_none_iff_forall_ne_some]
    intro start hstart
    obtain ⟨hj, _, hstop, _⟩ := fit_eq_some_iff.mp hstart
    rw [alignUp_odd (by omega), some.injEq] at hj
    simp only [Span.stop] at hstop
    omega
  · simp only [addresses]
    omega
  · simp only [Span.stop]
    omega
  · simp only [length_singles, maxFree]
    omega
  · have hled : remainder (singles n) (65537 + 2 * n) (65538 + 2 * n - (65537 + 2 * n)) =
        .ok (singles (n + 1)) := by
      have hold : ∀ b ∈ singles n, b.stop < 65537 + 2 * n := by
        intro b hblock
        obtain ⟨i, hindex, rfl⟩ := mem_singles hblock
        simp only [Span.stop]
        omega
      rw [remainder, if_pos (by omega), insert_behind hold (by simp [maxFree]; omega), asserted,
        singles_succ, show 65538 + 2 * n - (65537 + 2 * n) = 1 by omega]
    have hbehind : ∀ b ∈ singles (n + 1), b.stop < 65538 + 2 * n + 1 := by
      intro b hblock
      obtain ⟨i, hindex, rfl⟩ := mem_singles hblock
      simp only [Span.stop]
      omega
    have htrail : remainder (singles (n + 1)) (65538 + 2 * n + 1)
        (65537 + 2 * n + (65535 - 2 * n) - (65538 + 2 * n + 1)) = .ok (scattered (n + 1)) := by
      rw [remainder, if_pos (by omega), insert_behind hbehind (by simp [maxFree]; omega), asserted,
        scattered,
        show 65537 + 2 * n + (65535 - 2 * n) - (65538 + 2 * n + 1) = 65535 - 2 * (n + 1) by omega,
        show 65538 + 2 * n + 1 = 65537 + 2 * (n + 1) by omega]
    rw [carve, eraseIdx_split, append_nil]
    simp only [Span.stop, hled]
    exact htrail

/-- The rest of the page leaves the free bytes alone. -/
theorem take_rest : take (scattered 511) 64513 1 = .ok (some (66559, singles 511)) := by
  refine take_last (fun j hj ↦ ?_) ?_ ?_
  · obtain ⟨i, hindex, rfl⟩ := mem_singles hj
    rw [eq_none_iff_forall_ne_some]
    intro start hstart
    obtain ⟨hj, _, hstop, _⟩ := fit_eq_some_iff.mp hstart
    have hbase := (alignUp_eq_some (by decide) hj).1
    simp only [Span.stop] at hstop hbase
    omega
  · rw [length_singles]
    decide
  · rw [carve, eraseIdx_split, append_nil]
    rfl

/-- An allocation that need not grow. -/
theorem reachable_allocate {r : Region} {left : List Span} (hreach : (Region.machine 1).runs.Reachable r)
    (hsize : 0 < size) (halign : al.isPowerOfTwo) (hbelow : r.heap.top < addresses)
    (htake : take r.heap.list size al = .ok (some (start, left))) :
    (Region.machine 1).runs.Reachable ⟨{ r.heap with list := left }, ⟨start, size⟩ :: r.live⟩ := by
  have hallocate : allocate false size al r.heap = (.ok start, { r.heap with list := left }) := by
    rw [allocate, if_neg (by rintro (h | h); exacts [by omega, h halign]), htake]
  refine hreach.of_step ⟨.allocate false size al, trivial, ?_⟩
  simp only [Region.machine, Region.next, hallocate]
  exact if_pos hbelow

theorem reachable_scattered (hn : n < 512) :
    ∃ live, (Region.machine 1).runs.Reachable ⟨⟨scattered n, 2⟩, live⟩ := by
  induction n with
  | zero =>
    have hrun : (Region.machine 1).run [.allocate true 1 2] (Region.machine 1).start =
      some ⟨⟨[⟨65537, 65535⟩], 2⟩, [⟨65536, 1⟩]⟩ := rfl
    exact ⟨_, Machine.reachable_of_run hrun⟩
  | succ n ih =>
    obtain ⟨live, hreach⟩ := ih (by omega)
    exact ⟨_, reachable_allocate hreach (by decide) (by decide)
      (show 2 * page < addresses by decide) (take_scattered (by omega))⟩

theorem reachable_singles : ∃ live, (Region.machine 1).runs.Reachable ⟨⟨singles 511, 2⟩, live⟩ := by
  obtain ⟨live, hreach⟩ := reachable_scattered (by decide : 511 < 512)
  exact ⟨_, reachable_allocate hreach (by decide) (by decide) (show 2 * page < addresses by decide)
    take_rest⟩

/-! ## Growth in every run -/

namespace Region

/-- Growing suffices exactly for a heap with room. -/
theorem growth_of_reachable {first : ℕ} {r : Region} (hfirst : first * page < addresses)
    (h : (machine first).runs.Reachable r) (hsize : 0 < size) (halign : al.isPowerOfTwo)
    (hnone : take r.heap.list size al = .ok none)
    (hwanted : r.heap.wanted size al = some pages) (hend : r.heap.top + pages * page < addresses) :
    (∃ start left, allocate true size al r.heap = (.ok start, ⟨left, r.heap.pages + pages⟩) ∧
      al ∣ start ∧ ∀ byte, load r.heap.list byte + weight ⟨r.heap.top, pages * page⟩ byte =
        load left byte + weight ⟨start, size⟩ byte) ↔ r.heap.Roomy size al := by
  have hsound := (sound_of_reachable hfirst h).heap
  rcases allocate_grown hsound hsize halign hnone hwanted hend with ⟨hroomy, hallocated⟩
    | ⟨hcramped, list, hrefused⟩
  · exact iff_of_true hallocated hroomy
  · refine iff_of_false ?_ hcramped
    rintro ⟨start, left, hallocated, _⟩
    rw [hrefused] at hallocated
    exact absurd hallocated nofun

/-- A page more than the free bytes at the end of the memory: the new page joins them, and what the
alignment leaves before the block stays free. -/
theorem growth_of_reachable_joined :
    allocate true 65536 4 ⟨[⟨65537, 65535⟩], 2⟩ = (.ok 65540, ⟨[⟨65537, 3⟩, ⟨131076, 65532⟩], 3⟩) ∧
      ∀ byte, load [⟨65537, 65535⟩] byte + weight ⟨131072, 65536⟩ byte =
        load [⟨65537, 3⟩, ⟨131076, 65532⟩] byte + weight ⟨65540, 65536⟩ byte := by
  have hrun : (machine 1).run [.allocate true 1 1] (machine 1).start =
    some ⟨⟨[⟨65537, 65535⟩], 2⟩, [⟨65536, 1⟩]⟩ := rfl
  have hdone : allocate true 65536 4 ⟨[⟨65537, 65535⟩], 2⟩ =
    (.ok 65540, ⟨[⟨65537, 3⟩, ⟨131076, 65532⟩], 3⟩) := rfl
  obtain ⟨start, left, hallocated, _, hload⟩ :=
    (growth_of_reachable (by decide) (Machine.reachable_of_run hrun)
    (by decide) ⟨2, rfl⟩ rfl (rfl : Heap.wanted ⟨[⟨65537, 65535⟩], 2⟩ 65536 4 = some 1)
      (by decide)).mpr (.inl (by decide))
  cases hdone.symm.trans hallocated
  exact ⟨hdone, hload⟩

/-- A byte with an alignment of 256 KiB is refused after growing if two pages have no room. -/
theorem refused_of_cramped (hs : Heap.Sound ⟨list, 2⟩) (hnone : take list 1 262144 = .ok none)
    (hwanted : Heap.wanted ⟨list, 2⟩ 1 262144 = some 3) (hcramped : ¬Heap.Roomy ⟨list, 2⟩ 1 262144) :
    ∃ final, allocate true 1 262144 ⟨list, 2⟩ = (.error Error.os, ⟨final, 5⟩) := by
  have hpower : Nat.isPowerOfTwo 262144 := ⟨18, rfl⟩
  have hend : 2 * page + 3 * page < addresses := by decide
  rcases allocate_grown hs Nat.one_pos hpower hnone hwanted hend with ⟨hroomy, _⟩ | ⟨_, hrefused⟩
  · exact absurd hroomy hcramped
  · exact hrefused

/-- With 511 single bytes free and the end of the memory in use, one byte with an alignment of
256 KiB has the memory grown by the three pages it asks for, and is then refused as an error
of the system. -/
theorem growth_for_nothing : ∃ live, (machine 1).runs.Reachable ⟨⟨singles 511, 2⟩, live⟩ ∧
    take (singles 511) 1 262144 = .ok none ∧ Heap.wanted ⟨singles 511, 2⟩ 1 262144 = some 3 ∧
    ∃ final, allocate true 1 262144 ⟨singles 511, 2⟩ = (.error Error.os, ⟨final, 5⟩) := by
  obtain ⟨live, hreach⟩ := reachable_singles
  have hnone : take (singles 511) 1 262144 = .ok none := by
    refine take_eq_none fun b hblock ↦ eq_none_iff_forall_ne_some.mpr fun start hstart ↦ ?_
    obtain ⟨i, hindex, rfl⟩ := mem_singles hblock
    obtain ⟨halign, _, hstop, _⟩ := fit_eq_some_iff.mp hstart
    obtain ⟨hbase, _, hdvd, _⟩ := alignUp_eq_some ⟨18, rfl⟩ halign
    simp only [Span.stop] at hstop hbase
    omega
  have hwanted : Heap.wanted ⟨singles 511, 2⟩ 1 262144 = some 3 := by
    simp only [Heap.wanted, length_singles]
    rfl
  have hcramped : ¬Heap.Roomy ⟨singles 511, 2⟩ 1 262144 := by
    rintro (hfew | ⟨last, hlast, hstop⟩ | haligned | hexact)
    · simp [maxFree] at hfew
    · have hmem := mem_of_getLast? (mem_def.mp hlast)
      dsimp only at hmem
      obtain ⟨i, hindex, rfl⟩ := mem_singles hmem
      simp only [Span.stop, Heap.top, page] at hstop
      omega
    · exact absurd haligned (show ¬262144 ∣ 2 * page by decide)
    · exact absurd hexact (show ¬page ∣ (262144 - 2 * page % 262144) % 262144 + 1 by decide)
  exact ⟨live, hreach, hnone, hwanted,
    refused_of_cramped (sound_of_reachable (by decide) hreach).heap hnone hwanted hcramped⟩

end Region

end DotnetPal.Wasm
