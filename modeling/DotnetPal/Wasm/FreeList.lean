import Mathlib.Data.List.TakeWhile
import DotnetPal.Foundations.Alignments
import DotnetPal.Wasm.Grow

/-!
# What the free list does

Inserting a block adds its bytes to a gapped list and keeps it gapped, and a block that is
taken leaves its bytes out of it. The assertions of the source hold because a record is free
wherever one is needed.
-/

open List Option

namespace DotnetPal.Wasm

open Spans
open DotnetPal.Span (weight weight_add weight_zero weight_extend weight_join)

/-! ## Alignment -/

theorem checkedAdd_eq_some_iff {a b sum : ℕ} :
    checkedAdd a b = some sum ↔ a + b < addresses ∧ sum = a + b := by
  unfold checkedAdd
  split
  · rename_i h
    simp [h, eq_comm]
  · rename_i h
    simp [h]

/-- The first multiple of the alignment from the value on. -/
theorem alignUp_eq_some {v align start : ℕ} (halign : align.isPowerOfTwo)
    (h : alignUp v align = some start) :
    v ≤ start ∧ start < v + align ∧ align ∣ start ∧ ∀ j, v ≤ j → align ∣ j → start ≤ j := by
  obtain ⟨exponent, rfl⟩ := halign
  obtain ⟨moved, hmoved, rfl⟩ := map_eq_some_iff.mp h
  obtain ⟨hfits, rfl⟩ := checkedAdd_eq_some_iff.mp hmoved
  have hpos : 0 < 2 ^ exponent := Nat.two_pow_pos _
  unfold addresses at hfits ⊢
  rw [Alignments.and_mask_eq hfits]
  obtain ⟨⟨hdvd, hle⟩, hleast⟩ := Alignments.isLeast_roundUp hpos
  exact ⟨hle, Alignments.roundUp_lt hpos, hdvd, fun j hj hmultiple ↦ hleast ⟨hmultiple, hj⟩⟩

theorem alignUp_isSome {v align : ℕ} (h : v + (align - 1) < addresses) : (alignUp v align).isSome := by
  simp [alignUp, checkedAdd, h]

/-! ## Inserting -/

variable {list before after : List Span} {base size : ℕ}

/-- The list in two parts around the address of a block, and what inserting the block makes of them. -/
inductive Inserted (before after : List Span) (base size : ℕ) : Option (List Span) → Prop
  | both {init rest : List Span} {previous next : Span} : before = init ++ [previous] → after = next :: rest →
      previous.stop = base → next.base = base + size →
      Inserted before after base size
        (some (init ++ ⟨previous.base, previous.size + (size + next.size)⟩ :: rest))
  | previous {init : List Span} {previous : Span} : before = init ++ [previous] → previous.stop = base →
      (∀ next ∈ after.head?, next.base ≠ base + size) →
      Inserted before after base size (some (init ++ ⟨previous.base, previous.size + size⟩ :: after))
  | next {rest : List Span} {next : Span} : after = next :: rest → next.base = base + size →
      (∀ previous ∈ before.getLast?, previous.stop ≠ base) →
      Inserted before after base size (some (before ++ ⟨base, next.size + size⟩ :: rest))
  | alone : (∀ previous ∈ before.getLast?, previous.stop ≠ base) →
      (∀ next ∈ after.head?, next.base ≠ base + size) → (before ++ after).length ≠ maxFree →
      Inserted before after base size (some (before ++ ⟨base, size⟩ :: after))
  | full : (before ++ after).length = maxFree → Inserted before after base size none

theorem findIdx_split (hold : ∀ c ∈ before, c.base ≤ base) (hnew : ∀ c ∈ after.head?, base < c.base) :
    (before ++ after).findIdx (fun c ↦ c.base > base) = before.length := by
  have hnone : before.findIdx (fun c ↦ c.base > base) = before.length := by
    rw [findIdx_eq_length]
    intro c hblock
    simpa using hold c hblock
  rw [findIdx_append, if_neg (by omega)]
  cases after with
  | nil => simp
  | cons next rest => simp [findIdx_cons, hnew next rfl]

theorem modify_split {α : Type} (front : List α) (middle : α) (rest : List α) (change : α → α) :
    (front ++ middle :: rest).modify front.length change = front ++ change middle :: rest := by
  induction front with
  | nil => rfl
  | cons _ front ih => simp [ih]

theorem insertIdx_split {α : Type} (front : List α) (middle : α) (rest : List α) :
    (front ++ rest).insertIdx front.length middle = front ++ middle :: rest := by
  induction front with
  | nil => rfl
  | cons _ front ih => simp [ih]

theorem eraseIdx_split {α : Type} (front : List α) (middle : α) (rest : List α) :
    (front ++ middle :: rest).eraseIdx front.length = front ++ rest := by
  induction front with
  | nil => rfl
  | cons _ front ih => simp [ih]

theorem merges_previous_iff :
    (0 < before.length ∧ (before ++ after)[before.length - 1]?.map Span.stop = some base) ↔
    ∃ init prev, before = init ++ [prev] ∧ prev.stop = base := by
  rcases eq_nil_or_concat before with rfl | ⟨init, prev, rfl⟩
  · simp
  · simp

theorem merges_next_iff {stop : ℕ} : after.head?.map Span.base = some stop ↔
    ∃ next rest, after = next :: rest ∧ next.base = stop := by
  cases after <;> simp

/-- What inserting does, in terms of the parts of the list before and behind the block. -/
theorem insert_split (hold : ∀ c ∈ before, c.base ≤ base) (hnew : ∀ c ∈ after.head?, base < c.base) :
    Inserted before after base size (insert (before ++ after) base size) := by
  have hnext : (before ++ after)[before.length]? = after.head? := by
    rw [getElem?_append_right le_rfl, Nat.sub_self, head?_eq_getElem?]
  unfold insert
  simp only [findIdx_split hold hnew, hnext]
  by_cases hprevious : 0 < before.length ∧ (before ++ after)[before.length - 1]?.map Span.stop = some base
  · rw [if_pos hprevious]
    obtain ⟨init, prev, rfl, hend⟩ := merges_previous_iff.mp hprevious
    have hlen : (init ++ [prev]).length = init.length + 1 := by simp
    rw [hlen, Nat.add_sub_cancel, append_assoc, singleton_append, modify_split, modify_split]
    by_cases hmerges : after.head?.map Span.base = some (base + size)
    · rw [if_pos hmerges]
      obtain ⟨next, rest, rfl, hstop⟩ := merges_next_iff.mp hmerges
      have herase := eraseIdx_split (init ++ [⟨prev.base, prev.size + (size + next.size)⟩]) next rest
      simp only [append_assoc, singleton_append, length_append, length_singleton] at herase
      rw [head?_cons, map_some, getD_some, herase]
      exact .both rfl rfl hend hstop
    · rw [if_neg hmerges]
      exact .previous rfl hend fun next hnext hstop ↦ hmerges (by rw [hnext, map_some, hstop])
  · rw [if_neg hprevious]
    have hapart : ∀ prev ∈ before.getLast?, prev.stop ≠ base := by
      intro prev hlast hstop
      obtain ⟨init, hold⟩ := getLast?_eq_some_iff.mp hlast
      exact hprevious (merges_previous_iff.mpr ⟨init, prev, hold, hstop⟩)
    by_cases hmerges : after.head?.map Span.base = some (base + size)
    · rw [if_pos hmerges]
      obtain ⟨next, rest, rfl, hstop⟩ := merges_next_iff.mp hmerges
      rw [modify_split]
      exact .next rfl hstop hapart
    · rw [if_neg hmerges]
      split
      · rename_i hfull
        exact .full hfull
      · rename_i hroom
        rw [insertIdx_split]
        exact .alone hapart (fun next hnext hstop ↦ hmerges (by rw [hnext, map_some, hstop])) hroom

theorem insert_cases (list : List Span) (base size : ℕ) :
    ∃ before after, list = before ++ after ∧ (∀ c ∈ before, c.base ≤ base) ∧
      (∀ c ∈ after.head?, base < c.base) ∧ Inserted before after base size (insert list base size) := by
  have hsplit := (takeWhile_append_dropWhile (p := fun c : Span ↦ decide (c.base ≤ base)) (l := list)).symm
  have hold : ∀ c ∈ list.takeWhile fun c ↦ decide (c.base ≤ base), c.base ≤ base := by
    intro c hblock
    simpa using mem_takeWhile_imp hblock
  have hnew : ∀ c ∈ (list.dropWhile fun c ↦ decide (c.base ≤ base)).head?, base < c.base := by
    intro c hblock
    rw [← find?_not_eq_head?_dropWhile] at hblock
    simpa using find?_some hblock
  refine ⟨_, _, hsplit, hold, hnew, ?_⟩
  have h : Inserted _ _ base size (insert (_ ++ _) base size) := insert_split hold hnew
  rwa [← hsplit] at h

/-- A list with the bytes of one more block, and with one more record at most, if there
is room for it. -/
structure Added (list : List Span) (block : Span) (final : List Span) : Prop where
  gapped : Gapped final
  load_eq : ∀ byte, load final byte = load list byte + block.weight byte
  length_le : final.length ≤ list.length ∨ list.length ≠ maxFree ∧ final.length = list.length + 1

/-- The block shares no byte with the list. -/
def Clear (list : List Span) (block : Span) : Prop := ∀ byte, block.Has byte → load list byte = 0

theorem Clear.stop_le (hclear : Clear list ⟨base, size⟩) (hsize : 0 < size) {c : Span} (hblock : c ∈ list)
    (hbase : c.base ≤ base) : c.stop ≤ base := by
  by_contra hstop
  have hpos : 0 < load list base := load_pos hblock ⟨hbase, Nat.not_le.mp hstop⟩
  rw [hclear base ⟨le_rfl, Nat.lt_add_of_pos_right hsize⟩] at hpos
  exact lt_irrefl _ hpos

theorem Clear.le_base (hclear : Clear list ⟨base, size⟩) {c : Span} (hblock : c ∈ list) (hsize : 0 < c.size)
    (hbase : base ≤ c.base) : base + size ≤ c.base := by
  by_contra hstop
  have hpos : 0 < load list c.base := load_pos hblock ⟨le_rfl, Nat.lt_add_of_pos_right hsize⟩
  rw [hclear c.base ⟨hbase, Nat.not_le.mp hstop⟩] at hpos
  exact lt_irrefl _ hpos

/-- Only the last block of a sorted list can end where another begins. -/
theorem stop_lt_of_last (hgapped : Gapped before) (hold : ∀ c ∈ before, c.stop ≤ base)
    (hlast : ∀ prev ∈ before.getLast?, prev.stop ≠ base) : ∀ c ∈ before, c.stop < base := by
  rcases eq_nil_or_concat' before with rfl | ⟨init, prev, rfl⟩
  · simp
  · have hprevious : prev.stop < base :=
      lt_of_le_of_ne (hold prev (by simp)) (hlast prev (by simp))
    intro c hblock
    rcases mem_append.mp hblock with hinit | hmem
    · have hless := (gapped_append.mp hgapped).2.2 c hinit prev (by simp)
      have hbase : prev.base ≤ prev.stop := Nat.le_add_right _ _
      omega
    · rwa [mem_singleton.mp hmem]

/-- Only the first block of a sorted list can begin where another ends. -/
theorem lt_base_of_head {stop : ℕ} (hgapped : Gapped after) (hnew : ∀ c ∈ after, stop ≤ c.base)
    (hhead : ∀ next ∈ after.head?, next.base ≠ stop) : ∀ c ∈ after, stop < c.base := by
  cases after with
  | nil => simp
  | cons next rest =>
    have hnext : stop < next.base := lt_of_le_of_ne (hnew next (by simp)) (hhead next rfl).symm
    intro c hblock
    rcases mem_cons.mp hblock with rfl | hmem
    · exact hnext
    · have hless := (gapped_cons.mp hgapped).2.2 c hmem
      have hbase : next.base ≤ next.stop := Nat.le_add_right _ _
      omega

/-- Inserting a block that shares no byte with a gapped list fails only if the list is full, and
otherwise adds the block. -/
theorem insert_spec (hgapped : Gapped list) (hsize : 0 < size) (hclear : Clear list ⟨base, size⟩) :
    insert list base size = none ∧ list.length = maxFree ∨
      ∃ final, insert list base size = some final ∧ Added list ⟨base, size⟩ final := by
  obtain ⟨before, after, rfl, hold, hnew, hinserted⟩ := insert_cases list base size
  obtain ⟨hfront, hback, hcross⟩ := gapped_append.mp hgapped
  have hleft : ∀ c ∈ before, c.stop ≤ base := fun c hblock ↦
    hclear.stop_le hsize (mem_append_left _ hblock) (hold c hblock)
  have hbehind : ∀ c ∈ after, base ≤ c.base := by
    cases after with
    | nil => simp
    | cons next rest =>
      intro c hblock
      have hnext := hnew next rfl
      rcases mem_cons.mp hblock with rfl | hmem
      · exact hnext.le
      · have hless := (gapped_cons.mp hback).2.2 c hmem
        have hbase : next.base ≤ next.stop := Nat.le_add_right _ _
        omega
  have hright : ∀ c ∈ after, base + size ≤ c.base := fun c hblock ↦
    hclear.le_base (mem_append_right _ hblock) (hback.nonempty c hblock) (hbehind c hblock)
  generalize insert (before ++ after) base size = result at hinserted
  cases hinserted with
  | full hfull => exact .inl ⟨rfl, hfull⟩
  | alone hprevious hnext hroom =>
    refine .inr ⟨_, rfl, ?_, fun byte ↦ ?_, ?_⟩
    · exact hfront.middle hback hsize (stop_lt_of_last hfront hleft hprevious)
        (lt_base_of_head hback hright hnext)
    · simp only [load_append, load_cons]
      omega
    · simp only [length_append, length_cons] at hroom ⊢
      omega
  | @previous init prev hsplit hend hnext =>
    subst hsplit
    obtain ⟨hinit, _, hless⟩ := gapped_append.mp hfront
    have hstop : prev.base + prev.size = base := hend
    refine .inr ⟨_, rfl, ?_, fun byte ↦ ?_, ?_⟩
    · refine hinit.middle hback (by simp only; omega) (fun a ha ↦ hless a ha prev (by simp)) ?_
      intro b hb
      have hlt := lt_base_of_head hback hright hnext b hb
      simp only [Span.stop]
      omega
    · simp only [load_append, load_cons, load_nil, weight_extend hend]
      omega
    · simp only [length_append, length_cons, length_nil]
      omega
  | @next rest next hsplit hbegin hprevious =>
    subst hsplit
    obtain ⟨_, hrest, hless⟩ := gapped_cons.mp hback
    refine .inr ⟨_, rfl, ?_, fun byte ↦ ?_, ?_⟩
    · refine hfront.middle hrest (by simp only; omega) (stop_lt_of_last hfront hleft hprevious) ?_
      intro b hb
      have hlt := hless b hb
      simp only [Span.stop] at hlt ⊢
      omega
    · rw [Nat.add_comm next.size size]
      simp only [load_append, load_cons, weight_join hbegin]
      omega
    · simp only [length_append, length_cons]
      omega
  | @both init rest prev next hsplit hsplit' hend hbegin =>
    subst hsplit hsplit'
    obtain ⟨hinit, _, hless⟩ := gapped_append.mp hfront
    obtain ⟨_, hrest, hmore⟩ := gapped_cons.mp hback
    have hstop : prev.base + prev.size = base := hend
    refine .inr ⟨_, rfl, ?_, fun byte ↦ ?_, ?_⟩
    · refine hinit.middle hrest (by simp only; omega) (fun a ha ↦ hless a ha prev (by simp)) ?_
      intro b hb
      have hlt := hmore b hb
      simp only [Span.stop] at hlt ⊢
      omega
    · simp only [load_append, load_cons, load_nil, weight_extend hend, weight_join hbegin]
      omega
    · simp only [length_append, length_cons, length_nil]
      omega

theorem asserted_insert (hgapped : Gapped list) (hsize : 0 < size) (hclear : Clear list ⟨base, size⟩)
    (hroom : list.length < maxFree) :
    ∃ final, asserted (insert list base size) = .ok final ∧ Added list ⟨base, size⟩ final := by
  rcases insert_spec hgapped hsize hclear with ⟨_, hfull⟩ | ⟨final, hfinal, hadded⟩
  · omega
  · exact ⟨final, by rw [hfinal]; rfl, hadded⟩

/-! ## Taking -/

variable {count align start i : ℕ} {c : Span}

/-- A block is taken at the first multiple of the alignment in it, if it has the size from there on
and a record is free for a second remainder. -/
theorem fit_eq_some_iff : fit count size align c = some start ↔
    alignUp c.base align = some start ∧ start + size < addresses ∧ start + size ≤ c.stop ∧
      ¬(start - c.base ≠ 0 ∧ c.stop - (start + size) ≠ 0 ∧ count = maxFree) := by
  unfold fit
  cases halign : alignUp c.base align with
  | none => simp
  | some a =>
    simp only [bind_eq_bind, bind_some, checkedAdd, some.injEq]
    split_ifs <;> simp <;> omega

/-- A block is what is before a part of it, the part and what is behind it. -/
theorem weight_cut (hbase : c.base ≤ start) (hstop : start + size ≤ c.stop) (byte : ℕ) :
    c.weight byte = weight ⟨c.base, start - c.base⟩ byte + weight ⟨start, size⟩ byte +
      weight ⟨start + size, c.stop - (start + size)⟩ byte := by
  have hsize : c.size = (start - c.base) + (size + (c.stop - (start + size))) := by
    simp only [Span.stop] at hstop ⊢
    omega
  calc c.weight byte
      = weight ⟨c.base, (start - c.base) + (size + (c.stop - (start + size)))⟩ byte := by rw [← hsize]
    _ = _ := by rw [weight_add, weight_add, Nat.add_sub_cancel' hbase, Nat.add_assoc]

/-- Inserting a remainder, if there is one, adds its bytes to the list. -/
theorem remainder_spec (hgapped : Gapped list) (hroom : size ≠ 0 → list.length < maxFree)
    (hclear : Clear list ⟨base, size⟩) :
    ∃ final, remainder list base size = .ok final ∧ Gapped final ∧
      (∀ byte, load final byte = load list byte + weight ⟨base, size⟩ byte) ∧
      final.length ≤ list.length + if size ≠ 0 then 1 else 0 := by
  by_cases hsize : size ≠ 0
  · obtain ⟨final, hfinal, hadded⟩ :=
      asserted_insert hgapped (Nat.pos_of_ne_zero hsize) hclear (hroom hsize)
    rw [remainder, if_pos hsize, if_pos hsize]
    exact ⟨final, hfinal, hadded.gapped, hadded.load_eq, by have hle := hadded.length_le; omega⟩
  · obtain rfl : size = 0 := Decidable.not_not.mp hsize
    exact ⟨list, rfl, hgapped, fun byte ↦ by rw [weight_zero, Nat.add_zero], le_rfl⟩

/-- Taking a part of a block of the list leaves the bytes of that part out of the list and needs no
record that is not free. -/
theorem carve_spec (hgapped : Gapped list) (hn : list.length ≤ maxFree) (hblock : list[i]? = some c)
    (hbase : c.base ≤ start) (hstop : start + size ≤ c.stop)
    (hroom : ¬(start - c.base ≠ 0 ∧ c.stop - (start + size) ≠ 0 ∧ list.length = maxFree)) :
    ∃ left, carve list i c start size = .ok left ∧ Gapped left ∧ left.length ≤ maxFree ∧
      ∀ byte, load list byte = load left byte + weight ⟨start, size⟩ byte := by
  obtain ⟨before, after, rfl, rfl⟩ : ∃ before after, list = before ++ c :: after ∧ i = before.length := by
    obtain ⟨hindex, hget⟩ := List.getElem?_eq_some_iff.mp hblock
    refine ⟨list.take i, list.drop (i + 1), ?_, (length_take_of_le hindex.le).symm⟩
    rw [← hget, cons_getElem_drop_succ, take_append_drop]
  have hcut := weight_cut hbase hstop
  -- Nothing else in the list has a byte of the block, and the parts of the block share none.
  have hj : ∀ byte, c.Has byte → load (before ++ after) byte = 0 := fun _ hbyte ↦ hgapped.load_erase hbyte
  have hlead : Clear (before ++ after) ⟨c.base, start - c.base⟩ := by
    intro byte hbyte
    refine hj byte ?_
    simp only [Span.Has, Span.stop] at hbyte hstop ⊢
    omega
  simp only [length_append, length_cons] at hn hroom
  obtain ⟨led, hled, hledGapped, hledLoad, hledLength⟩ := remainder_spec hgapped.erase
    (fun _ ↦ by simp only [length_append]; omega) hlead
  have htrail : Clear led ⟨start + size, c.stop - (start + size)⟩ := by
    intro byte hbyte
    simp only [Span.Has, Span.stop] at hbyte hstop
    rw [hledLoad, hj byte ⟨by omega, by simp only [Span.stop]; omega⟩, weight, if_neg]
    simp only [Span.Has, Span.stop]
    omega
  obtain ⟨left, hleft, hleftGapped, hleftLoad, hleftLength⟩ := remainder_spec hledGapped
    (fun _ ↦ by simp only [length_append] at hledLength; split at hledLength <;> omega) htrail
  refine ⟨left, ?_, hleftGapped, ?_, fun byte ↦ ?_⟩
  · unfold carve
    simp only [eraseIdx_split, hled]
    exact hleft
  · simp only [length_append] at hledLength
    split at hledLength <;> split at hleftLength <;> omega
  · have hsum := hcut byte
    rw [hleftLoad, hledLoad]
    simp only [load_append, load_cons]
    omega

/-- What first fit does: either no block fits, or a part of one that fits is taken out of the list. -/
theorem take_spec (hgapped : Gapped list) (hn : list.length ≤ maxFree) (halign : align.isPowerOfTwo)
    (size : ℕ) :
    take list size align = .ok none ∧ (∀ c ∈ list, fit list.length size align c = none) ∨
      ∃ c ∈ list, ∃ start left, fit list.length size align c = some start ∧
        take list size align = .ok (some (start, left)) ∧ align ∣ start ∧ Gapped left ∧
          left.length ≤ maxFree ∧
        ∀ byte, load list byte = load left byte + weight ⟨start, size⟩ byte := by
  unfold take
  cases hindex : list.findIdx? fun c ↦ (fit list.length size align c).isSome with
  | none =>
    refine .inl ⟨rfl, fun c hblock ↦ ?_⟩
    simpa using findIdx?_eq_none_iff.mp hindex c hblock
  | some i =>
    obtain ⟨hlt, hfits, _⟩ := findIdx?_eq_some_iff_getElem.mp hindex
    have hget : list[i]? = some list[i] := getElem?_eq_getElem hlt
    obtain ⟨start, hstart⟩ := isSome_iff_exists.mp hfits
    obtain ⟨hup, _, hstop, hroom⟩ := fit_eq_some_iff.mp hstart
    obtain ⟨hbase, _, hdvd, _⟩ := alignUp_eq_some halign hup
    obtain ⟨left, hleft, hleftGapped, hleftCount, hleftLoad⟩ := carve_spec hgapped hn hget hbase hstop hroom
    refine .inr ⟨_, getElem_mem hlt, start, left, hstart, ?_, hdvd, hleftGapped, hleftCount, hleftLoad⟩
    simp only [hget, hstart, hleft]
    rfl

end DotnetPal.Wasm
