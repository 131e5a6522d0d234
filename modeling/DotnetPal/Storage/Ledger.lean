import Mathlib.Algebra.Order.BigOperators.Group.List
import DotnetPal.Port

/-!
# The storage ledger

`Ledger` hands out blocks of a backing it does not trust. It records what it handed out in a fixed
table and checks every address the backing gives it against the table, so that disjointness and the
budget rest on its own checks. The calls below run under the ledger's lock, one at a time.

Machine words are numbers up to `usizeMax`; a sum above it, a difference below zero and a division by
zero are panics, which are proved unreachable.
-/

open List Function

namespace DotnetPal.Storage

open Programs

structure Region where
  base : ℕ
  size : ℕ
  deriving DecidableEq

namespace Region

def empty : Region := ⟨0, 0⟩

/-- Two ranges have no byte in common. -/
def Apart (left right : Region) : Prop :=
  left.base + left.size ≤ right.base ∨ right.base + right.size ≤ left.base

end Region

def maxRegions : ℕ := 4096

/-- What the target fixes: the budget and the largest address. -/
structure Target where
  capacity : ℕ
  usizeMax : ℕ
  capacity_le : capacity ≤ usizeMax

structure Ledger where
  regions : List Region
  owned : ℕ

namespace Ledger

/-- What the backing answers in one call. -/
structure Backing where
  allocate : Except Error ℕ
  release : Except Error Unit

abbrev Op := EStateM Fault Ledger

def initial : Ledger := ⟨replicate maxRegions Region.empty, 0⟩

def normalize : Error → Error
  | .invalidArgument => .invalidArgument
  | .os => .os
  | .outOfMemory => .outOfMemory
  | _ => .os

/-- The backing's answer, with the errors a caller may see. -/
def answered {α : Type} : Except Error α → Result α
  | .ok value => .ok value
  | .error error => .error (normalize error : Fault)

def minus (whole part : ℕ) : Result ℕ := if part ≤ whole then .ok (whole - part) else .error .panic

def plus (target : Target) (left right : ℕ) : Result ℕ :=
  if left + right ≤ target.usizeMax then .ok (left + right) else .error .panic

def remainder (addr align : ℕ) : Result ℕ :=
  if align = 0 then .error .panic else .ok (addr % align)

/-- Whether a region in use passes the test; the first one that does ends the search. -/
def anyInUse (test : Region → Result Bool) : List Region → Result Bool
  | [] => .ok false
  | r :: rest =>
    if r.size = 0 then anyInUse test rest
    else do if ← test r then return true else anyInUse test rest

/-- A byte from `base` up to `stop` is in the region. -/
def meets (target : Target) (base stop : ℕ) (r : Region) : Result Bool := do
  let last ← plus target r.base r.size
  return decide (base < last ∧ r.base < stop)

/-- All bytes from `base` up to `stop` are in the region. -/
def covers (target : Target) (base stop : ℕ) (r : Region) : Result Bool :=
  if r.base ≤ base then do
    let last ← plus target r.base r.size
    return decide (stop ≤ last)
  else return false

def record (index : ℕ) (r : Region) (owned : ℕ) (w : Ledger) : Ledger :=
  { regions := w.regions.set index r, owned := owned }

def allocate (target : Target) (backing : Backing) (size align : ℕ) : Op ℕ := do
  refuseIf (size = 0) (Error.outOfMemory : Fault)
  let room ← reading fun w ↦ minus target.capacity w.owned
  refuseIf (size > room) (Error.outOfMemory : Fault)
  let index ← reading fun w ↦ Result.required (w.regions.findIdx? (·.size = 0)) Error.outOfMemory
  let base ← reading fun _ ↦ answered backing.allocate
  refuseIf (base + size > target.usizeMax) (Error.os : Fault)
  refuseIf (base = 0) (Error.os : Fault)
  let rest ← reading fun _ ↦ remainder base align
  refuseIf (rest ≠ 0) (Error.os : Fault)
  -- A broken provider returned someone else's storage. Never free or overwrite it.
  let taken ← reading fun w ↦ anyInUse (meets target base (base + size)) w.regions
  refuseIf (taken = true) (Error.os : Fault)
  let owned ← reading fun w ↦ plus target w.owned size
  modify (record index ⟨base, size⟩ owned)
  return base

def release (backing : Backing) (addr size : ℕ) : Op Unit := do
  let index ← reading fun w ↦ Result.required
    (w.regions.findIdx? fun r ↦ r.size ≠ 0 ∧ r.base = addr ∧ r.size = size) Error.invalidArgument
  reading fun _ ↦ answered backing.release
  let owned ← reading fun w ↦ minus w.owned size
  modify (record index Region.empty owned)

def zero (target : Target) (addr size : ℕ) : Op Unit := do
  refuseIf (addr + size > target.usizeMax) (Error.invalidArgument : Fault)
  refuseIf (addr = 0 ∨ size = 0) (Error.invalidArgument : Fault)
  let inside ← reading fun w ↦ anyInUse (covers target addr (addr + size)) w.regions
  refuseIf (inside = false) (Error.invalidArgument : Fault)

inductive Call
  | allocate (size align : ℕ)
  | release (addr size : ℕ)
  | zero (addr size : ℕ)

/-- The address of a new block, where there is one. -/
def exec (target : Target) (backing : Backing) : Call → Op (Option ℕ)
  | .allocate size align => some <$> allocate target backing size align
  | .release addr size => (fun _ ↦ none) <$> release backing addr size
  | .zero addr size => (fun _ ↦ none) <$> zero target addr size

/-- Alignments are powers of two. -/
def Call.Aligned : Call → Prop
  | .allocate _ align => ∃ bits, align = 2 ^ bits
  | _ => True

/-! ## What holds between calls -/

/-- The regions in use, with the alignment each was asked for. -/
structure Sound (target : Target) (asked : Region → ℕ) (w : Ledger) : Prop where
  length : w.regions.length = maxRegions
  apart : ∀ (i j : ℕ) (left right : Region), i ≠ j → w.regions[i]? = some left → w.regions[j]? = some right →
    left.size ≠ 0 → right.size ≠ 0 → left.Apart right
  base_pos : ∀ r ∈ w.regions, r.size ≠ 0 → 0 < r.base
  aligned : ∀ r ∈ w.regions, r.size ≠ 0 → asked r ∣ r.base
  inside : ∀ r ∈ w.regions, r.size ≠ 0 → r.base + r.size ≤ target.usizeMax
  owned_eq : w.owned = (w.regions.map Region.size).sum
  owned_le : w.owned ≤ target.capacity

/-- The ledger and the alignments that were asked for the regions in it. -/
def audited (target : Target) : System (Ledger × (Region → ℕ)) where
  start pair := pair.1 = initial
  step before next := ∃ backing call, call.Aligned ∧ next.1 = after (exec target backing call) before.1 ∧
    match call, exec target backing call before.1 with
    | .allocate size align, .ok (some base) _ => next.2 = update before.2 ⟨base, size⟩ align
    | _, _ => next.2 = before.2

/-! ## The calls -/

section Calls

variable {z : Target} {asked : Region → ℕ} {w : Ledger} {backing : Backing}

theorem answered_yields {α : Type} (answer : Except Error α) : (answered answer).Yields fun _ ↦ True := by
  cases answer with
  | ok v => exact .ok trivial
  | error error => exact .refused

theorem answered_eq_ok_iff {α : Type} {answer : Except Error α} {v : α} :
    answered answer = .ok v ↔ answer = .ok v := by
  cases answer <;> simp [answered]

/-- Where the test answers for every region in use, so does the search. -/
theorem anyInUse_eq {test : Region → Result Bool} {passes : Region → Prop} [DecidablePred passes]
    (regions : List Region) (htest : ∀ r ∈ regions, r.size ≠ 0 → test r = .ok (decide (passes r))) :
    anyInUse test regions = .ok (decide (∃ r ∈ regions, r.size ≠ 0 ∧ passes r)) := by
  induction regions with
  | nil => simp [anyInUse]
  | cons r rest ih =>
    have hrest := ih fun j hj ↦ htest j (mem_cons_of_mem _ hj)
    by_cases hsize : r.size = 0
    · simp [anyInUse, hsize, hrest]
    · have hregion := htest r mem_cons_self hsize
      by_cases hpasses : passes r <;>
        simp [anyInUse, hsize, hregion, hpasses, hrest, bind, Except.bind, pure, Except.pure]

variable {r : Region}

variable (h : Sound z asked w)
include h

theorem Sound.plus_eq (hregion : r ∈ w.regions)
    (hsize : r.size ≠ 0) : plus z r.base r.size = .ok (r.base + r.size) :=
  if_pos (h.inside r hregion hsize)

theorem Sound.meets_eq (base stop : ℕ) :
    anyInUse (meets z base stop) w.regions = .ok (decide (∃ r ∈ w.regions, r.size ≠ 0 ∧
      base < r.base + r.size ∧ r.base < stop)) := by
  refine anyInUse_eq _ fun r hregion hsize ↦ ?_
  rw [meets, h.plus_eq hregion hsize]
  rfl

theorem Sound.covers_eq (base stop : ℕ) :
    anyInUse (covers z base stop) w.regions = .ok (decide (∃ r ∈ w.regions, r.size ≠ 0 ∧
      r.base ≤ base ∧ stop ≤ r.base + r.size)) := by
  refine anyInUse_eq _ fun r hregion hsize ↦ ?_
  unfold covers
  split
  · rename_i hbase
    rw [h.plus_eq hregion hsize]
    simp [hbase, bind, Except.bind, pure, Except.pure]
  · rename_i hbase
    simp [hbase, pure, Except.pure]

omit h

/-- What a call to `allocate` that returns found and leaves. -/
structure Allocated (target : Target) (w : Ledger) (size align base : ℕ) (final : Ledger) : Prop where
  size_pos : 0 < size
  fits : w.owned + size ≤ target.capacity
  base_pos : 0 < base
  aligned : align ∣ base
  inside : base + size ≤ target.usizeMax
  apart : ∀ r ∈ w.regions, r.size ≠ 0 → r.Apart ⟨base, size⟩
  recorded : ∃ index r, w.regions[index]? = some r ∧ r.size = 0 ∧
    final = record index ⟨base, size⟩ (w.owned + size) w

theorem allocate_atomic (h : Sound z asked w) (size : ℕ) {align : ℕ} (halign : 0 < align) :
    Atomic Fault.Refusal (allocate z backing size align) w (Allocated z w size align) := by
  have hroom : minus z.capacity w.owned = .ok (z.capacity - w.owned) := if_pos h.owned_le
  refine .bind_refuseIf (Fault.refusal_error _) fun hsize ↦ .bind_ok (reading_of_ok hroom) ?_
  refine .bind_refuseIf (Fault.refusal_error _) fun hfits ↦ ?_
  refine .bind_reading (Result.required_yields _ _) fun index hindex ↦ ?_
  refine .bind_reading (answered_yields _) fun base _ ↦ ?_
  refine .bind_refuseIf (Fault.refusal_error _) fun hend ↦ ?_
  refine .bind_refuseIf (Fault.refusal_error _) fun hbase ↦ ?_
  have hrest : remainder base align = .ok (base % align) := if_neg halign.ne'
  refine .bind_ok (reading_of_ok hrest) (.bind_refuseIf (Fault.refusal_error _) fun haligned ↦ ?_)
  refine .bind_ok (reading_of_ok (h.meets_eq _ _)) ?_
  refine .bind_refuseIf (Fault.refusal_error _) fun htaken ↦ ?_
  have hle := h.owned_le
  have hcapacity := z.capacity_le
  have howned : plus z w.owned size = .ok (w.owned + size) := if_pos (by omega)
  refine .bind_ok (reading_of_ok howned) ?_
  refine .of_ok rfl ⟨Nat.pos_of_ne_zero hsize, by omega, Nat.pos_of_ne_zero hbase,
    Nat.dvd_of_mod_eq_zero (not_not.mp haligned), Nat.not_lt.mp hend, ?_, ?_⟩
  · intro r hregion hused
    have hfree : ¬∃ r ∈ w.regions, r.size ≠ 0 ∧ base < r.base + r.size ∧
        r.base < base + size := by
      rintro hmeets
      exact htaken (decide_eq_true hmeets)
    by_contra hmeets
    refine hfree ⟨r, hregion, hused, ?_⟩
    simp only [Region.Apart, not_or, Nat.not_le] at hmeets
    exact hmeets
  · rw [findIdx?_eq_some_iff_getElem] at hindex
    obtain ⟨hlt, hfree, _⟩ := hindex
    exact ⟨index, _, getElem?_eq_getElem hlt, by simpa using hfree, rfl⟩

/-- A block that passes the checks is handed out. -/
theorem allocate_returns (h : Sound z asked w) {size align base : ℕ} (hsize : 0 < size)
    (hfits : w.owned + size ≤ z.capacity) (hslot : ∃ r ∈ w.regions, r.size = 0)
    (hbacking : backing.allocate = .ok base) (hbase : 0 < base) (hinside : base + size ≤ z.usizeMax)
    (halign : 0 < align) (haligned : align ∣ base)
    (hapart : ∀ r ∈ w.regions, r.size ≠ 0 → r.Apart ⟨base, size⟩) :
    Returns (allocate z backing size align) w fun v _ ↦ v = base := by
  obtain ⟨index, hindex⟩ : ∃ index, w.regions.findIdx? (fun r ↦ decide (r.size = 0)) = some index := by
    rw [← Option.isSome_iff_exists, findIdx?_isSome, any_eq_true]
    simpa using hslot
  have hfree : ¬∃ r ∈ w.regions, r.size ≠ 0 ∧ base < r.base + r.size ∧
      r.base < base + size := by
    rintro ⟨r, hregion, hused, hmeets⟩
    have hgap := hapart r hregion hused
    simp only [Region.Apart] at hgap
    omega
  have hle := h.owned_le
  have hcapacity := z.capacity_le
  have hroom : minus z.capacity w.owned = .ok (z.capacity - w.owned) := if_pos hle
  have hrest : remainder base align = .ok (base % align) := if_neg halign.ne'
  have howned : plus z w.owned size = .ok (w.owned + size) := if_pos (by omega)
  have hpass {condition : Prop} [Decidable condition] (fault : Fault) (hnot : ¬condition) :
      refuseIf condition fault w = .ok () w := refuseIf_eq_ok_iff.mpr ⟨hnot, rfl⟩
  refine .bind ⟨(), w, hpass _ hsize.ne', .bind (.reading hroom ?_)⟩
  refine .bind ⟨(), w, hpass _ (by omega), .bind (.reading (Result.required_eq_ok_iff.mpr hindex) ?_)⟩
  refine .bind (.reading (answered_eq_ok_iff.mpr hbacking) ?_)
  refine .bind ⟨(), w, hpass _ (Nat.not_lt.mpr hinside), ?_⟩
  refine .bind ⟨(), w, hpass _ hbase.ne', .bind (.reading hrest ?_)⟩
  refine .bind ⟨(), w, hpass _ (not_not.mpr (Nat.mod_eq_zero_of_dvd haligned)), ?_⟩
  refine .bind (.reading (h.meets_eq base (base + size)) ?_)
  refine .bind ⟨(), w, hpass _ (by simpa using hfree), .bind (.reading howned ?_)⟩
  exact .bind (.modify (.pure rfl))

/-- What a call to `release` that returns found and leaves. -/
def Released (w : Ledger) (addr size : ℕ) (_ : Unit) (final : Ledger) : Prop :=
  0 < size ∧ ∃ index, w.regions[index]? = some ⟨addr, size⟩ ∧
    final = record index Region.empty (w.owned - size) w

variable (h : Sound z asked w)
include h

theorem Sound.size_le_owned (hregion : r ∈ w.regions) : r.size ≤ w.owned := by
  rw [h.owned_eq]
  exact single_le_sum (fun _ _ ↦ Nat.zero_le _) _ (mem_map_of_mem hregion)

theorem release_atomic (addr size : ℕ) :
    Atomic Fault.Refusal (release backing addr size) w (Released w addr size) := by
  refine .bind_reading (Result.required_yields _ _) fun index hindex ↦ ?_
  rw [findIdx?_eq_some_iff_getElem] at hindex
  obtain ⟨hlt, hexact, _⟩ := hindex
  simp only [decide_eq_true_eq] at hexact
  obtain ⟨hused, hbase, hsize⟩ := hexact
  have hregion : w.regions[index]? = some ⟨addr, size⟩ := by
    rw [getElem?_eq_getElem hlt, ← hbase, ← hsize]
  refine .bind_reading (answered_yields _) fun _ _ ↦ ?_
  have howned : minus w.owned size = .ok (w.owned - size) :=
    if_pos (h.size_le_owned (mem_of_getElem? hregion))
  refine .bind_ok (reading_of_ok howned) ?_
  exact .of_ok rfl ⟨by omega, index, hregion, rfl⟩

theorem zero_atomic (addr size : ℕ) :
    Atomic Fault.Refusal (zero z addr size) w fun _ final ↦ final = w ∧ 0 < size ∧
      ∃ r ∈ w.regions, r.base ≤ addr ∧ addr + size ≤ r.base + r.size := by
  refine .bind_refuseIf (Fault.refusal_error _) fun _ ↦ ?_
  refine .bind_refuseIf (Fault.refusal_error _) fun hnonzero ↦ ?_
  refine .bind_ok (reading_of_ok (h.covers_eq _ _)) ?_
  by_cases hinside : ∃ r ∈ w.regions, r.size ≠ 0 ∧
      r.base ≤ addr ∧ addr + size ≤ r.base + r.size
  · have hpass : ¬decide (∃ r ∈ w.regions, r.size ≠ 0 ∧
        r.base ≤ addr ∧ addr + size ≤ r.base + r.size) = false := by
      rwa [decide_eq_false_iff_not, not_not]
    obtain ⟨r, hregion, _, hcovers⟩ := hinside
    exact .of_ok (refuseIf_eq_ok_iff.mpr ⟨hpass, rfl⟩) ⟨rfl, by omega, r, hregion, hcovers⟩
  · exact .refused (refuseIf_eq_error_iff.mpr ⟨decide_eq_false hinside, rfl, rfl⟩)

/-! ## Runs -/

omit h in
theorem sum_set (regions : List Region) {index : ℕ} {old : Region} (new : Region)
    (hold : regions[index]? = some old) :
    ((regions.set index new).map Region.size).sum + old.size = (regions.map Region.size).sum +
      new.size := by
  induction regions generalizing index with
  | nil => simp at hold
  | cons r rest ih =>
    cases index with
    | zero =>
      simp only [getElem?_cons_zero, Option.some.injEq] at hold
      subst hold
      simp only [set_cons_zero, map_cons, sum_cons]
      omega
    | succ index =>
      have hrest := ih (by simpa using hold)
      simp only [set_cons_succ, map_cons, sum_cons]
      omega

omit h in
theorem mem_record {index owned : ℕ} {new : Region} (h : r ∈ (record index new owned w).regions) :
    r = new ∨ r ∈ w.regions :=
  (mem_or_eq_of_mem_set h).symm

omit h in
theorem get_record {index owned i : ℕ} {new : Region}
    (h : (record index new owned w).regions[i]? = some r) :
    i = index ∧ r = new ∨ i ≠ index ∧ w.regions[i]? = some r := by
  rw [record, getElem?_set] at h
  split at h
  · rename_i hi
    split at h
    · exact .inl ⟨hi.symm, (Option.some.inj h).symm⟩
    · cases h
  · rename_i hi
    exact .inr ⟨Ne.symm hi, h⟩

/-- A block that is apart from all others is recorded in a free slot. -/
theorem Sound.allocated {size align base : ℕ} {final : Ledger}
    (hallocated : Allocated z w size align base final) :
    Sound z (update asked ⟨base, size⟩ align) final := by
  obtain ⟨index, slot, hslot, hfree, rfl⟩ := hallocated.recorded
  -- An old region of the same bytes would not be apart from the new one.
  have hnew : ∀ r ∈ w.regions, r.size ≠ 0 → r ≠ ⟨base, size⟩ := by
    rintro r hregion hused rfl
    have hapart := hallocated.apart _ hregion hused
    simp only [Region.Apart, ne_eq] at hapart hused
    omega
  have hsum : (((w.regions.set index ⟨base, size⟩).map Region.size).sum + slot.size : ℕ) = _ + size :=
    sum_set w.regions ⟨base, size⟩ hslot
  have howned := h.owned_eq
  refine ⟨by simp [record, h.length], ?_, ?_, ?_, ?_, ?_, hallocated.fits⟩
  · intro i j left right hne hleft hright hleftUsed hrightUsed
    rcases get_record hleft with ⟨hi, rfl⟩ | ⟨hi, hleft⟩ <;>
      rcases get_record hright with ⟨hj, rfl⟩ | ⟨hj, hright⟩
    · exact absurd (hi.trans hj.symm) hne
    · exact (hallocated.apart right (mem_of_getElem? hright) hrightUsed).symm
    · exact hallocated.apart left (mem_of_getElem? hleft) hleftUsed
    · exact h.apart i j left right hne hleft hright hleftUsed hrightUsed
  · intro r hregion hused
    rcases mem_record hregion with rfl | hold
    · exact hallocated.base_pos
    · exact h.base_pos r hold hused
  · intro r hregion hused
    rcases mem_record hregion with rfl | hold
    · rw [update_self]
      exact hallocated.aligned
    · rw [update_of_ne (hnew r hold hused)]
      exact h.aligned r hold hused
  · intro r hregion hused
    rcases mem_record hregion with rfl | hold
    · exact hallocated.inside
    · exact h.inside r hold hused
  · simp only [record]
    omega

theorem Sound.released {addr size : ℕ} {final : Ledger}
    (hreleased : Released w addr size () final) : Sound z asked final := by
  obtain ⟨hsize, index, hregion, rfl⟩ := hreleased
  have hsum := sum_set w.regions Region.empty hregion
  have howned := h.owned_eq
  have hle := h.owned_le
  have hold : ∀ r ∈ (record index Region.empty (w.owned - size) w).regions, r.size ≠ 0 →
      r ∈ w.regions := by
    intro r hmem hused
    rcases mem_record hmem with rfl | hmem
    · exact (hused rfl).elim
    · exact hmem
  refine ⟨by simp [record, h.length], ?_, fun r hmem hused ↦ h.base_pos r (hold r hmem hused) hused,
    fun r hmem hused ↦ h.aligned r (hold r hmem hused) hused,
    fun r hmem hused ↦ h.inside r (hold r hmem hused) hused, ?_, ?_⟩
  · intro i j left right hne hleft hright hleftUsed hrightUsed
    rcases get_record hleft with ⟨_, rfl⟩ | ⟨_, hleft⟩
    · exact (hleftUsed rfl).elim
    rcases get_record hright with ⟨_, rfl⟩ | ⟨_, hright⟩
    · exact (hrightUsed rfl).elim
    exact h.apart i j left right hne hleft hright hleftUsed hrightUsed
  · simp only [record, Region.empty] at hsum ⊢
    omega
  · simp only [record]
    omega

omit h

theorem size_initial (h : r ∈ initial.regions) : r.size = 0 := by
  rw [eq_of_mem_replicate h]
  rfl

theorem sound_initial (asked : Region → ℕ) : Sound z asked initial := by
  have hsum : (initial.regions.map Region.size).sum = 0 := by
    simp [initial, Region.empty]
  refine ⟨length_replicate, ?_, ?_, ?_, ?_, hsum.symm, Nat.zero_le _⟩
  · intro i j left right _ hleft _ hused
    exact (hused (size_initial (mem_of_getElem? hleft))).elim
  all_goals exact fun r hregion hused ↦ (hused (size_initial hregion)).elim

/-- What a call does: it refuses and leaves the ledger alone, or returns what its check allows. -/
inductive Outcome (target : Target) (w : Ledger) : Call → Option ℕ → Ledger → Prop
  | allocate {size align base final} : Allocated target w size align base final →
      Outcome target w (.allocate size align) (some base) final
  | release {addr size final} : Released w addr size () final →
      Outcome target w (.release addr size) none final
  | zero {addr size r} : 0 < size → r ∈ w.regions → r.base ≤ addr →
      addr + size ≤ r.base + r.size → Outcome target w (.zero addr size) none w

theorem exec_atomic (h : Sound z asked w) (backing : Backing) {call : Call} (haligned : call.Aligned) :
    Atomic Fault.Refusal (exec z backing call) w (Outcome z w call) := by
  cases call with
  | allocate size align =>
    obtain ⟨bits, rfl⟩ := haligned
    exact .map ((allocate_atomic h size (Nat.two_pow_pos bits)).imp fun _ _ hdone ↦ .allocate hdone)
  | release addr size => exact .map ((release_atomic h addr size).imp fun _ _ hdone ↦ .release hdone)
  | zero addr size =>
    refine .map ((zero_atomic h addr size).imp fun _ final hdone ↦ ?_)
    obtain ⟨rfl, hsize, r, hregion, hbase, hend⟩ := hdone
    exact .zero hsize hregion hbase hend

/-- The alignments of a run are those of the regions in its ledger. -/
def Audit (target : Target) (pair : Ledger × (Region → ℕ)) : Prop := Sound target pair.2 pair.1

theorem audit_step {old next : Ledger × (Region → ℕ)} (h : Audit z old)
    (hstep : (audited z).step old next) : Audit z next := by
  obtain ⟨backing, call, haligned, hnext, hasked⟩ := hstep
  unfold Audit at h ⊢
  rcases exec_atomic h backing haligned with ⟨fault, _, hrun⟩ | ⟨v, final, hrun, hdone⟩
  · rw [hnext, after_of_error hrun]
    rw [hrun] at hasked
    have hsame : next.2 = old.2 := by
      cases call <;> exact hasked
    rwa [hsame]
  · rw [hnext, after_of_ok hrun]
    rw [hrun] at hasked
    cases hdone with
    | allocate hallocated =>
      rw [show next.2 = _ from hasked]
      exact h.allocated hallocated
    | release hreleased =>
      rw [show next.2 = old.2 from hasked]
      exact h.released hreleased
    | zero _ _ _ _ =>
      rwa [show next.2 = old.2 from hasked]

theorem audit_of_reachable {pair : Ledger × (Region → ℕ)} (h : (audited z).Reachable pair) :
    Audit z pair := by
  refine System.invariant (fun start hstart ↦ ?_) (fun old next hold hstep ↦ audit_step hold hstep) h
  unfold Audit
  rw [show start.1 = initial from hstart]
  exact sound_initial _

/-- In every state of a run over any backing the regions are apart, are where they may be and add up
to what is owned, within the budget. No call panics; one that fails leaves the ledger alone, and
release and zero return only for a region that is recorded, and for bytes inside one. -/
theorem ledger_of_audited {asked : Region → ℕ} (hreach : (audited z).Reachable (w, asked)) :
    (∀ (i j : ℕ) (left right : Region), i ≠ j → w.regions[i]? = some left → w.regions[j]? = some right →
      left.size ≠ 0 → right.size ≠ 0 → left.Apart right) ∧
    (∀ r ∈ w.regions, r.size ≠ 0 →
      0 < r.base ∧ asked r ∣ r.base ∧ r.base + r.size ≤ z.usizeMax) ∧
    w.owned = (w.regions.map Region.size).sum ∧ w.owned ≤ z.capacity ∧
    ∀ (backing : Backing) (call : Call), call.Aligned →
      (∀ fault final, exec z backing call w = .error fault final → final = w ∧ ∃ error :
        Error, fault = error) ∧
      (∀ value final, exec z backing call w = .ok value final →
        (∀ addr size, call = .release addr size → size ≤ w.owned ∧ 0 < size ∧ ⟨addr, size⟩ ∈ w.regions) ∧
        (∀ addr size, call = .zero addr size → ∃ r ∈ w.regions, r.base ≤ addr ∧
          addr + size ≤ r.base + r.size ∧ 0 < size)) := by
  have h : Sound z asked w := audit_of_reachable hreach
  refine ⟨h.apart, fun r hregion hused ↦ ⟨h.base_pos r hregion hused, h.aligned r hregion hused,
    h.inside r hregion hused⟩, h.owned_eq, h.owned_le, fun backing call haligned ↦ ?_⟩
  rcases exec_atomic h backing haligned with ⟨fault, hrefusal, hrun⟩ | ⟨value, final, hrun, hdone⟩
  · refine ⟨fun other final hother ↦ ?_, fun other final hother ↦ ?_⟩
    · rw [hrun] at hother
      cases hother
      exact ⟨rfl, hrefusal⟩
    · rw [hrun] at hother
      cases hother
  · refine ⟨fun other last hother ↦ ?_, fun other last _ ↦ ⟨?_, ?_⟩⟩
    · rw [hrun] at hother
      cases hother
    · rintro addr size rfl
      cases hdone with
      | release hreleased =>
        obtain ⟨hsize, index, hregion, _⟩ := hreleased
        have hmem := mem_of_getElem? hregion
        exact ⟨h.size_le_owned hmem, hsize, hmem⟩
    · rintro addr size rfl
      cases hdone with
      | zero hsize hregion hbase hend => exact ⟨_, hregion, hbase, hend, hsize⟩

end Calls

/-! A block that a backing gives to an empty ledger. -/

def wasm : Target := ⟨8 * 1024 * 1024, 2 ^ 32 - 1, by decide⟩

def generous : Backing := ⟨.ok 4096, .ok ()⟩

theorem allocate_generous : Returns (allocate wasm generous 16 8) initial fun v _ ↦ v = 4096 := by
  refine allocate_returns (sound_initial fun _ ↦ 8) (by decide) (by decide)
    ⟨Region.empty, ?_, rfl⟩ rfl (by decide)
    (by decide) (by decide) (by decide) fun r hregion hused ↦ (hused (size_initial hregion)).elim
  exact mem_replicate.mpr ⟨by decide, rfl⟩

theorem ledger_of_audited_generous :
    ∃ final, exec wasm generous (.allocate 16 8) initial = .ok (some 4096) final ∧
    ∀ r ∈ final.regions, r.size ≠ 0 → 0 < r.base ∧ r.base + r.size ≤ 2 ^ 32 - 1 := by
  obtain ⟨_, final, hallocate, rfl⟩ := allocate_generous
  have hrun : exec wasm generous (.allocate 16 8) initial = .ok (some 4096) final := by
    change EStateM.map some (allocate wasm generous 16 8) initial = _
    rw [EStateM.map, hallocate]
  have hreach : (audited wasm).Reachable (final, update (fun _ ↦ 8) ⟨4096, 16⟩ 8) := by
    refine .of_step (.of_start rfl : (audited wasm).Reachable (initial, fun _ ↦ 8))
      ⟨generous, .allocate 16 8, ⟨3, rfl⟩, ?_, ?_⟩
    · exact (after_of_ok hrun).symm
    · rw [hrun]
  refine ⟨final, hrun, fun r hregion hused ↦ ?_⟩
  obtain ⟨hbase, _, hinside⟩ := (ledger_of_audited hreach).2.1 r hregion hused
  exact ⟨hbase, hinside⟩

end Ledger

end DotnetPal.Storage
