import Mathlib.Data.List.Pairwise
import DotnetPal.Memfs.Locks

/-!
# Lock tables as functions

A table says for a kind of lock, an owner and a byte what the owner holds there. In a sound table
the locks of one owner and kind share no byte, so that is a function, and no byte that one owner
holds exclusively is held by another. Giving up and taking locks change that function on the bytes
asked for and nowhere else. The loop that carves them out never makes a sound table longer than by
one, so the two places reserved before it are enough.
-/

open List

namespace DotnetPal.Memfs

namespace Lock

/-- The lock holds the byte for its owner. -/
def Covers (lock : Lock) (whole : Bool) (owner byte : ℕ) : Prop :=
  lock.whole = whole ∧ lock.owner = owner ∧ lock.start ≤ byte ∧ byte < lock.stop

instance (lock : Lock) (whole : Bool) (owner byte : ℕ) : Decidable (lock.Covers whole owner byte) :=
  inferInstanceAs (Decidable (_ ∧ _))

/-- Two locks of one owner and kind share no byte. -/
def Apart (first second : Lock) : Prop :=
  first.owner = second.owner → first.whole = second.whole → first.stop ≤ second.start ∨
    second.stop ≤ first.start

/-- Two owners share bytes only where both only read. -/
def Agrees (first second : Lock) : Prop :=
  first.owner ≠ second.owner → first.meets second = true → first.exclusive = false ∧ second.exclusive = false

variable {held r piece : Lock}

theorem meets_iff : held.meets r = true ↔
    held.whole = r.whole ∧ held.start < r.stop ∧ r.start < held.stop := by
  simp [meets, and_assoc]

theorem inWay_iff : r.inWay held = true ↔ held.owner = r.owner ∧ held.meets r = true := by
  simp [inWay]

theorem meets_comm (a b : Lock) : a.meets b = b.meets a := by
  rw [Bool.eq_iff_iff, meets_iff, meets_iff]
  exact ⟨fun ⟨hkind, hleft, hright⟩ ↦ ⟨hkind.symm, hright, hleft⟩, fun ⟨hkind, hleft, hright⟩ ↦
    ⟨hkind.symm, hright, hleft⟩⟩

theorem Apart.symm (h : held.Apart r) : r.Apart held :=
  fun howner hkind ↦ (h howner.symm hkind.symm).symm

instance : Std.Symm Apart := ⟨fun _ _ h ↦ h.symm⟩

theorem Agrees.symm (h : held.Agrees r) : r.Agrees held := by
  intro howner hmeets
  rw [meets_comm] at hmeets
  exact (h howner.symm hmeets).symm

/-- A piece of a lock is the lock on fewer bytes, beside those of `r`. -/
theorem mem_pieces_iff : piece ∈ held.pieces r ↔
    (held.start < r.start ∧ piece = { held with stop := r.start }) ∨
      (r.stop < held.stop ∧ piece = { held with start := r.stop }) := by
  unfold pieces
  rw [mem_append]
  split <;> split <;> simp_all

/-- The lock is another one on fewer bytes. -/
structure Within (piece held : Lock) : Prop where
  owner : piece.owner = held.owner
  whole : piece.whole = held.whole
  exclusive : piece.exclusive = held.exclusive
  start : held.start ≤ piece.start
  stop : piece.stop ≤ held.stop

theorem Within.refl (held : Lock) : held.Within held := ⟨rfl, rfl, rfl, le_rfl, le_rfl⟩

theorem Within.covers {whole : Bool} {owner byte : ℕ} (h : piece.Within held)
    (hcovers : piece.Covers whole owner byte) :
    held.Covers whole owner byte :=
  ⟨h.whole ▸ hcovers.1, h.owner ▸ hcovers.2.1, h.start.trans hcovers.2.2.1, hcovers.2.2.2.trans_le h.stop⟩

theorem Within.apart {a b : Lock} (hpiece : piece.Within a) (hj : held.Within b)
    (h : a.Apart b) : piece.Apart held := by
  intro howner hkind
  have hapart := h (by rw [← hpiece.owner, ← hj.owner, howner]) (by rw [← hpiece.whole, ← hj.whole, hkind])
  exact hapart.imp (fun hold ↦ (hpiece.stop.trans hold).trans hj.start)
    fun hnew ↦ (hj.stop.trans hnew).trans hpiece.start

theorem Within.meets {a b : Lock} (hpiece : piece.Within a) (hj : held.Within b)
    (h : piece.meets held = true) : a.meets b = true := by
  rw [meets_iff] at h ⊢
  exact ⟨by rw [← hpiece.whole, ← hj.whole, h.1], (hpiece.start.trans_lt h.2.1).trans_le hj.stop,
    (hj.start.trans_lt h.2.2).trans_le hpiece.stop⟩

theorem Within.agrees {a b : Lock} (hpiece : piece.Within a) (hj : held.Within b)
    (h : a.Agrees b) : piece.Agrees held := by
  intro howner hmeets
  rw [hpiece.owner, hj.owner] at howner
  rw [hpiece.exclusive, hj.exclusive]
  exact h howner (hpiece.meets hj hmeets)

theorem within_of_mem_pieces (hway : r.inWay held = true) (h : piece ∈ held.pieces r) :
    piece.Within held := by
  obtain ⟨-, hmeets⟩ := inWay_iff.mp hway
  obtain ⟨-, hleft, hright⟩ := meets_iff.mp hmeets
  rcases mem_pieces_iff.mp h with ⟨_, rfl⟩ | ⟨_, rfl⟩
  · exact ⟨rfl, rfl, rfl, le_rfl, hright.le⟩
  · exact ⟨rfl, rfl, rfl, hleft.le, le_rfl⟩

/-- What is beside the bytes of `r` and of its kind and owner is apart from it. -/
theorem apart_of_not_inWay (h : r.inWay held = false) : held.Apart r := by
  intro howner hkind
  by_contra hshare
  rw [not_or, not_le, not_le] at hshare
  rw [inWay_iff.mpr ⟨howner, meets_iff.mpr ⟨hkind, hshare.2, hshare.1⟩⟩] at h
  cases h

theorem apart_pieces (hwanted : r.start < r.stop) : (held.pieces r).Pairwise Apart := by
  unfold pieces
  split <;> split
  · refine pairwise_pair.mpr fun _ _ ↦ .inl hwanted.le
  all_goals simp

theorem proper_pieces (hheld : held.Proper) (hwanted : r.Proper) (hway : r.inWay held = true)
    (h : piece ∈ held.pieces r) : piece.Proper := by
  have hkind : held.whole = r.whole := (meets_iff.mp (inWay_iff.mp hway).2).1
  refine ⟨?_, fun hwhole ↦ ?_⟩
  · rcases mem_pieces_iff.mp h with ⟨hless, rfl⟩ | ⟨hless, rfl⟩ <;> exact hless
  · -- Two locks on whole files cover the same bytes, so nothing is left of either.
    rw [(within_of_mem_pieces hway h).whole] at hwhole
    obtain ⟨hstart, hstop⟩ := hheld.whole hwhole
    obtain ⟨hfrom, hto⟩ := hwanted.whole (hkind ▸ hwhole)
    rcases mem_pieces_iff.mp h with ⟨hless, _⟩ | ⟨hless, _⟩ <;> omega

end Lock

/-! ## Sound tables -/

/-- What the lock table of a file keeps up. -/
structure LockTable (locks : List Lock) : Prop where
  proper : ∀ held ∈ locks, held.Proper
  apart : locks.Pairwise Lock.Apart
  agree : ∀ first ∈ locks, ∀ second ∈ locks, first.Agrees second

/-- What an owner holds on a byte: nothing, or a lock that is exclusive or not. -/
def holds (locks : List Lock) (whole : Bool) (owner byte : ℕ) : Option Bool :=
  (locks.find? fun held ↦ held.Covers whole owner byte).map Lock.exclusive

variable {ls before after : List Lock} {r : Lock} {whole : Bool} {owner byte : ℕ}

theorem LockTable.nil : LockTable [] := ⟨by simp, .nil, by simp⟩

theorem LockTable.perm (h : LockTable before) (hperm : after.Perm before) : LockTable after where
  proper := fun held hheld ↦ h.proper held (hperm.mem_iff.mp hheld)
  apart := (hperm.pairwise_iff fun hapart ↦ hapart.symm).mpr h.apart
  agree := fun a ha b hb ↦ h.agree a (hperm.mem_iff.mp ha) b (hperm.mem_iff.mp hb)

theorem LockTable.sublist (h : LockTable before) (hsub : after.Sublist before) : LockTable after where
  proper := fun held hheld ↦ h.proper held (hsub.mem hheld)
  apart := h.apart.sublist hsub
  agree := fun a ha b hb ↦ h.agree a (hsub.mem ha) b (hsub.mem hb)

/-- A byte is held by one lock of its owner and kind at most. -/
theorem LockTable.eq_of_covers (h : LockTable ls) {a b : Lock} (ha : a ∈ ls)
    (hb : b ∈ ls) (hcovers : a.Covers whole owner byte) (hj : b.Covers whole owner byte) :
    a = b := by
  by_contra hne
  have hapart := h.apart.forall ha hb hne
  obtain ⟨hkind, howner, hstart, hstop⟩ := hcovers
  obtain ⟨hkind', howner', hstart', hstop'⟩ := hj
  have := hapart (howner.trans howner'.symm) (hkind.trans hkind'.symm)
  omega

/-- In a sound table what an owner holds on a byte is what any lock on the byte says. -/
theorem LockTable.holds_eq_some_iff (h : LockTable ls) {exclusive : Bool} :
    holds ls whole owner byte = some exclusive ↔
      ∃ held ∈ ls, held.Covers whole owner byte ∧ held.exclusive = exclusive := by
  unfold holds
  rw [Option.map_eq_some_iff]
  constructor
  · rintro ⟨held, hfind, hexclusive⟩
    exact ⟨held, mem_of_find?_eq_some hfind, by simpa using find?_some hfind, hexclusive⟩
  · rintro ⟨held, hheld, hcovers, hexclusive⟩
    cases hfind : ls.find? fun held ↦ held.Covers whole owner byte with
    | none => exact absurd hcovers (by simpa using find?_eq_none.mp hfind held hheld)
    | some x =>
      have hx : x.Covers whole owner byte := by simpa using find?_some hfind
      rw [h.eq_of_covers (mem_of_find?_eq_some hfind) hheld hx hcovers]
      exact ⟨held, rfl, hexclusive⟩

/-! ## Carving keeps a table sound -/

variable {held : Lock}

/-- What a carved table holds comes from the table. -/
theorem exists_within_of_mem_carved (h : held ∈ carved r ls) :
    ∃ source ∈ ls, held.Within source := by
  rcases mem_append.mp h with h | h
  · exact ⟨held, (mem_filter.mp h).1, .refl held⟩
  · obtain ⟨source, hsource, hpiece⟩ := mem_flatMap.mp h
    obtain ⟨hmem, hway⟩ := mem_filter.mp hsource
    exact ⟨source, hmem, Lock.within_of_mem_pieces hway hpiece⟩

theorem not_inWay_of_mem_carved (h : held ∈ carved r ls) : r.inWay held = false := by
  rcases mem_append.mp h with h | h
  · simpa using (mem_filter.mp h).2
  · obtain ⟨source, _, hpiece⟩ := mem_flatMap.mp h
    exact Lock.inWay_pieces hpiece

theorem LockTable.carved (h : LockTable ls) (hwanted : r.Proper) : LockTable (carved r ls) where
  proper := by
    intro held hheld
    rcases mem_append.mp hheld with hheld | hheld
    · exact h.proper held (mem_filter.mp hheld).1
    · obtain ⟨source, hsource, hpiece⟩ := mem_flatMap.mp hheld
      obtain ⟨hmem, hway⟩ := mem_filter.mp hsource
      exact Lock.proper_pieces (h.proper source hmem) hwanted hway hpiece
  apart := by
    refine pairwise_append.mpr ⟨h.apart.filter _, pairwise_flatMap.mpr ⟨fun _ _ ↦ ?_, ?_⟩, ?_⟩
    · exact Lock.apart_pieces hwanted.nonempty
    · refine (h.apart.filter _).imp_of_mem fun {a b} ha hb hapart piece hpiece j hj ↦ ?_
      exact (Lock.within_of_mem_pieces (mem_filter.mp ha).2 hpiece).apart
        (Lock.within_of_mem_pieces (mem_filter.mp hb).2 hj) hapart
    · intro held hheld piece hpiece
      obtain ⟨source, hsource, hpiece⟩ := mem_flatMap.mp hpiece
      obtain ⟨hmem, hout⟩ := mem_filter.mp hheld
      obtain ⟨hsource, hway⟩ := mem_filter.mp hsource
      -- One of them is in the way and the other is not.
      have hne : held ≠ source := by
        rintro rfl
        simp [hway] at hout
      have hapart := h.apart.forall hmem hsource hne
      exact (Lock.Within.refl held).apart (Lock.within_of_mem_pieces hway hpiece) hapart
  agree := by
    intro a ha b hb
    obtain ⟨source, hsource, hwithin⟩ := exists_within_of_mem_carved ha
    obtain ⟨j, hj, hwithin'⟩ := exists_within_of_mem_carved hb
    exact hwithin.agrees hwithin' (h.agree source hsource j hj)

/-- A lock that nothing blocks fits beside what is carved. -/
theorem LockTable.take (h : LockTable ls) (hwanted : r.Proper) (hfree : ¬Blocked r ls) :
    LockTable (Memfs.carved r ls ++ [r]) := by
  have hcarved := h.carved hwanted
  have hagrees : ∀ held ∈ Memfs.carved r ls, held.Agrees r := by
    intro held hheld howner hmeets
    obtain ⟨source, hsource, hwithin⟩ := exists_within_of_mem_carved hheld
    rw [hwithin.exclusive]
    rw [hwithin.owner] at howner
    by_contra hexclusive
    refine hfree ⟨source, hsource, howner, hwithin.meets (.refl r) hmeets, ?_⟩
    rw [not_and_or, Bool.not_eq_false, Bool.not_eq_false] at hexclusive
    exact hexclusive
  refine ⟨fun held hheld ↦ ?_, ?_, fun a ha b hb ↦ ?_⟩
  · rcases mem_append.mp hheld with hheld | hheld
    · exact hcarved.proper held hheld
    · rw [mem_singleton.mp hheld]
      exact hwanted
  · refine pairwise_append.mpr ⟨hcarved.apart, pairwise_singleton _ _, fun held hheld j hj ↦ ?_⟩
    rw [mem_singleton.mp hj]
    exact Lock.apart_of_not_inWay (not_inWay_of_mem_carved hheld)
  · rcases mem_append.mp ha with ha | ha <;> rcases mem_append.mp hb with hb | hb
    · exact hcarved.agree a ha b hb
    · rw [mem_singleton.mp hb]
      exact hagrees a ha
    · rw [mem_singleton.mp ha]
      exact (hagrees b hb).symm
    · rw [mem_singleton.mp ha, mem_singleton.mp hb]
      exact fun howner ↦ absurd rfl howner

variable (h : LockTable before)
include h

theorem LockTable.step (hstep : LockStep owner before after) : LockTable after := by
  cases hstep with
  | give _ hproper hperm => exact (h.carved hproper).perm hperm
  | take _ hproper hfree hperm => exact (h.take hproper hfree).perm hperm

theorem LockTable.steps (hsteps : Relation.ReflTransGen (LockStep owner) before after) :
    LockTable after := by
  induction hsteps with
  | refl => exact h
  | tail _ hstep ih => exact ih.step hstep

/-! ## What a change does to each byte -/

omit h in
/-- Carving takes away the bytes of `r` from its owner, and no others. -/
theorem exists_covers_carved_iff {exclusive : Bool} :
    (∃ held ∈ carved r ls, held.Covers whole owner byte ∧ held.exclusive = exclusive) ↔
      (∃ held ∈ ls, held.Covers whole owner byte ∧ held.exclusive = exclusive) ∧
        ¬r.Covers whole owner byte := by
  constructor
  · rintro ⟨held, hheld, hcovers, hexclusive⟩
    obtain ⟨source, hsource, hwithin⟩ := exists_within_of_mem_carved hheld
    refine ⟨⟨source, hsource, hwithin.covers hcovers, hwithin.exclusive ▸ hexclusive⟩, fun hwanted ↦ ?_⟩
    have hapart :=
      Lock.apart_of_not_inWay (not_inWay_of_mem_carved hheld) (hcovers.2.1.trans hwanted.2.1.symm)
      (hcovers.1.trans hwanted.1.symm)
    obtain ⟨-, -, hstart, hstop⟩ := hcovers
    obtain ⟨-, -, hfrom, hto⟩ := hwanted
    omega
  · rintro ⟨⟨held, hheld, hcovers, hexclusive⟩, hbeside⟩
    cases hway : r.inWay held with
    | false => exact ⟨held, mem_append_left _ (mem_filter.mpr ⟨hheld, by simp [hway]⟩), hcovers, hexclusive⟩
    | true =>
      have hpieces : ∀ piece ∈ held.pieces r, piece ∈ carved r ls := fun piece hpiece ↦
        mem_append_right _ (mem_flatMap.mpr ⟨held, mem_filter.mpr ⟨hheld, hway⟩, hpiece⟩)
      obtain ⟨hkind, howner, hstart, hstop⟩ := hcovers
      obtain ⟨hsame, hmeets⟩ := Lock.inWay_iff.mp hway
      obtain ⟨hwhole, -, -⟩ := Lock.meets_iff.mp hmeets
      -- The byte is on one side of the bytes of `r`, and the piece on that side holds it.
      by_cases hold : byte < r.start
      · refine ⟨_, hpieces _ (Lock.mem_pieces_iff.mpr (.inl ⟨hstart.trans_lt hold, rfl⟩)), ?_, hexclusive⟩
        exact ⟨hkind, howner, hstart, hold⟩
      · have hnew : r.stop ≤ byte := by
          by_contra hinside
          exact hbeside ⟨hwhole ▸ hkind, hsame ▸ howner, by omega, by omega⟩
        refine ⟨_, hpieces _ (Lock.mem_pieces_iff.mpr (.inr ⟨hnew.trans_lt hstop, rfl⟩)), ?_, hexclusive⟩
        exact ⟨hkind, howner, hnew, hstop⟩

theorem LockTable.holds_give (hwanted : r.Proper) (hperm : after.Perm (Memfs.carved r before)) :
    holds after whole owner byte = if r.Covers whole owner byte then none else holds before whole
      owner byte := by
  have hnew : LockTable after := (h.carved hwanted).perm hperm
  apply Option.ext
  intro exclusive
  rw [hnew.holds_eq_some_iff]
  have hmem : (∃ held ∈ after, held.Covers whole owner byte ∧ held.exclusive = exclusive) ↔
      ∃ held ∈ Memfs.carved r before, held.Covers whole owner byte ∧ held.exclusive = exclusive := by
    simp only [hperm.mem_iff]
  rw [hmem, exists_covers_carved_iff]
  split
  · rename_i hcovers
    simp [hcovers]
  · rename_i hcovers
    simp [hcovers, h.holds_eq_some_iff]

theorem LockTable.holds_take (hwanted : r.Proper) (hfree : ¬Blocked r before)
    (hperm : after.Perm (Memfs.carved r before ++ [r])) :
    holds after whole owner byte =
      if r.Covers whole owner byte then some r.exclusive else holds before whole owner byte := by
  have hnew : LockTable after := (h.take hwanted hfree).perm hperm
  apply Option.ext
  intro exclusive
  rw [hnew.holds_eq_some_iff]
  have hmem : (∃ held ∈ after, held.Covers whole owner byte ∧ held.exclusive = exclusive) ↔
      (∃ held ∈ Memfs.carved r before, held.Covers whole owner byte ∧ held.exclusive = exclusive) ∨
        (r.Covers whole owner byte ∧ r.exclusive = exclusive) := by
    simp only [hperm.mem_iff, mem_append, mem_singleton, or_and_right, exists_or, exists_eq_left]
  rw [hmem, exists_covers_carved_iff]
  split
  · rename_i hcovers
    simp [hcovers]
  · rename_i hcovers
    simp [hcovers, h.holds_eq_some_iff]

/-- What a change that is not refused makes of each byte. -/
theorem LockTable.holds_relocked {mode : Files.LockMode} (hwanted : r.Proper)
    (hfree : ¬(mode ≠ .unlock ∧ Blocked r before))
    (hperm : after.Perm (Memfs.carved r before ++ if mode = .unlock then [] else [r])) :
    holds after whole owner byte = if r.Covers whole owner byte then
      (if mode = .unlock then none else some r.exclusive) else holds before whole owner byte := by
  by_cases hmode : mode = .unlock
  · simp only [if_pos hmode, append_nil] at hperm ⊢
    exact h.holds_give hwanted hperm
  · simp only [if_neg hmode] at hperm ⊢
    exact h.holds_take hwanted (fun hblocked ↦ hfree ⟨hmode, hblocked⟩) hperm

omit h

/-- Another owner is in the way exactly where it holds a byte that one of the two wants for itself. -/
theorem LockTable.blocked_iff_holds (h : LockTable ls) (hwanted : r.Proper) :
    Blocked r ls ↔ ∃ j byte exclusive, j ≠ r.owner ∧ r.start ≤ byte ∧ byte < r.stop ∧
      holds ls r.whole j byte = some exclusive ∧ (exclusive = true ∨ r.exclusive = true) := by
  constructor
  · rintro ⟨held, hheld, howner, hmeets, hexclusive⟩
    obtain ⟨hkind, hleft, hright⟩ := Lock.meets_iff.mp hmeets
    have hheldProper := (h.proper held hheld).nonempty
    have hwantedProper := hwanted.nonempty
    refine ⟨held.owner, max held.start r.start, held.exclusive, howner, by omega, by omega,
      h.holds_eq_some_iff.mpr ⟨held, hheld, ⟨hkind, rfl, by omega, by omega⟩, rfl⟩, hexclusive⟩
  · rintro ⟨j, byte, exclusive, howner, hstart, hstop, hholds, hexclusive⟩
    obtain ⟨held, hheld, ⟨hkind, rfl, hfrom, hto⟩, rfl⟩ := h.holds_eq_some_iff.mp hholds
    exact ⟨held, hheld, howner, Lock.meets_iff.mpr ⟨hkind, by omega, by omega⟩, hexclusive⟩

/-- A byte that one owner holds for itself is held by no other. -/
theorem LockTable.alone (h : LockTable ls) {j : ℕ} (hne : owner ≠ j)
    (hholds : holds ls whole owner byte = some true) : holds ls whole j byte = none := by
  rw [Option.eq_none_iff_forall_ne_some]
  intro exclusive hj
  obtain ⟨held, hheld, ⟨hkind, rfl, hstart, hstop⟩, hexclusive⟩ := h.holds_eq_some_iff.mp hholds
  obtain ⟨b, hb, ⟨hkind', rfl, hstart', hstop'⟩, -⟩ := h.holds_eq_some_iff.mp hj
  have hmeets : held.meets b = true := Lock.meets_iff.mpr ⟨hkind.trans hkind'.symm, by omega, by omega⟩
  rw [(h.agree held hheld b hb hne hmeets).1] at hexclusive
  cases hexclusive

/-! ## The places the loop needs -/

/-- The most locks the table holds on the way through the loop of `carve`. -/
def carvePeak (wanted : Lock) : ℕ → ℕ → List Lock → ℕ
  | 0, _, locks => locks.length
  | fuel + 1, i, locks =>
    match locks[i]? with
    | none => locks.length
    | some held =>
      if held.owner ≠ wanted.owner ∨ !held.meets wanted then carvePeak wanted fuel (i + 1) locks
      else max (swapRemove locks i ++ held.pieces wanted).length
        (carvePeak wanted fuel i (swapRemove locks i ++ held.pieces wanted))

/-- A lock that the bytes of `wanted` split in two. -/
def Lock.splits (wanted held : Lock) : Bool :=
  wanted.inWay held && held.start < wanted.start && wanted.stop < held.stop

theorem Lock.length_pieces_le_splits (hway : r.inWay held = true) :
    (held.pieces r).length ≤ 1 + if r.splits held then 1 else 0 := by
  unfold pieces splits
  rw [hway, length_append]
  by_cases hleft : held.start < r.start <;> by_cases hright : r.stop < held.stop <;> simp [hleft, hright]

/-- Only a lock that is split makes the table longer, and its pieces are not split again. -/
theorem carvePeak_le (r : Lock) (fuel i : ℕ) (ls : List Lock) :
    carvePeak r fuel i ls ≤ ls.length + ls.countP r.splits := by
  induction fuel generalizing i ls with
  | zero => exact Nat.le_add_right _ _
  | succ fuel ih =>
    unfold carvePeak
    cases hheld : ls[i]? with
    | none => exact Nat.le_add_right _ _
    | some held =>
      dsimp only
      split
      · exact ih (i + 1) ls
      · rename_i hskip
        have hway : r.inWay held = true := by simpa [Lock.inWay] using hskip
        obtain ⟨tail, hswap, htail⟩ := swapRemove_eq hheld
        obtain ⟨hindex, hget⟩ := List.getElem?_eq_some_iff.mp hheld
        have hperm : (swapRemove ls i ++ held.pieces r).Perm
            (held.pieces r ++ (ls.take i ++ ls.drop (i + 1))) := by
          rw [hswap]
          exact ((htail.append_left _).append_right _).trans perm_append_comm
        have hall : ls.Perm (held :: (ls.take i ++ ls.drop (i + 1))) := by
          nth_rewrite 1 [← take_append_drop i ls, drop_eq_getElem_cons hindex, hget]
          exact perm_middle
        have hwhole : (held.pieces r).countP r.splits = 0 := by
          rw [countP_eq_zero]
          intro piece hpiece
          simp [Lock.splits, Lock.inWay_pieces hpiece]
        have hpieces := Lock.length_pieces_le_splits hway
        have hlen : (swapRemove ls i ++ held.pieces r).length +
            (swapRemove ls i ++ held.pieces r).countP r.splits ≤
            ls.length + ls.countP r.splits := by
          rw [hperm.length_eq, hperm.countP_eq, hall.length_eq, hall.countP_eq, length_append,
            countP_append, countP_cons, hwhole, length_cons]
          omega
        exact max_le ((Nat.le_add_right _ _).trans hlen) ((ih _ _).trans hlen)

/-- In a sound table at most one lock is split: two of them would share the bytes asked for. -/
theorem LockTable.splits_le_one (h : LockTable ls) (hwanted : r.Proper) : ls.countP r.splits ≤ 1 := by
  rw [countP_eq_length_filter]
  have hnone : (ls.filter r.splits).Pairwise fun _ _ ↦ False := by
    refine (h.apart.filter _).imp_of_mem fun {a b} ha hb hapart ↦ ?_
    have hsplits : ∀ {held : Lock}, held ∈ ls.filter r.splits →
        held.owner = r.owner ∧ held.whole = r.whole ∧ held.start < r.start ∧ r.stop < held.stop := by
      intro held hheld
      have hfilter := (mem_filter.mp hheld).2
      simp only [Lock.splits, Bool.and_eq_true, decide_eq_true_eq, Lock.inWay_iff, Lock.meets_iff]
        at hfilter
      exact ⟨hfilter.1.1.1, hfilter.1.1.2.1, hfilter.1.2, hfilter.2⟩
    obtain ⟨howner, hkind, hstart, hstop⟩ := hsplits ha
    obtain ⟨howner', hkind', hstart', hstop'⟩ := hsplits hb
    have := hapart (howner.trans howner'.symm) (hkind.trans hkind'.symm)
    have := hwanted.nonempty
    omega
  cases hfilter : ls.filter r.splits with
  | nil => simp
  | cons a rest =>
    cases rest with
    | nil => simp
    | cons b rest =>
      rw [hfilter] at hnone
      exact (rel_of_pairwise_cons hnone mem_cons_self).elim

theorem length_le_carvePeak {fuel i : ℕ} {result : List Lock} (h : carve r fuel i ls = .ok result) :
    result.length ≤ carvePeak r fuel i ls := by
  induction fuel generalizing i ls with
  | zero => cases h
  | succ fuel ih =>
    unfold carve at h
    unfold carvePeak
    cases hheld : ls[i]? with
    | none =>
      rw [hheld] at h
      cases h
      exact le_rfl
    | some held =>
      rw [hheld] at h
      dsimp only at h ⊢
      split at h
      · rename_i hskip
        rw [if_pos hskip]
        exact ih h
      · rename_i hskip
        rw [if_neg hskip]
        exact (ih h).trans (le_max_right _ _)

/-- The loop ends, and with two places reserved neither it nor the push of `r` asks for more memory. -/
theorem LockTable.carve_reserved {ls reserved : Vec Lock} (h : LockTable ls.data) (hwanted : r.Proper)
    {grant : Option ℕ} (hreserve : ls.tryReserve 2 grant = some reserved) :
    ∃ result, carve r (3 * reserved.length + 1) 0 reserved.data = .ok result ∧
      carvePeak r (3 * reserved.length + 1) 0 reserved.data ≤ reserved.capacity ∧
      result.length + 1 ≤ reserved.capacity := by
  have hdata := Vec.tryReserve_data hreserve
  have hroom := Vec.tryReserve_room hreserve
  have hn := countP_le_length (p := r.inWay) (l := reserved.data)
  obtain ⟨result, hresult, -⟩ := carve_spec r (3 * reserved.length + 1) 0 reserved.data (by simp) (by
    rw [drop_zero, Vec.length_eq]
    omega)
  have hlen := length_le_carvePeak hresult
  have hpeak := carvePeak_le r (3 * reserved.length + 1) 0 reserved.data
  have hone := h.splits_le_one hwanted
  rw [← hdata] at hone hroom
  exact ⟨result, hresult, by omega, by omega⟩

end DotnetPal.Memfs
