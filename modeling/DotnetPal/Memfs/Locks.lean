import Mathlib.Logic.Relation
import DotnetPal.Memfs.Commits

/-!
# Lock tables

Giving up bytes is a loop over the table that takes every lock in the way out and appends what stays
of it beside those bytes. It ends, and what it leaves is the table without those locks and with
their pieces, in some order. A lock on a whole file leaves no piece.
-/

open Std List

namespace DotnetPal.Memfs

open Programs

/-! ## Removal by swapping -/

/-- The last element takes the place of the removed one; what comes before stays where it is. -/
theorem swapRemove_eq {α : Type} {list : List α} {i : ℕ} {removed : α} (h : list[i]? = some removed) :
    ∃ tail, swapRemove list i = list.take i ++ tail ∧ tail.Perm (list.drop (i + 1)) := by
  obtain ⟨hindex, _⟩ := List.getElem?_eq_some_iff.mp h
  have hne : list ≠ [] := ne_nil_of_length_pos (by omega)
  have hlast : list.getLast? = some (list.getLast hne) := getLast?_eq_some_getLast hne
  simp only [swapRemove, hlast]
  rcases Nat.lt_or_ge (i + 1) list.length with hmiddle | hend
  · have htail : list.drop (i + 1) ≠ [] := by simpa using hmiddle
    refine ⟨list.getLast hne :: (list.drop (i + 1)).dropLast, ?_, ?_⟩
    · rw [set_eq_take_append_cons_drop, if_pos hindex, dropLast_append_of_ne_nil (by simp),
        dropLast_cons_of_ne_nil htail]
    · have hgetLast : (list.drop (i + 1)).getLast htail = list.getLast hne := getLast_drop htail
      rw [← hgetLast]
      have hsplit := dropLast_append_getLast htail
      exact (perm_append_singleton _ _).symm.trans (.of_eq hsplit)
  · refine ⟨[], ?_, ?_⟩
    · have hone : i + 1 = list.length := by omega
      rw [append_nil, dropLast_eq_take, length_set, take_set_of_le (by omega)]
      congr 1
      omega
    · rw [drop_eq_nil_of_le hend]

variable {r : Lock}

namespace Lock

/-- A lock whose bytes `wanted` takes away from its owner. -/
def inWay (wanted held : Lock) : Bool := held.owner == wanted.owner && held.meets wanted

/-- What stays of a lock is not in the way any more. -/
theorem inWay_pieces {held piece : Lock} (h : piece ∈ held.pieces r) : inWay r piece = false := by
  unfold pieces at h
  rcases mem_append.mp h with h | h
  · split at h
    · rw [mem_singleton.mp h]
      simp [inWay, meets]
    · cases h
  · split at h
    · rw [mem_singleton.mp h]
      simp [inWay, meets]
    · cases h

theorem length_pieces_le (r held : Lock) : (held.pieces r).length ≤ 2 := by
  unfold pieces
  rw [length_append]
  split <;> split <;> simp

end Lock

/-! ## Carving -/

/-- A table without what is in the way, and with what stays of that. -/
def carved (wanted : Lock) (locks : List Lock) : List Lock :=
  (locks.filter fun held ↦ !wanted.inWay held) ++
    (locks.filter wanted.inWay).flatMap fun held ↦ held.pieces wanted

theorem carved_perm {a b : List Lock} (h : a.Perm b) : (carved r a).Perm (carved r b) :=
  (h.filter _).append ((h.filter _).flatMap_right _)

/-- A lock in the way is as good as its pieces. -/
theorem carved_pieces (r held : Lock) (rest : List Lock) (h : r.inWay held = true) :
    (carved r (held.pieces r ++ rest)).Perm (carved r (held :: rest)) := by
  have hnone : (held.pieces r).filter r.inWay = [] := by
    rw [filter_eq_nil_iff]
    intro piece hpiece
    simp [Lock.inWay_pieces hpiece]
  have hall : ((held.pieces r).filter fun j ↦ !r.inWay j) = held.pieces r := by
    rw [filter_eq_self]
    intro piece hpiece
    simp [Lock.inWay_pieces hpiece]
  simp only [carved, filter_append, hnone, hall, nil_append, filter_cons, h, if_true, Bool.not_true,
    Bool.false_eq_true, if_false, flatMap_cons, append_assoc]
  exact perm_append_comm_assoc _ _ _

/-- Each turn leaves less to look at: a lock in the way counts for the two pieces it may become. -/
theorem carve_spec (r : Lock) (fuel i : ℕ) (locks : List Lock)
    (hdone : ∀ held ∈ locks.take i, r.inWay held = false)
    (hfuel : (locks.length - i) + 2 * (locks.drop i).countP r.inWay < fuel) :
    ∃ result, carve r fuel i locks = .ok result ∧ result.Perm (carved r locks) := by
  induction fuel generalizing i locks with
  | zero => omega
  | succ fuel ih =>
    unfold carve
    cases hheld : locks[i]? with
    | none =>
      have hend : locks.length ≤ i := getElem?_eq_none_iff.mp hheld
      rw [take_of_length_le hend] at hdone
      refine ⟨locks, rfl, ?_⟩
      have hnone : locks.filter r.inWay = [] := by simpa using hdone
      have hall : (locks.filter fun held ↦ !r.inWay held) = locks := by simpa using hdone
      rw [carved, hnone, hall]
      simp
    | some held =>
      obtain ⟨hindex, hget⟩ := List.getElem?_eq_some_iff.mp hheld
      have hdrop : locks.drop i = held :: locks.drop (i + 1) := by
        rw [drop_eq_getElem_cons hindex, hget]
      have hn : (locks.drop i).countP r.inWay =
          (locks.drop (i + 1)).countP r.inWay + if r.inWay held then 1 else 0 := by
        rw [hdrop, countP_cons]
      dsimp only
      by_cases hway : r.inWay held = true
      · have hskip : ¬(held.owner ≠ r.owner ∨ !held.meets r) := by
          simpa [Lock.inWay] using hway
        rw [if_neg hskip]
        obtain ⟨tail, hswap, htail⟩ := swapRemove_eq hheld
        rw [if_pos hway] at hn
        have hlen := htail.length_eq
        have hpieces := Lock.length_pieces_le r held
        have hnothing : (held.pieces r).countP r.inWay = 0 := by
          rw [countP_eq_zero]
          intro piece hpiece
          simp [Lock.inWay_pieces hpiece]
        have hold : (locks.take i).length = i := length_take_of_le hindex.le
        rw [hswap, append_assoc]
        have hstill : ∀ j ∈ (locks.take i ++ (tail ++ held.pieces r)).take i, r.inWay j = false := by
          intro j hj
          rw [take_append_of_le_length hold.ge, take_take, Nat.min_self] at hj
          exact hdone j hj
        have hless : ((locks.take i ++ (tail ++ held.pieces r)).length - i) +
            2 * ((locks.take i ++ (tail ++ held.pieces r)).drop i).countP r.inWay < fuel := by
          rw [drop_append_of_le_length hold.ge, drop_eq_nil_of_le hold.le, nil_append,
            countP_append, hnothing, htail.countP_eq]
          simp only [length_append, length_drop, hold] at hlen ⊢
          omega
        obtain ⟨result, hresult, hperm⟩ := ih i _ hstill hless
        refine ⟨result, hresult, hperm.trans ?_⟩
        have hrest : (locks.take i ++ (tail ++ held.pieces r)).Perm
            (held.pieces r ++ (locks.take i ++ locks.drop (i + 1))) :=
          ((List.Perm.append_left _ (htail.append_right _)).trans
            (.of_eq (append_assoc _ _ _).symm)).trans perm_append_comm
        have hall : locks.Perm (held :: (locks.take i ++ locks.drop (i + 1))) := by
          nth_rewrite 1 [← take_append_drop i locks, hdrop]
          exact perm_middle
        exact ((carved_perm hrest).trans (carved_pieces r held _ hway)).trans (carved_perm hall).symm
      · have hskip : held.owner ≠ r.owner ∨ (!held.meets r) = true := by
          simpa [Lock.inWay, imp_iff_not_or] using hway
        rw [if_pos hskip]
        refine ih (i + 1) locks ?_ ?_
        · intro j hj
          rw [take_add_one, hheld] at hj
          rcases mem_append.mp hj with hj | hj
          · exact hdone j hj
          · rw [mem_singleton.mp hj]
            simpa using hway
        · rw [if_neg hway] at hn
          omega

/-- A lock of another owner stands in the way of `wanted`. -/
def Blocked (wanted : Lock) (locks : List Lock) : Prop :=
  ∃ held ∈ locks, held.owner ≠ wanted.owner ∧ held.meets wanted = true ∧
    (held.exclusive = true ∨ wanted.exclusive = true)

variable {locks : List Lock}

theorem blocked_iff :
    (locks.any fun held ↦ held.owner != r.owner && held.meets r && (held.exclusive || r.exclusive)) =
      true ↔ Blocked r locks := by
  simp [Blocked, and_assoc]

/-- A change of a lock table is blocked, finds no memory, or gives the owner `r` in place of what
is in the way. -/
theorem relocked_cases (grant : Option ℕ) (mode : Files.LockMode) (r : Lock) (locks : Vec Lock) :
    (relocked grant mode r locks = .error Error.wouldBlock ∧ mode ≠ .unlock ∧ Blocked r locks.data) ∨
      ¬(mode ≠ .unlock ∧ Blocked r locks.data) ∧ (relocked grant mode r locks = .error Error.outOfMemory ∨
          ∃ final, relocked grant mode r locks = .ok final ∧
            final.data.Perm (carved r locks.data ++ if mode = .unlock then [] else [r])) := by
  unfold relocked
  split
  · rename_i hblocked
    exact .inl ⟨rfl, hblocked.1, blocked_iff.mp hblocked.2⟩
  · rename_i hfree
    refine .inr ⟨fun hblocked ↦ hfree ⟨hblocked.1, blocked_iff.mpr hblocked.2⟩, ?_⟩
    split
    · exact .inl rfl
    · rename_i reserved hreserved
      have hdata := Vec.tryReserve_data hreserved
      have hbound : (reserved.data.length - 0) + 2 * (reserved.data.drop 0).countP r.inWay <
          3 * reserved.length + 1 := by
        have hn := countP_le_length (p := r.inWay) (l := reserved.data)
        rw [drop_zero, Vec.length_eq]
        omega
      obtain ⟨result, hresult, hperm⟩ := carve_spec r _ 0 reserved.data (by simp) hbound
      rw [hdata] at hperm
      refine .inr ⟨_, by rw [hresult]; rfl, ?_⟩
      split
      · simpa using hperm
      · exact hperm.append_right _

/-! ## What an owner does to a table -/

/-- A lock covers some bytes, and a lock on a whole file covers all of it. -/
structure Lock.Proper (lock : Lock) : Prop where
  nonempty : lock.start < lock.stop
  whole : lock.whole = true → lock.start = 0 ∧ lock.stop = Files.wholeEnd

/-- An owner gives up the bytes of a lock, or takes them where nothing is in the way. -/
inductive LockStep (owner : ℕ) (before : List Lock) : List Lock → Prop
  | give {wanted : Lock} {after : List Lock} : wanted.owner = owner → wanted.Proper →
      after.Perm (carved wanted before) → LockStep owner before after
  | take {wanted : Lock} {after : List Lock} : wanted.owner = owner → wanted.Proper → ¬Blocked wanted before →
      after.Perm (carved wanted before ++ [wanted]) → LockStep owner before after

theorem LockStep.of_relocked {mode : Files.LockMode} {old new : List Lock}
    (hproper : r.Proper) (hfree : ¬(mode ≠ .unlock ∧ Blocked r old))
    (hperm : new.Perm (carved r old ++ if mode = .unlock then [] else [r])) :
    LockStep r.owner old new := by
  by_cases hmode : mode = .unlock
  · rw [if_pos hmode, append_nil] at hperm
    exact .give rfl hproper hperm
  · rw [if_neg hmode] at hperm
    exact .take rfl hproper (fun hblocked ↦ hfree ⟨hmode, hblocked⟩) hperm

/-! ## Locks on whole files -/

/-- Locks on a whole file are on all of it. -/
def WholeLocks (locks : List Lock) : Prop :=
  ∀ held ∈ locks, held.whole = true → held.start = 0 ∧ held.stop = Files.wholeEnd

theorem WholeLocks.pieces {held : Lock}
    (hheld : held.whole = true → held.start = 0 ∧ held.stop = Files.wholeEnd)
    (hwanted : r.whole = true → r.start = 0 ∧ r.stop = Files.wholeEnd)
    (hway : r.inWay held = true) (hwhole : held.whole = true) : held.pieces r = [] := by
  have hsame : r.whole = true := by
    simp only [Lock.inWay, Lock.meets, Bool.and_eq_true, beq_iff_eq] at hway
    rw [← hway.2.1.1]
    exact hwhole
  simp [Lock.pieces, hheld hwhole, hwanted hsame]

/-- The pieces are of range locks only. -/
theorem WholeLocks.carved (h : WholeLocks locks)
    (hwanted : r.whole = true → r.start = 0 ∧ r.stop = Files.wholeEnd) :
    WholeLocks (carved r locks) := by
  intro held hheld hwhole
  rcases mem_append.mp hheld with hheld | hheld
  · exact h held (mem_filter.mp hheld).1 hwhole
  · obtain ⟨source, hsource, hpiece⟩ := mem_flatMap.mp hheld
    obtain ⟨hmem, hway⟩ := mem_filter.mp hsource
    have hkind : source.whole = held.whole := by
      simp only [Lock.pieces, mem_append] at hpiece
      rcases hpiece with hpiece | hpiece
      · split at hpiece
        · rw [mem_singleton.mp hpiece]
        · cases hpiece
      · split at hpiece
        · rw [mem_singleton.mp hpiece]
        · cases hpiece
    rw [WholeLocks.pieces (h source hmem) hwanted hway (hkind.trans hwhole)] at hpiece
    cases hpiece

/-- What an owner does keeps locks on whole files whole. -/
theorem WholeLocks.step {owner : ℕ} {old new : List Lock} (h : WholeLocks old)
    (hstep : LockStep owner old new) : WholeLocks new := by
  intro held hheld
  cases hstep with
  | give _ hproper hperm => exact h.carved hproper.whole held (hperm.mem_iff.mp hheld)
  | take _ hproper _ hperm =>
    rcases mem_append.mp (hperm.mem_iff.mp hheld) with hmem | hmem
    · exact h.carved hproper.whole held hmem
    · rw [mem_singleton.mp hmem]
      exact hproper.whole

theorem WholeLocks.steps {owner : ℕ} {old new : List Lock} (h : WholeLocks old)
    (hsteps : Relation.ReflTransGen (LockStep owner) old new) : WholeLocks new := by
  induction hsteps with
  | refl => exact h
  | tail _ hstep ih => exact ih.step hstep

/-- What a handle gives up with its lock on a whole file is that lock and nothing else. -/
theorem WholeLocks.carved_whole (h : WholeLocks locks) (file : ℕ) (mode : Files.LockMode) :
    Memfs.carved (Files.wholeLock file mode) locks = locks.filter fun held ↦
      !(held.owner == file && held.whole) := by
  have hway : ∀ held ∈ locks, (Files.wholeLock file mode).inWay held =
    (held.owner == file && held.whole) := by
    intro held hheld
    cases hwhole : held.whole with
    | false => simp [Lock.inWay, Lock.meets, Files.wholeLock, hwhole]
    | true =>
      obtain ⟨hstart, hstop⟩ := h held hheld hwhole
      simp [Lock.inWay, Lock.meets, Files.wholeLock, hwhole, hstart, hstop, Files.wholeEnd]
  have hpieces : (locks.filter (Files.wholeLock file mode).inWay).flatMap
      (fun held ↦ held.pieces (Files.wholeLock file mode)) = [] := by
    rw [flatMap_eq_nil_iff]
    intro held hheld
    obtain ⟨hmem, hin⟩ := mem_filter.mp hheld
    have hboth := hway held hmem
    rw [hin] at hboth
    have hwhole : held.whole = true := by simpa using (Bool.and_eq_true _ _ ▸ hboth.symm : _ ∧ _).2
    exact WholeLocks.pieces (h held hmem) (fun _ ↦ ⟨rfl, rfl⟩) hin hwhole
  rw [Memfs.carved, hpieces, append_nil]
  exact filter_congr fun held hheld ↦ by rw [hway held hheld]

end DotnetPal.Memfs
