import Mathlib.Algebra.BigOperators.Group.List.Basic
import Mathlib.Algebra.Order.Ring.Nat

/-!
# Spans of addresses

An allocator keeps spans of addresses in lists. `load` counts the spans of a list that have a byte,
so one equation says that spans share no byte and which bytes they have, and splitting, joining and
moving spans are sums. A list of spans is gapped if it is in the order of the addresses, has no
empty span and leaves a gap between any two, as a list that joins neighbours does.
-/

open List

namespace DotnetPal

structure Span where
  base : ℕ
  size : ℕ
  deriving DecidableEq, Repr

namespace Span

/-- The address behind the span. -/
def stop (span : Span) : ℕ := span.base + span.size

def Has (span : Span) (byte : ℕ) : Prop := span.base ≤ byte ∧ byte < span.stop

instance (span : Span) (byte : ℕ) : Decidable (span.Has byte) := inferInstanceAs (Decidable (_ ∧ _))

/-- One for a byte of the span and zero for any other. -/
def weight (span : Span) (byte : ℕ) : ℕ := if span.Has byte then 1 else 0

/-- A span is the sum of the two parts it is cut into. -/
theorem weight_add (base a b byte : ℕ) :
    weight ⟨base, a + b⟩ byte = weight ⟨base, a⟩ byte + weight ⟨base + a, b⟩ byte := by
  unfold weight
  split_ifs <;> simp only [Has, stop] at * <;> omega

/-- A span grows by the span that begins where it ends. -/
theorem weight_extend {span : Span} {base : ℕ} (h : span.stop = base) (size byte : ℕ) :
    weight ⟨span.base, span.size + size⟩ byte = span.weight byte + weight ⟨base, size⟩ byte := by
  subst h
  exact weight_add span.base span.size size byte

theorem weight_join {span : Span} {base size : ℕ} (h : span.base = base + size) (byte : ℕ) :
    weight ⟨base, size + span.size⟩ byte = weight ⟨base, size⟩ byte + span.weight byte := by
  rw [weight_add, ← h]

theorem weight_le_one (span : Span) (byte : ℕ) : span.weight byte ≤ 1 := by
  unfold weight
  split <;> omega

theorem weight_zero (base byte : ℕ) : weight ⟨base, 0⟩ byte = 0 := by
  refine if_neg fun hbyte ↦ ?_
  simp only [Has, stop] at hbyte
  omega

end Span

namespace Spans

open DotnetPal.Span

/-- How many of the spans have the byte. -/
def load (spans : List Span) (byte : ℕ) : ℕ := (spans.map (·.weight byte)).sum

variable {spans before after : List Span} {span : Span} {byte : ℕ}

@[simp]
theorem load_nil : load [] byte = 0 := rfl

@[simp]
theorem load_cons : load (span :: spans) byte = span.weight byte + load spans byte := rfl

@[simp]
theorem load_append : load (before ++ after) byte = load before byte + load after byte := by
  simp [load]

theorem load_perm (h : before.Perm after) : load before byte = load after byte := (h.map _).sum_eq

/-- A byte of one of the spans is counted. -/
theorem load_pos (hspan : span ∈ spans) (hbyte : span.Has byte) : 0 < load spans byte := by
  obtain ⟨before, after, rfl⟩ := append_of_mem hspan
  simp only [load_append, load_cons, weight, if_pos hbyte]
  omega

theorem exists_of_load_pos (h : 0 < load spans byte) : ∃ span ∈ spans, span.Has byte := by
  induction spans with
  | nil => simp at h
  | cons span spans ih =>
    by_cases hbyte : span.Has byte
    · exact ⟨span, mem_cons_self, hbyte⟩
    · rw [load_cons, weight, if_neg hbyte, Nat.zero_add] at h
      obtain ⟨j, hj, hbyte⟩ := ih h
      exact ⟨j, mem_cons_of_mem _ hj, hbyte⟩

/-- Every byte of the span is in exactly one of the spans, and no other byte is in any of them. -/
def Tiles (spans : List Span) (span : Span) : Prop := ∀ byte, load spans byte = span.weight byte

/-- Spans in the order of their addresses, none of them empty, with a gap between any two. -/
structure Gapped (spans : List Span) : Prop where
  nonempty : ∀ span ∈ spans, 0 < span.size
  ordered : spans.Pairwise fun first second ↦ first.stop < second.base

theorem Gapped.nil : Gapped [] := ⟨by simp, .nil⟩

theorem gapped_append : Gapped (before ++ after) ↔
    Gapped before ∧ Gapped after ∧ ∀ a ∈ before, ∀ b ∈ after, a.stop < b.base := by
  constructor
  · rintro ⟨hnonempty, hordered⟩
    obtain ⟨hold, hnew, hcross⟩ := pairwise_append.mp hordered
    exact ⟨⟨fun span hspan ↦ hnonempty span (mem_append_left _ hspan), hold⟩,
      ⟨fun span hspan ↦ hnonempty span (mem_append_right _ hspan), hnew⟩, hcross⟩
  · rintro ⟨hold, hnew, hcross⟩
    refine ⟨fun span hspan ↦ ?_, pairwise_append.mpr ⟨hold.ordered, hnew.ordered, hcross⟩⟩
    exact (mem_append.mp hspan).elim (hold.nonempty span) (hnew.nonempty span)

theorem gapped_cons :
    Gapped (span :: spans) ↔ 0 < span.size ∧ Gapped spans ∧ ∀ j ∈ spans, span.stop < j.base := by
  constructor
  · rintro ⟨hnonempty, hordered⟩
    obtain ⟨hspan, hspans⟩ := pairwise_cons.mp hordered
    exact ⟨hnonempty span mem_cons_self, ⟨fun j hj ↦ hnonempty j (mem_cons_of_mem _ hj), hspans⟩, hspan⟩
  · rintro ⟨hsize, hspans, hj⟩
    refine ⟨fun j hmem ↦ ?_, pairwise_cons.mpr ⟨hj, hspans.ordered⟩⟩
    rcases mem_cons.mp hmem with rfl | hmem
    · exact hsize
    · exact hspans.nonempty j hmem

/-- A span fits between two parts of a gapped list if it leaves a gap to either. -/
theorem Gapped.middle (hold : Gapped before) (hnew : Gapped after) (hsize : 0 < span.size)
    (hleft : ∀ a ∈ before, a.stop < span.base) (hright : ∀ b ∈ after, span.stop < b.base) :
    Gapped (before ++ span :: after) := by
  refine gapped_append.mpr ⟨hold, gapped_cons.mpr ⟨hsize, hnew, hright⟩, fun a ha b hb ↦ ?_⟩
  rcases mem_cons.mp hb with rfl | hb
  · exact hleft a ha
  · have hbase := hleft a ha
    have hstop := hright b hb
    have hend : span.base ≤ span.stop := Nat.le_add_right _ _
    omega

theorem Gapped.erase (h : Gapped (before ++ span :: after)) : Gapped (before ++ after) := by
  have hsub : (before ++ after).Sublist (before ++ span :: after) :=
    (sublist_cons_self span after).append_left before
  exact ⟨fun j hj ↦ h.nonempty j (hsub.subset hj), h.ordered.sublist hsub⟩

/-- In a gapped list every byte is in one span at most. -/
theorem Gapped.load_le_one (h : Gapped spans) (byte : ℕ) : load spans byte ≤ 1 := by
  induction spans with
  | nil => simp
  | cons span spans ih =>
    obtain ⟨_, hspans, hj⟩ := gapped_cons.mp h
    rw [load_cons, weight]
    split
    · rename_i hbyte
      have hnone : ¬0 < load spans byte := by
        intro hpos
        obtain ⟨j, hmem, hin⟩ := exists_of_load_pos hpos
        have hold := hj j hmem
        have hend := hbyte.2
        have hbegin := hin.1
        omega
      omega
    · rw [Nat.zero_add]
      exact ih hspans

/-- The other spans of a gapped list have none of the bytes of one of them. -/
theorem Gapped.load_erase (h : Gapped (before ++ span :: after)) (hbyte : span.Has byte) :
    load (before ++ after) byte = 0 := by
  have hone := h.load_le_one byte
  simp only [load_append, load_cons, weight, if_pos hbyte] at hone ⊢
  omega

end Spans

end DotnetPal
