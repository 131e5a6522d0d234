import Mathlib.Data.BitVec

/-!
# Masks of single bits

Programs keep sets of flags in a word, ask for one of them by an `and` with a mask of one bit
and put words together from the flags they want. The lemmas here turn such questions into
questions about the bits.
-/

namespace DotnetPal.Flags

variable {w : ℕ} {x y : BitVec w} {i j : ℕ}

theorem eq_zero_iff : x = 0 ↔ ∀ i, x.getLsbD i = false := by
  refine ⟨fun h i ↦ by simp [h], fun h ↦ BitVec.eq_of_getLsbD_eq fun i _ ↦ ?_⟩
  simp [h i]

theorem ne_zero_iff : x ≠ 0 ↔ ∃ i, x.getLsbD i = true := by
  rw [Ne, eq_zero_iff]
  simp

/-- A mask asks for its bit. -/
theorem and_twoPow_eq_zero_iff (hi : i < w) : x &&& BitVec.twoPow w i = 0 ↔ x.getLsbD i = false := by
  rw [eq_zero_iff]
  refine ⟨fun h ↦ ?_, fun h j ↦ ?_⟩
  · simpa [BitVec.getLsbD_twoPow, hi] using h i
  · rw [BitVec.getLsbD_and, BitVec.getLsbD_twoPow]
    by_cases hij : i = j
    · rw [← hij, h, Bool.false_and]
    · simp [hij]

/-- A word that misses a mask misses every mask within it. -/
theorem and_eq_zero_of_within {mask : BitVec w} (h : x &&& mask = 0) (hy : mask &&& y = y) :
    x &&& y = 0 := by
  calc
    x &&& y = x &&& mask &&& y := by rw [BitVec.and_assoc, hy]
    _ = 0 := by rw [h]; exact BitVec.zero_and

/-- A flag that is wanted or not. -/
theorem getLsbD_ite_twoPow (hi : i < w) (condition : Bool) :
    (if condition = true then BitVec.twoPow w i else 0).getLsbD j = (decide (i = j) && condition) := by
  cases condition with
  | true => simp [BitVec.getLsbD_twoPow, hi]
  | false => simp

end DotnetPal.Flags
