import Mathlib.Data.Nat.Bitwise
import Mathlib.Order.Bounds.Defs

/-!
# Going up to a multiple

A value goes up to a multiple of a power of two when one less than the power is added and the low
bits are cleared.
-/

namespace DotnetPal.Alignments

variable {value step : ℕ}

/-- Clearing the low bits is going down to a multiple. -/
theorem and_mask_eq {width exponent : ℕ} (hv : value < 2 ^ width) :
    value &&& (2 ^ width - 1 - (2 ^ exponent - 1)) = value / 2 ^ exponent * 2 ^ exponent := by
  have hpos : 0 < 2 ^ exponent := Nat.two_pow_pos _
  rcases Nat.le_total exponent width with hle | hge
  · have hpower : 2 ^ exponent ≤ 2 ^ width := Nat.pow_le_pow_right (by decide) hle
    apply Nat.eq_of_testBit_eq
    intro bit
    rw [show 2 ^ width - 1 - (2 ^ exponent - 1) =
      2 ^ width - ((2 ^ exponent - 1) + 1) by omega, Nat.testBit_and,
      Nat.testBit_two_pow_sub_succ (by omega), Nat.testBit_two_pow_sub_one, Nat.testBit_mul_two_pow,
      Nat.testBit_div_two_pow]
    by_cases hbit : exponent ≤ bit
    · rw [Nat.sub_add_cancel hbit]
      by_cases hhigh : bit < width
      · simp [hbit, hhigh]
      · have hzero : value.testBit bit = false :=
          Nat.testBit_lt_two_pow (hv.trans_le (Nat.pow_le_pow_right (by decide) (Nat.not_lt.mp hhigh)))
        simp [hzero]
    · simp [hbit, Nat.not_le.mp hbit]
  · have hlt : 2 ^ width ≤ 2 ^ exponent := Nat.pow_le_pow_right (by decide) hge
    rw [Nat.div_eq_of_lt (hv.trans_le hlt), show 2 ^ width - 1 - (2 ^ exponent - 1) = 0 by omega]
    simp

theorem isLeast_roundUp (hstep : 0 < step) :
    IsLeast {multiple | step ∣ multiple ∧ value ≤ multiple} ((value + (step - 1)) / step * step) := by
  have hdivision := Nat.div_add_mod (value + (step - 1)) step
  have hless := Nat.mod_lt (value + (step - 1)) hstep
  rw [Nat.mul_comm] at hdivision
  refine ⟨⟨Nat.dvd_mul_left _ _, by omega⟩, ?_⟩
  rintro _ ⟨⟨factor, rfl⟩, hle⟩
  rw [Nat.mul_comm step factor] at hle ⊢
  refine Nat.mul_le_mul_right _ (Nat.le_of_lt_succ ?_)
  rw [Nat.div_lt_iff_lt_mul hstep, Nat.succ_mul]
  omega

theorem roundUp_lt (hstep : 0 < step) : (value + (step - 1)) / step * step < value + step := by
  have hle := Nat.div_mul_le_self (value + (step - 1)) step
  omega

end DotnetPal.Alignments
