import DesignCompiler.Number.Binary64
import Mathlib.Algebra.Order.Field.Power
import Mathlib.Algebra.Order.Field.Rat

/-!
# DesignCompiler — the numbers that binary64 numbers are

A finite binary64 number is a rational number, and the comparisons made on its bits are those of
rational numbers. Both zeros are the number zero.

* `Binary64.value` — the rational number;
* `isZero_iff`, `exceeds_iff`, `isBelowZero_iff` — the single comparisons;
* `isWithin_iff` — the check that lengths go through.
-/

namespace DesignCompiler.Binary64

/-- The magnitude of a finite number: its significand, scaled by the power of two. -/
def magnitude (x : Binary64) : ℚ :=
  x.significand * 2 ^ x.exponent

/-- The rational number that a finite number is. -/
def value (x : Binary64) : ℚ :=
  if x.isNegative then -x.magnitude else x.magnitude

variable {x : Binary64}

/-! ## Magnitudes -/

theorem magnitude_nonneg (x : Binary64) : 0 ≤ x.magnitude :=
  mul_nonneg (Nat.cast_nonneg _) (zpow_nonneg zero_le_two _)

theorem abs_value (x : Binary64) : |x.value| = x.magnitude := by
  unfold value
  split
  · rw [abs_neg, abs_of_nonneg (magnitude_nonneg x)]
  · rw [abs_of_nonneg (magnitude_nonneg x)]

/-- A power of two as a fraction, of which one side is one. -/
theorem two_zpow (e : Int) : (2 : ℚ) ^ e = 2 ^ e.toNat / 2 ^ (-e).toNat := by
  have he : e = (e.toNat : Int) - ((-e).toNat : Int) := by omega
  conv_lhs => rw [he]
  rw [zpow_sub₀ two_ne_zero, zpow_natCast, zpow_natCast]

theorem magnitude_eq (x : Binary64) : x.magnitude = x.numerator / x.denominator := by
  have hnumerator : (x.numerator : ℚ) = x.significand * 2 ^ x.exponent.toNat := by
    simp [numerator]
  have hdenominator : (x.denominator : ℚ) = 2 ^ (-x.exponent).toNat := by
    simp [denominator]
  rw [hnumerator, hdenominator, magnitude, two_zpow, mul_div_assoc]

theorem significand_eq_zero_iff : x.significand = 0 ↔ x.magnitudeBits = 0 := by
  unfold significand exponentField fractionField
  have hsplit := Nat.div_add_mod x.magnitudeBits (Nat.pow 2 52)
  have hpos : 0 < Nat.pow 2 52 := by decide
  split
  · rename_i hexponent
    rw [hexponent] at hsplit
    omega
  · rename_i hexponent
    constructor
    · omega
    · intro hbits
      rw [hbits, Nat.zero_div] at hexponent
      exact absurd rfl hexponent

theorem isZero_iff_magnitude : x.isZero = true ↔ x.magnitude = 0 := by
  have hpower : (2 : ℚ) ^ x.exponent ≠ 0 := zpow_ne_zero _ two_ne_zero
  rw [isZero, beq_iff_eq, ← significand_eq_zero_iff, magnitude, mul_eq_zero, or_iff_left hpower,
    Nat.cast_eq_zero]

/-! ## Comparisons -/

theorem isZero_iff : x.isZero = true ↔ x.value = 0 := by
  rw [isZero_iff_magnitude, ← abs_value, abs_eq_zero]

theorem exceeds_iff {n : Nat} : x.exceeds n = true ↔ n < |x.value| := by
  have hpos : (0 : ℚ) < x.denominator := Nat.cast_pos.mpr x.denominator_pos
  rw [exceeds, decide_eq_true_eq, abs_value, magnitude_eq, lt_div_iff₀ hpos]
  exact_mod_cast Iff.rfl

/-- The negative zero is not below zero. -/
theorem isBelowZero_iff : x.isBelowZero = true ↔ x.value < 0 := by
  rw [isBelowZero, Bool.and_eq_true, Bool.not_eq_true', ← Bool.not_eq_true, isZero_iff_magnitude,
    ← ne_eq, ← (magnitude_nonneg x).lt_iff_ne']
  unfold value
  split
  · rename_i hnegative
    rw [neg_lt_zero]
    exact and_iff_right hnegative
  · rename_i hnegative
    exact ⟨fun h => absurd h.1 hnegative, fun h => absurd h (magnitude_nonneg x).not_gt⟩

/-- A checked length is a finite number from zero to the bound. -/
theorem isWithin_iff {n : Nat} :
    x.isWithin n = true ↔ x.isFinite = true ∧ 0 ≤ x.value ∧ x.value ≤ n := by
  rw [isWithin, Bool.and_eq_true, Bool.and_eq_true, Bool.not_eq_true', Bool.not_eq_true',
    ← Bool.not_eq_true, ← Bool.not_eq_true, isBelowZero_iff, exceeds_iff, not_lt, not_lt, and_assoc]
  refine and_congr_right fun _ => and_congr_right fun hnonneg => ?_
  rw [abs_of_nonneg hnonneg]

end DesignCompiler.Binary64
