import DesignCompiler.Proofs.Number.Rounding
import DesignCompiler.Stylesheet.Value

/-!
# DesignCompiler — numbers in hundredths

A number of a stylesheet is rounded to hundredths in binary64 arithmetic, and its hundredths are counted
then. Every step before the count is rounded as well. Up to 2 ^ 49 hundredths this does not change the
count, and the numbers above are no more precise than that.

* `roundHundredths_of_overflow`, `roundHundredths_of_isFinite` — the two ways to round;
* `RoundingSteps` — the steps of the second one, and what they do together;
* `IsRounded`, `isRounded_roundHundredths` — the rounded number and the count of its hundredths.
-/

namespace DesignCompiler.Stylesheet

/-! ## The steps -/

/-- A hundred times a number. -/
def hundredfold (x : Binary64) : Binary64 :=
  x.mul (.ofNat 100)

theorem ofNat_hundred : Binary64.ofNat 100 = ⟨0x4059000000000000⟩ := by decide +kernel

theorem magnitude_hundred : (Binary64.ofNat 100).magnitude = 100 := by
  have hsignificand : (Binary64.ofNat 100).significand = 100 * 2 ^ 46 := by
    rw [ofNat_hundred]
    decide +kernel
  have hexponent : (Binary64.ofNat 100).exponent = -46 := by
    rw [ofNat_hundred]
    decide +kernel
  rw [Binary64.magnitude, hsignificand, hexponent]
  norm_num

theorem numerator_hundred : 0 < (Binary64.ofNat 100).numerator := by
  rw [ofNat_hundred]
  decide +kernel

theorem isNegative_hundred : (Binary64.ofNat 100).isNegative = false :=
  Binary64.isNegative_ofRatio false 100 1

variable {x : Binary64}

theorem isNegative_hundredfold (x : Binary64) : (hundredfold x).isNegative = x.isNegative := by
  rw [hundredfold, Binary64.mul, Binary64.isNegative_ofRatio, isNegative_hundred, Bool.bne_false]

/-- The nearest integer to a hundred times a number, as a binary64 number. -/
def wholeHundredfold (x : Binary64) : Binary64 :=
  Binary64.ofRatio x.isNegative (hundredfold x).roundMagnitude 1

theorem roundHundredths_of_isFinite (hx : x.isFinite = true)
    (hfold : (hundredfold x).isFinite = true) :
    roundHundredths x = (wholeHundredfold x).div (.ofNat 100) := by
  have hsign := isNegative_hundredfold x
  rw [hundredfold] at hfold hsign
  simp only [roundHundredths, wholeHundredfold, hundredfold, hx, hfold, hsign, Bool.not_true,
    Bool.false_eq_true, if_true, if_false]

theorem roundHundredths_of_overflow (hx : x.isFinite = true)
    (hfold : (hundredfold x).isFinite = false) : roundHundredths x = x := by
  rw [hundredfold] at hfold
  simp only [roundHundredths, hx, hfold, Bool.not_true, Bool.false_eq_true, if_false]

/-- Only numbers above one have no finite hundredfold. -/
theorem one_le_of_overflow (hfold : (hundredfold x).isFinite = false) : 1 ≤ 100 * x.magnitude := by
  by_contra hsmall
  have hone : (1 : ℚ) ≤ Binary64.largest := by
    exact_mod_cast Binary64.largest_pos
  have hfinite : (hundredfold x).isFinite = true := by
    refine Binary64.isFinite_mul ?_
    rw [magnitude_hundred]
    linarith
  rw [hfinite] at hfold
  cases hfold

/-- A count is the nearest one to the hundredths. -/
theorem hundredths_near (x : Binary64) : |(hundredths x : ℚ) - 100 * x.magnitude| ≤ 1 / 2 := by
  have hnear : |(hundredths x : ℚ) - (100 * x.numerator : Nat) / x.denominator| ≤ 1 / 2 :=
    Binary64.roundQuotient_near x.denominator_pos
  rwa [Nat.cast_mul, mul_div_assoc, ← Binary64.magnitude_eq] at hnear

theorem hundredths_of_isZero (hzero : x.isZero = true) : hundredths x = 0 := by
  have hnear := (abs_le.mp (hundredths_near x)).2
  rw [Binary64.isZero_iff_magnitude.mp hzero] at hnear
  have hone : (hundredths x : ℚ) < 1 := by linarith
  exact Nat.cast_lt_one.mp hone

/-! ## What the steps do together -/

/-- The hundredfold `w` of a number, rounded to `u`; the integer `k` nearest to that, rounded to `a`; a
hundredth of `a`, rounded to `r`; and the count `n` of the hundredths of `r`. The error that tiny numbers
have is `δ`. -/
structure RoundingSteps (w u a r δ : ℚ) (k n : Nat) : Prop where
  nonneg : 0 ≤ w
  tiny : 0 ≤ δ ∧ δ ≤ 1 / 2 ^ 60
  scaled : |u - w| ≤ w / 2 ^ 53 + δ
  rounded : |(k : ℚ) - u| ≤ 1 / 2
  stored : |a - k| ≤ k / 2 ^ 53 + δ
  divided : |r - a / 100| ≤ a / 100 / 2 ^ 53 + δ
  counted : |(n : ℚ) - 100 * r| ≤ 1 / 2

namespace RoundingSteps

variable {w u a r δ : ℚ} {k n : Nat}

/-- The two steps behind the rounding to an integer change little. -/
theorem divided_near (h : RoundingSteps w u a r δ k n) : |100 * r - k| ≤ k / 2 ^ 51 + 1 / 2 ^ 52 := by
  have hk : (0 : ℚ) ≤ k := Nat.cast_nonneg k
  obtain ⟨-, htiny⟩ := h.tiny
  obtain ⟨hstored, hstored'⟩ := abs_le.mp h.stored
  obtain ⟨hdivided, hdivided'⟩ := abs_le.mp h.divided
  rw [abs_le]
  constructor
  · linarith
  · linarith

/-- A count that is not huge is the integer. -/
theorem count_eq (h : RoundingSteps w u a r δ k n) (hk : k ≤ 2 ^ 49) : n = k := by
  have hk : (k : ℚ) ≤ 2 ^ 49 := by exact_mod_cast hk
  obtain ⟨hnear, hnear'⟩ := abs_le.mp h.divided_near
  obtain ⟨hcounted, hcounted'⟩ := abs_le.mp h.counted
  -- the two integers are less than one apart
  have hbelow : (n : ℚ) < k + 1 := by linarith
  have habove : (k : ℚ) < n + 1 := by linarith
  have hbelow : n < k + 1 := by exact_mod_cast hbelow
  have habove : k < n + 1 := by exact_mod_cast habove
  omega

theorem count_pos (h : RoundingSteps w u a r δ k n) (hk : 0 < k) : 0 < n := by
  rcases Nat.lt_or_ge (2 ^ 49) k with hhuge | hsmall
  · have hhuge : (2 : ℚ) ^ 49 < k := by exact_mod_cast hhuge
    obtain ⟨hnear, -⟩ := abs_le.mp h.divided_near
    obtain ⟨hcounted, -⟩ := abs_le.mp h.counted
    have hcount : (0 : ℚ) < n := by linarith
    exact_mod_cast hcount
  · rwa [h.count_eq hsmall]

/-- The count is the nearest one, up to the precision of binary64 numbers. -/
theorem count_near (h : RoundingSteps w u a r δ k n) : |(n : ℚ) - w| ≤ 1 / 2 + w / 2 ^ 49 := by
  have hw := h.nonneg
  obtain ⟨htiny, htiny'⟩ := h.tiny
  obtain ⟨hscaled, hscaled'⟩ := abs_le.mp h.scaled
  obtain ⟨hrounded, hrounded'⟩ := abs_le.mp h.rounded
  rcases Nat.lt_or_ge (2 ^ 49) k with hhuge | hsmall
  · have hhuge : (2 : ℚ) ^ 49 < k := by exact_mod_cast hhuge
    obtain ⟨hnear, hnear'⟩ := abs_le.mp h.divided_near
    obtain ⟨hcounted, hcounted'⟩ := abs_le.mp h.counted
    -- the half that counting adds is less than the precision of such a number
    rw [abs_le]
    constructor
    · linarith
    · linarith
  · rw [h.count_eq hsmall, abs_le]
    rcases le_or_gt w (1 / 4) with hquarter | hquarter
    · -- the error of a tiny number does not count where nothing is left
      have hone : (k : ℚ) < 1 := by linarith
      rw [Nat.cast_lt_one.mp hone, Nat.cast_zero]
      constructor
      · linarith
      · linarith
    · constructor
      · linarith
      · linarith

end RoundingSteps

/-! ## The rounded number -/

theorem isFinite_wholeHundredfold (hfold : (hundredfold x).isFinite = true) :
    (wholeHundredfold x).isFinite = true := by
  refine Binary64.isFinite_ofRatio Nat.one_pos ?_
  rw [Nat.cast_one, div_one, Nat.cast_le]
  exact Binary64.roundMagnitude_le (Binary64.magnitude_le_largest hfold)

theorem isFinite_divided (hfold : (hundredfold x).isFinite = true) :
    ((wholeHundredfold x).div (.ofNat 100)).isFinite = true := by
  have hlarge := Binary64.magnitude_le_largest (isFinite_wholeHundredfold hfold)
  have hnonneg := (wholeHundredfold x).magnitude_nonneg
  refine Binary64.isFinite_div numerator_hundred ?_
  rw [magnitude_hundred]
  linarith

theorem roundingSteps (hfold : (hundredfold x).isFinite = true) :
    RoundingSteps (100 * x.magnitude) (hundredfold x).magnitude (wholeHundredfold x).magnitude
      ((wholeHundredfold x).div (.ofNat 100)).magnitude (2 ^ (-1075 : Int)) (hundredfold x).roundMagnitude
      (hundredths ((wholeHundredfold x).div (.ofNat 100))) where
  nonneg := mul_nonneg (by norm_num) x.magnitude_nonneg
  tiny := by
    refine ⟨by positivity, ?_⟩
    rw [one_div, ← zpow_natCast, ← zpow_neg]
    exact zpow_le_zpow_right₀ one_le_two (by norm_num)
  scaled := by
    have hnear := Binary64.mul_near hfold
    rwa [magnitude_hundred, mul_comm x.magnitude] at hnear
  rounded := Binary64.roundMagnitude_near _
  stored := by
    have hnear := Binary64.ofRatio_near Nat.one_pos (isFinite_wholeHundredfold hfold)
    rwa [Nat.cast_one, div_one] at hnear
  divided := by
    have hnear := Binary64.div_near numerator_hundred (isFinite_divided hfold)
    rwa [magnitude_hundred] at hnear
  counted := hundredths_near _

theorem isZero_divided (hk : (hundredfold x).roundMagnitude = 0) :
    ((wholeHundredfold x).div (.ofNat 100)).isZero = true := by
  have hzero : (wholeHundredfold x).numerator = 0 := by
    have hmagnitude : (wholeHundredfold x).significand = 0 := by
      rw [Binary64.significand_eq_zero_iff, ← beq_iff_eq, ← Binary64.isZero, wholeHundredfold, hk]
      exact Binary64.isZero_ofRatio _ _
    rw [Binary64.numerator, hmagnitude, Nat.zero_mul]
  rw [Binary64.div, hzero, Nat.zero_mul]
  exact Binary64.isZero_ofRatio _ _

/-- A number that stands for `x` in a stylesheet. -/
structure IsRounded (x r : Binary64) : Prop where
  finite : r.isFinite = true
  sign : r.isNegative = x.isNegative
  /-- no number has hundredths that are lost -/
  zero_iff : r.isZero = true ↔ hundredths r = 0
  near : |(hundredths r : ℚ) - 100 * x.magnitude| ≤ 1 / 2 + 100 * x.magnitude / 2 ^ 49

/-- **Rounding to hundredths.** Every finite number is rounded to a finite one of its sign, and the
hundredths of that are the nearest ones. -/
theorem isRounded_roundHundredths (hx : x.isFinite = true) : IsRounded x (roundHundredths x) := by
  cases hfold : (hundredfold x).isFinite with
  -- Three roundings, each close to what it rounds.
  | true =>
    have hsteps := roundingSteps hfold
    rw [roundHundredths_of_isFinite hx hfold]
    refine ⟨isFinite_divided hfold, ?_, ⟨hundredths_of_isZero, fun hcount => ?_⟩, hsteps.count_near⟩
    · rw [Binary64.div, Binary64.isNegative_ofRatio, isNegative_hundred, Bool.bne_false,
        wholeHundredfold, Binary64.isNegative_ofRatio]
    · refine isZero_divided (Nat.eq_zero_of_not_pos fun hk => ?_)
      exact (hsteps.count_pos hk).ne' hcount
  -- A hundred times the number overflows, and the number is kept.
  | false =>
    have hone := one_le_of_overflow hfold
    have hnear := hundredths_near x
    rw [roundHundredths_of_overflow hx hfold]
    refine ⟨hx, rfl, ⟨hundredths_of_isZero, fun hcount => ?_⟩, ?_⟩
    · rw [hcount, Nat.cast_zero] at hnear
      have hlow := (abs_le.mp hnear).1
      linarith
    · refine hnear.trans ?_
      linarith

end DesignCompiler.Stylesheet
