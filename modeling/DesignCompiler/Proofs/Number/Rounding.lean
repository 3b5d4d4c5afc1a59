import DesignCompiler.Proofs.Number.Value
import Mathlib.Data.Int.Log
import Mathlib.Data.Rat.Floor
import Mathlib.Tactic.Linarith
import Mathlib.Tactic.NormNum
import Mathlib.Tactic.Positivity
import Mathlib.Tactic.Ring

/-!
# DesignCompiler — rounding to binary64

Every operation on binary64 numbers is exact and then rounded once. Rounding changes a number by half of
the place of its last bit at most, and it overflows only above the largest finite number.

* `floorLog2_eq`, `roundQuotient_near` — the two parts of rounding;
* `magnitude_ofMagnitudeBits` — the number that is put together from them;
* `ofRatio_near`, `isFinite_ofRatio` — a fraction that is rounded;
* `mul_near`, `div_near`, `roundMagnitude_near` — the operations.
-/

namespace DesignCompiler.Binary64

/-! ## The place of the last bit -/

section Fractions

variable {num den : Nat}

theorem reaches_iff (hden : 0 < den) (k : Int) :
    den * Nat.pow 2 k.toNat ≤ num * Nat.pow 2 (-k).toNat ↔ (2 : ℚ) ^ k ≤ (num : ℚ) / den := by
  have hdenominator : (0 : ℚ) < den := Nat.cast_pos.mpr hden
  have hpower : (0 : ℚ) < 2 ^ (-k).toNat := by positivity
  rw [two_zpow, div_le_div_iff₀ hpower hdenominator, mul_comm]
  simp only [Nat.pow_eq]
  exact_mod_cast Iff.rfl

theorem two_zpow_sub (a b : Nat) : (2 : ℚ) ^ ((a : Int) - b) = 2 ^ a / 2 ^ b := by
  rw [zpow_sub₀ two_ne_zero, zpow_natCast, zpow_natCast]

/-- The leading bits of two numbers leave two places for that of their quotient. -/
theorem quotient_bounds (hnum : 0 < num) (hden : 0 < den) :
    (2 : ℚ) ^ ((num.log2 : Int) - den.log2 - 1) < (num : ℚ) / den ∧
      (num : ℚ) / den < (2 : ℚ) ^ ((num.log2 : Int) - den.log2 + 1) := by
  have hdenominator : (0 : ℚ) < den := Nat.cast_pos.mpr hden
  have hnumLow : (2 : ℚ) ^ num.log2 ≤ num := by exact_mod_cast Nat.log2_self_le hnum.ne'
  have hnumHigh : (num : ℚ) < 2 ^ (num.log2 + 1) := by exact_mod_cast Nat.lt_log2_self
  have hdenLow : (2 : ℚ) ^ den.log2 ≤ den := by exact_mod_cast Nat.log2_self_le hden.ne'
  have hdenHigh : (den : ℚ) < 2 ^ (den.log2 + 1) := by exact_mod_cast Nat.lt_log2_self
  -- Bounds of both sides, divided the other way round.
  have hlow : (num.log2 : Int) - den.log2 - 1 = (num.log2 : Int) - (den.log2 + 1 : Nat) := by omega
  have hhigh : (num.log2 : Int) - den.log2 + 1 = (num.log2 + 1 : Nat) - (den.log2 : Int) := by omega
  rw [hlow, hhigh, two_zpow_sub, two_zpow_sub, div_lt_div_iff₀ (by positivity) hdenominator,
    div_lt_div_iff₀ hdenominator (by positivity)]
  constructor
  · calc (2 : ℚ) ^ num.log2 * den ≤ num * den := by gcongr
      _ < num * 2 ^ (den.log2 + 1) := by gcongr
  · calc (num : ℚ) * 2 ^ den.log2 ≤ num * den := by gcongr
      _ < 2 ^ (num.log2 + 1) * den := by gcongr

theorem log_eq {r : ℚ} {k : Int} (hlow : (2 : ℚ) ^ k ≤ r) (hhigh : r < (2 : ℚ) ^ (k + 1)) :
    Int.log 2 r = k := by
  have hpos : 0 < r := lt_of_lt_of_le (by positivity) hlow
  have hle := (Int.zpow_le_iff_le_log Nat.one_lt_two hpos).mp (by exact_mod_cast hlow)
  have hlt := (Int.lt_zpow_iff_log_lt Nat.one_lt_two hpos).mp (by exact_mod_cast hhigh)
  omega

theorem floorLog2_eq (hnum : 0 < num) (hden : 0 < den) :
    floorLog2 num den = Int.log 2 ((num : ℚ) / den) := by
  obtain ⟨hlow, hhigh⟩ := quotient_bounds hnum hden
  unfold floorLog2
  dsimp only
  split
  · rename_i hreaches
    exact (log_eq ((reaches_iff hden _).mp hreaches) hhigh).symm
  · rename_i hreaches
    rw [reaches_iff hden, not_le] at hreaches
    exact (log_eq hlow.le (by rwa [sub_add_cancel])).symm

theorem roundQuotient_bounds (hden : 0 < den) :
    2 * (roundQuotient num den * den) ≤ 2 * num + den ∧
      2 * num ≤ 2 * (roundQuotient num den * den) + den := by
  have hsplit := Nat.div_add_mod' num den
  have hrest := Nat.mod_lt num hden
  simp only [roundQuotient]
  generalize num / den = q at hsplit
  generalize num % den = r at hsplit hrest
  split
  · omega
  · split
    · rw [Nat.add_mul]
      omega
    · -- a tie, in which the even neighbour is one of the two nearest ones
      rcases Nat.mod_two_eq_zero_or_one q with heven | hodd
      · rw [heven, Nat.add_zero]
        omega
      · rw [hodd, Nat.add_mul]
        omega

theorem near_of_bounds {n : Nat} (hden : 0 < den) (hlow : 2 * (n * den) ≤ 2 * num + den)
    (hhigh : 2 * num ≤ 2 * (n * den) + den) : |(n : ℚ) - num / den| ≤ 1 / 2 := by
  have hdenominator : (0 : ℚ) < den := Nat.cast_pos.mpr hden
  have hlow : 2 * (n * den : ℚ) ≤ 2 * num + den := by exact_mod_cast hlow
  have hhigh : 2 * (num : ℚ) ≤ 2 * (n * den) + den := by exact_mod_cast hhigh
  have hbelow : (num : ℚ) / den ≤ n + 1 / 2 := by
    rw [div_le_iff₀ hdenominator]
    linarith
  have habove : (n : ℚ) - 1 / 2 ≤ num / den := by
    rw [le_div_iff₀ hdenominator]
    linarith
  rw [abs_le]
  constructor
  · linarith
  · linarith

/-- A quotient is rounded by half at most. -/
theorem roundQuotient_near (hden : 0 < den) :
    |(roundQuotient num den : ℚ) - num / den| ≤ 1 / 2 :=
  near_of_bounds hden (roundQuotient_bounds hden).1 (roundQuotient_bounds hden).2

end Fractions

/-! ## Making numbers -/

variable {negative : Bool} {m k q : Nat}

theorem toNat_ofMagnitudeBits (negative : Bool) (m : Nat) :
    (ofMagnitudeBits negative m).bits.toNat =
      min m (2047 * 2 ^ 52) + if negative then 2 ^ 63 else 0 := by
  rw [ofMagnitudeBits, UInt64.toNat_ofNat']
  refine Nat.mod_eq_of_lt ?_
  simp only [Nat.pow_eq]
  split <;> omega

theorem magnitudeBits_ofMagnitudeBits (negative : Bool) (m : Nat) :
    (ofMagnitudeBits negative m).magnitudeBits = min m (2047 * 2 ^ 52) := by
  rw [magnitudeBits, toNat_ofMagnitudeBits, Nat.pow_eq]
  split <;> omega

theorem isNegative_ofMagnitudeBits (negative : Bool) (m : Nat) :
    (ofMagnitudeBits negative m).isNegative = negative := by
  rw [isNegative, toNat_ofMagnitudeBits, Nat.pow_eq]
  cases negative <;> simp

theorem isFinite_ofMagnitudeBits :
    (ofMagnitudeBits negative m).isFinite = true ↔ m < 2047 * 2 ^ 52 := by
  rw [isFinite, decide_eq_true_eq, exponentField, magnitudeBits_ofMagnitudeBits, Nat.pow_eq]
  omega

/-- A significand that is put on an exponent. One that has more than 53 bits, which is a power of two
then, raises the exponent. -/
theorem magnitude_ofMagnitudeBits (hq : q ≤ 2 ^ 53) (hk : k = 0 ∨ 2 ^ 52 ≤ q)
    (hfinite : (ofMagnitudeBits negative (k * 2 ^ 52 + q)).isFinite = true) :
    (ofMagnitudeBits negative (k * 2 ^ 52 + q)).magnitude = q * 2 ^ ((k : Int) - 1074) := by
  rw [isFinite_ofMagnitudeBits] at hfinite
  have hbits := magnitudeBits_ofMagnitudeBits negative (k * 2 ^ 52 + q)
  rw [Nat.min_eq_left hfinite.le] at hbits
  generalize ofMagnitudeBits negative (k * 2 ^ 52 + q) = x at hbits
  have hfield : x.exponentField = (k * 2 ^ 52 + q) / 2 ^ 52 := by
    rw [exponentField, hbits, Nat.pow_eq]
  have hfraction : x.fractionField = (k * 2 ^ 52 + q) % 2 ^ 52 := by
    rw [fractionField, hbits, Nat.pow_eq]
  have hcases : q < 2 ^ 52 ∧ k = 0 ∨ (2 ^ 52 ≤ q ∧ q < 2 ^ 53) ∨ q = 2 ^ 53 := by omega
  rw [magnitude, significand, exponent, hfield, hfraction, Nat.pow_eq]
  rcases hcases with ⟨hsmall, rfl⟩ | ⟨hlow, hhigh⟩ | rfl
  · -- below the least normal number
    have hzero : (0 * 2 ^ 52 + q) / 2 ^ 52 = 0 := by omega
    have hrest : (0 * 2 ^ 52 + q) % 2 ^ 52 = q := by omega
    rw [if_pos hzero, hzero, hrest]
    norm_num
  · have hnext : (k * 2 ^ 52 + q) / 2 ^ 52 = k + 1 := by omega
    have hrest : 2 ^ 52 + (k * 2 ^ 52 + q) % 2 ^ 52 = q := by omega
    have hplace : ((max (k + 1) 1 : Nat) : Int) - 1075 = (k : Int) - 1074 := by omega
    rw [hnext, if_neg (Nat.succ_ne_zero k), hrest, hplace]
  · have hnext : (k * 2 ^ 52 + 2 ^ 53) / 2 ^ 52 = k + 2 := by omega
    have hrest : 2 ^ 52 + (k * 2 ^ 52 + 2 ^ 53) % 2 ^ 52 = 2 ^ 52 := by omega
    have hplace : ((max (k + 2) 1 : Nat) : Int) - 1075 = (k : Int) - 1074 + 1 := by omega
    rw [hnext, if_neg (Nat.succ_ne_zero _), hrest, hplace, zpow_add_one₀ two_ne_zero]
    push_cast
    ring

/-! ## Rounded fractions -/

/-- The place of the last bit that binary64 numbers around a positive number have. -/
def lastPlace (r : ℚ) : Int :=
  max (Int.log 2 r - 52) (-1074)

theorem neg_1074_le_lastPlace (r : ℚ) : -1074 ≤ lastPlace r :=
  le_max_right _ _

/-- A positive number counted in the unit of its last place. -/
theorem div_lastPlace_lt (r : ℚ) : r / 2 ^ lastPlace r < 2 ^ 53 := by
  have hplace : Int.log 2 r + 1 ≤ 53 + lastPlace r := by
    rw [lastPlace]
    omega
  have hlog : r < (2 : ℚ) ^ (Int.log 2 r + 1) := by
    exact_mod_cast Int.lt_zpow_succ_log_self Nat.one_lt_two r
  rw [div_lt_iff₀ (by positivity)]
  calc r < 2 ^ (Int.log 2 r + 1) := hlog
    _ ≤ 2 ^ (53 + lastPlace r) := zpow_le_zpow_right₀ one_le_two hplace
    _ = 2 ^ 53 * 2 ^ lastPlace r := by rw [zpow_add₀ two_ne_zero]; rfl

theorem le_div_lastPlace {r : ℚ} (hr : 0 < r) (hplace : lastPlace r ≠ -1074) :
    2 ^ 52 ≤ r / 2 ^ lastPlace r := by
  have hplace : 52 + lastPlace r = Int.log 2 r := by
    rw [lastPlace] at hplace ⊢
    omega
  have hlog : (2 : ℚ) ^ Int.log 2 r ≤ r := by
    exact_mod_cast Int.zpow_log_le_self Nat.one_lt_two hr
  rw [le_div_iff₀ (by positivity)]
  calc (2 : ℚ) ^ 52 * 2 ^ lastPlace r = 2 ^ (52 + lastPlace r) := by
        rw [zpow_add₀ two_ne_zero]; rfl
    _ = 2 ^ Int.log 2 r := by rw [hplace]
    _ ≤ r := hlog

/-- The last place is small against the number, or it is the least one. -/
theorem lastPlace_le {r : ℚ} (hr : 0 < r) :
    (2 : ℚ) ^ lastPlace r / 2 ≤ r / 2 ^ 53 + 2 ^ (-1075 : Int) := by
  have htiny : (0 : ℚ) < 2 ^ (-1075 : Int) := by positivity
  have hsmall : (0 : ℚ) ≤ r / 2 ^ 53 := by positivity
  by_cases hplace : lastPlace r = -1074
  · have hhalf : (2 : ℚ) ^ (-1074 : Int) / 2 = 2 ^ (-1075 : Int) := by
      rw [div_eq_mul_inv]
      exact (zpow_sub_one₀ two_ne_zero (-1074)).symm
    rw [hplace, hhalf]
    linarith
  · have hunits := le_div_lastPlace hr hplace
    rw [le_div_iff₀ (by positivity)] at hunits
    linarith

section Ratios

variable {num den : Nat}

theorem scaled_div (hden : 0 < den) (e : Int) :
    ((num * Nat.pow 2 (-e).toNat : Nat) : ℚ) / (den * Nat.pow 2 e.toNat : Nat) =
      num / den / 2 ^ e := by
  have hdenominator : (den : ℚ) ≠ 0 := Nat.cast_ne_zero.mpr hden.ne'
  rw [two_zpow e, Nat.pow_eq, Nat.pow_eq]
  push_cast
  field_simp

theorem isZero_ofRatio (negative : Bool) (den : Nat) : (ofRatio negative 0 den).isZero = true := by
  rw [ofRatio, if_pos rfl, zero, isZero, magnitudeBits_ofMagnitudeBits]
  rfl

theorem isNegative_ofRatio (negative : Bool) (num den : Nat) :
    (ofRatio negative num den).isNegative = negative := by
  unfold ofRatio
  split
  · exact isNegative_ofMagnitudeBits negative 0
  · exact isNegative_ofMagnitudeBits negative _

/-- A fraction is rounded in the unit of its last place. -/
theorem exists_ofRatio (negative : Bool) (hnum : 0 < num) (hden : 0 < den) :
    ∃ q : Nat, |(q : ℚ) - num / den / 2 ^ lastPlace (num / den)| ≤ 1 / 2 ∧
      ofRatio negative num den =
        ofMagnitudeBits negative ((lastPlace (num / den) + 1074).toNat * 2 ^ 52 + q) := by
  let place := lastPlace (num / den)
  have hscale : 0 < den * Nat.pow 2 place.toNat := Nat.mul_pos hden (Nat.two_pow_pos _)
  refine ⟨roundQuotient (num * Nat.pow 2 (-place).toNat) (den * Nat.pow 2 place.toNat), ?_, ?_⟩
  · rw [← scaled_div hden]
    exact roundQuotient_near hscale
  · rw [ofRatio, if_neg hnum.ne']
    simp only [floorLog2_eq hnum hden]
    rfl

/-- The significand of a rounded fraction has 53 bits, of which the first may only be missing in the
least place. -/
theorem significand_bounds {r : ℚ} (hr : 0 < r) {q : Nat}
    (hq : |(q : ℚ) - r / 2 ^ lastPlace r| ≤ 1 / 2) :
    q ≤ 2 ^ 53 ∧ ((lastPlace r + 1074).toNat = 0 ∨ 2 ^ 52 ≤ q) := by
  obtain ⟨hlow, hhigh⟩ := abs_le.mp hq
  constructor
  · have hunits := div_lastPlace_lt r
    have hcast : (q : ℚ) < 2 ^ 53 + 1 := by linarith
    exact Nat.le_of_lt_succ (by exact_mod_cast hcast)
  · by_cases hplace : lastPlace r = -1074
    · exact Or.inl (by rw [hplace]; rfl)
    · have hunits := le_div_lastPlace hr hplace
      have hcast : (2 : ℚ) ^ 52 < q + 1 := by linarith
      exact Or.inr (Nat.le_of_lt_succ (by exact_mod_cast hcast))

/-- **Rounding is near.** A fraction is changed by its 53rd bit at most, or by half of the least number. -/
theorem ofRatio_near (hden : 0 < den) (hfinite : (ofRatio negative num den).isFinite = true) :
    |(ofRatio negative num den).magnitude - num / den| ≤
      num / den / 2 ^ 53 + 2 ^ (-1075 : Int) := by
  rcases Nat.eq_zero_or_pos num with rfl | hnum
  · have hzero := isZero_iff_magnitude.mp (isZero_ofRatio negative den)
    rw [hzero]
    simp
  · have hr : (0 : ℚ) < num / den := div_pos (Nat.cast_pos.mpr hnum) (Nat.cast_pos.mpr hden)
    obtain ⟨q, hq, heq⟩ := exists_ofRatio negative hnum hden
    generalize (num : ℚ) / den = r at hr hq heq
    obtain ⟨hle, hbit⟩ := significand_bounds hr hq
    have hplace : (((lastPlace r + 1074).toNat : Nat) : Int) - 1074 = lastPlace r := by
      have hleast := neg_1074_le_lastPlace r
      omega
    -- The significand is off by at most half, so the number by half a unit in the last place.
    have hunit : (0 : ℚ) < 2 ^ lastPlace r := by positivity
    rw [heq] at hfinite ⊢
    rw [magnitude_ofMagnitudeBits hle hbit hfinite, hplace]
    calc |(q : ℚ) * 2 ^ lastPlace r - r|
        = |(q : ℚ) - r / 2 ^ lastPlace r| * 2 ^ lastPlace r := by
          rw [← abs_of_pos hunit, ← abs_mul, abs_of_pos hunit, sub_mul,
            div_mul_cancel₀ _ hunit.ne']
      _ ≤ 1 / 2 * 2 ^ lastPlace r := by gcongr
      _ = 2 ^ lastPlace r / 2 := by ring
      _ ≤ r / 2 ^ 53 + 2 ^ (-1075 : Int) := lastPlace_le hr

/-- The largest finite number. -/
def largest : Nat :=
  (2 ^ 53 - 1) * 2 ^ 971

theorem largest_pos : 0 < largest := by
  unfold largest
  positivity

theorem cast_largest : (largest : ℚ) = (2 ^ 53 - 1) * 2 ^ (971 : Int) := by
  rw [largest, Nat.cast_mul, Nat.cast_sub Nat.one_le_two_pow, Nat.cast_pow, Nat.cast_pow]
  rfl

theorem magnitude_le_largest {x : Binary64} (hfinite : x.isFinite = true) : x.magnitude ≤ largest := by
  have hsignificand : x.significand < 2 ^ 53 := by
    have hfraction : x.fractionField < 2 ^ 52 := Nat.mod_lt _ (Nat.two_pow_pos 52)
    rw [significand, Nat.pow_eq]
    split <;> omega
  have hexponent : x.exponent ≤ 971 := by
    rw [isFinite, decide_eq_true_eq] at hfinite
    rw [exponent]
    omega
  have hcast : (x.significand : ℚ) + 1 ≤ 2 ^ 53 := by exact_mod_cast hsignificand
  rw [cast_largest, magnitude]
  exact mul_le_mul (by linarith) (zpow_le_zpow_right₀ one_le_two hexponent) (by positivity)
    (by norm_num)

/-- The last place of the largest finite number. -/
theorem lastPlace_le_of_le_largest {r : ℚ} (hr : 0 < r) (hle : r ≤ largest) : lastPlace r ≤ 971 := by
  have hunit : (0 : ℚ) < 2 ^ (971 : Int) := by positivity
  have hlt : r < 2 ^ (53 + 971 : Int) := by
    rw [cast_largest] at hle
    calc r ≤ (2 ^ 53 - 1) * 2 ^ (971 : Int) := hle
      _ < 2 ^ 53 * 2 ^ (971 : Int) := by gcongr; norm_num
      _ = 2 ^ (53 + 971 : Int) := by rw [zpow_add₀ two_ne_zero]; rfl
  have hlog : Int.log 2 r < 53 + 971 :=
    (Int.lt_zpow_iff_log_lt Nat.one_lt_two hr).mp (by rwa [Nat.cast_ofNat])
  rw [lastPlace]
  omega

/-- **No overflow in range.** A fraction that is not above the largest finite number is rounded to a
finite one. -/
theorem isFinite_ofRatio (hden : 0 < den) (hle : (num : ℚ) / den ≤ largest) :
    (ofRatio negative num den).isFinite = true := by
  rcases Nat.eq_zero_or_pos num with rfl | hnum
  · rw [ofRatio, if_pos rfl, zero, isFinite_ofMagnitudeBits]
    decide
  · have hr : (0 : ℚ) < num / den := div_pos (Nat.cast_pos.mpr hnum) (Nat.cast_pos.mpr hden)
    obtain ⟨q, hq, heq⟩ := exists_ofRatio negative hnum hden
    generalize (num : ℚ) / den = r at hr hq heq hle
    have hplace := lastPlace_le_of_le_largest hr hle
    have hbound := (significand_bounds hr hq).1
    rw [heq, isFinite_ofMagnitudeBits]
    by_contra hover
    -- the exponent is full, so it is the significand that has one bit too many
    have hexact : lastPlace r = 971 := by omega
    have hcarry : 2 ^ 53 ≤ q := by
      rw [hexact] at hover
      omega
    have hcarry : (2 : ℚ) ^ 53 ≤ q := by exact_mod_cast hcarry
    rw [cast_largest] at hle
    have hunits : r / 2 ^ (971 : Int) ≤ 2 ^ 53 - 1 := by
      rwa [div_le_iff₀ (by positivity)]
    rw [hexact] at hq
    have hnear := (abs_le.mp hq).2
    linarith

end Ratios

/-! ## Operations -/

section Operations

variable {x y : Binary64}

theorem mul_ratio (x y : Binary64) :
    ((x.numerator * y.numerator : Nat) : ℚ) / (x.denominator * y.denominator : Nat) =
      x.magnitude * y.magnitude := by
  rw [magnitude_eq, magnitude_eq, div_mul_div_comm, Nat.cast_mul, Nat.cast_mul]

theorem div_ratio (x y : Binary64) :
    ((x.numerator * y.denominator : Nat) : ℚ) / (x.denominator * y.numerator : Nat) =
      x.magnitude / y.magnitude := by
  rw [magnitude_eq, magnitude_eq, div_div_div_eq, Nat.cast_mul, Nat.cast_mul]

theorem mul_near (hfinite : (x.mul y).isFinite = true) :
    |(x.mul y).magnitude - x.magnitude * y.magnitude| ≤
      x.magnitude * y.magnitude / 2 ^ 53 + 2 ^ (-1075 : Int) := by
  have hnear := ofRatio_near (Nat.mul_pos x.denominator_pos y.denominator_pos) hfinite
  rwa [mul_ratio] at hnear

theorem isFinite_mul (hle : x.magnitude * y.magnitude ≤ largest) : (x.mul y).isFinite = true :=
  isFinite_ofRatio (Nat.mul_pos x.denominator_pos y.denominator_pos) (by rwa [mul_ratio])

theorem div_near (hy : 0 < y.numerator) (hfinite : (x.div y).isFinite = true) :
    |(x.div y).magnitude - x.magnitude / y.magnitude| ≤
      x.magnitude / y.magnitude / 2 ^ 53 + 2 ^ (-1075 : Int) := by
  have hnear := ofRatio_near (Nat.mul_pos x.denominator_pos hy) hfinite
  rwa [div_ratio] at hnear

theorem isFinite_div (hy : 0 < y.numerator) (hle : x.magnitude / y.magnitude ≤ largest) :
    (x.div y).isFinite = true :=
  isFinite_ofRatio (Nat.mul_pos x.denominator_pos hy) (by rwa [div_ratio])

theorem roundMagnitude_bounds (x : Binary64) :
    2 * (x.roundMagnitude * x.denominator) ≤ 2 * x.numerator + x.denominator ∧
      2 * x.numerator < 2 * (x.roundMagnitude * x.denominator) + x.denominator := by
  have hpos := x.denominator_pos
  have hsplit := Nat.div_add_mod' (2 * x.numerator + x.denominator) (2 * x.denominator)
  have hrest := Nat.mod_lt (2 * x.numerator + x.denominator) (Nat.mul_pos two_pos hpos)
  rw [← roundMagnitude, Nat.mul_left_comm] at hsplit
  constructor
  · omega
  · omega

/-- A number is rounded to an integer by half at most. -/
theorem roundMagnitude_near (x : Binary64) : |(x.roundMagnitude : ℚ) - x.magnitude| ≤ 1 / 2 := by
  obtain ⟨hlow, hhigh⟩ := x.roundMagnitude_bounds
  rw [magnitude_eq]
  exact near_of_bounds x.denominator_pos hlow hhigh.le

theorem roundMagnitude_le {n : Nat} (hle : x.magnitude ≤ n) : x.roundMagnitude ≤ n := by
  have hnear := (abs_le.mp x.roundMagnitude_near).2
  have hcast : (x.roundMagnitude : ℚ) < n + 1 := by linarith
  exact Nat.le_of_lt_succ (by exact_mod_cast hcast)

end Operations

end DesignCompiler.Binary64
