/-!
# DesignCompiler — binary64 numbers

Coordinates and lengths are IEEE 754 binary64 numbers. They are kept as their 64 bits, and every
operation is exact arithmetic on natural numbers followed by one rounding, so no property of a
machine's floating point unit is taken on trust.

* `Binary64` — the number as its bits;
* `numerator`, `denominator` — the magnitude of a finite number as a fraction;
* `ofRatio` — the number nearest to a fraction, a tie going to the even significand;
* `mul`, `div` — product and quotient, each rounded once;
* `Exceeds` — comparison of the magnitude with a natural number.
-/

namespace DesignCompiler

/-- A binary64 number: a sign bit, eleven bits of exponent, 52 bits of fraction. -/
structure Binary64 where
  bits : UInt64
deriving DecidableEq, Repr

namespace Binary64

/-! ## Fields -/

/-- The sign bit. -/
def isNegative (x : Binary64) : Bool :=
  Nat.pow 2 63 ≤ x.bits.toNat

/-- The bits below the sign, which order the magnitudes. -/
def magnitudeBits (x : Binary64) : Nat :=
  x.bits.toNat % Nat.pow 2 63

def exponentField (x : Binary64) : Nat :=
  x.magnitudeBits / Nat.pow 2 52

/-- The fraction below the leading bit. -/
def fractionField (x : Binary64) : Nat :=
  x.magnitudeBits % Nat.pow 2 52

/-- Neither infinite nor not a number. -/
def isFinite (x : Binary64) : Bool :=
  x.exponentField < 2047

/-- Not a number. -/
def isNaN (x : Binary64) : Bool :=
  x.exponentField == 2047 && x.fractionField != 0

/-- Zero, of either sign. -/
def isZero (x : Binary64) : Bool :=
  x.magnitudeBits == 0

/-- The integer significand of a finite number. -/
def significand (x : Binary64) : Nat :=
  if x.exponentField = 0 then x.fractionField else Nat.pow 2 52 + x.fractionField

/-- The power of two that scales the significand. -/
def exponent (x : Binary64) : Int :=
  (max x.exponentField 1 : Nat) - 1075

/-- The magnitude of a finite number is `numerator / denominator`. -/
def numerator (x : Binary64) : Nat :=
  x.significand * Nat.pow 2 x.exponent.toNat

/-- See `numerator`. -/
def denominator (x : Binary64) : Nat :=
  Nat.pow 2 (-x.exponent).toNat

theorem denominator_pos (x : Binary64) : 0 < x.denominator :=
  Nat.pow_pos (by decide)

/-! ## Making numbers -/

/-- The number with a given sign and given magnitude bits; magnitudes past the infinite one are
infinite. -/
def ofMagnitudeBits (negative : Bool) (magnitude : Nat) : Binary64 :=
  ⟨UInt64.ofNat (min magnitude (2047 * Nat.pow 2 52) + if negative then Nat.pow 2 63 else 0)⟩

def zero (negative : Bool) : Binary64 := ofMagnitudeBits negative 0

def infinity (negative : Bool) : Binary64 := ofMagnitudeBits negative (2047 * Nat.pow 2 52)

/-- The quiet number that stands for no number. -/
def nan : Binary64 := ⟨0x7FF8000000000000⟩

instance : Inhabited Binary64 := ⟨zero false⟩

/-- The quotient of two natural numbers, rounded to the nearest and from the middle to the even
one. -/
def roundQuotient (num den : Nat) : Nat :=
  let q := num / den
  let r := num % den
  if 2 * r < den then q else if den < 2 * r then q + 1 else q + q % 2

/-- The exponent `k` with `2 ^ k ≤ num / den < 2 ^ (k + 1)`, for positive numbers. -/
def floorLog2 (num den : Nat) : Int :=
  -- The quotient lies between `2 ^ (k - 1)` and `2 ^ (k + 1)`.
  let k : Int := (num.log2 : Int) - den.log2
  if den * Nat.pow 2 k.toNat ≤ num * Nat.pow 2 (-k).toNat then k else k - 1

/-- The number nearest to `num / den`, with a sign. The significand gets 53 bits, or fewer below the
least normal number; its rounding may carry into the exponent, which the layout of the fields does
by itself. -/
def ofRatio (negative : Bool) (num den : Nat) : Binary64 :=
  if num = 0 then zero negative
  else
    -- The place of the last bit of the significand.
    let e := max (floorLog2 num den - 52) (-1074)
    let q := roundQuotient (num * Nat.pow 2 (-e).toNat) (den * Nat.pow 2 e.toNat)
    -- A significand of 53 bits adds its leading bit to the exponent field.
    ofMagnitudeBits negative ((e + 1074).toNat * Nat.pow 2 52 + q)

/-- The number nearest to a natural number. -/
def ofNat (n : Nat) : Binary64 := ofRatio false n 1

/-- The number nearest to an integer. -/
def ofInt (n : Int) : Binary64 := ofRatio (n < 0) n.natAbs 1

/-! ## Arithmetic -/

/-- The product of two finite numbers, rounded once. -/
def mul (x y : Binary64) : Binary64 :=
  ofRatio (x.isNegative != y.isNegative) (x.numerator * y.numerator)
    (x.denominator * y.denominator)

/-- The quotient of two finite numbers, the second not zero, rounded once. -/
def div (x y : Binary64) : Binary64 :=
  ofRatio (x.isNegative != y.isNegative) (x.numerator * y.denominator)
    (x.denominator * y.numerator)

/-- The magnitude of a finite number rounded to a natural number, the middle going up. -/
def roundMagnitude (x : Binary64) : Nat :=
  (2 * x.numerator + x.denominator) / (2 * x.denominator)

/-! ## Comparison -/

/-- Whether the magnitude of a finite number is greater than `n`. -/
def exceeds (x : Binary64) (n : Nat) : Bool :=
  n * x.denominator < x.numerator

/-- Whether a finite number is below zero. -/
def isBelowZero (x : Binary64) : Bool :=
  x.isNegative && !x.isZero

/-- Whether a number is finite and in the range from zero to `n`. -/
def isWithin (x : Binary64) (n : Nat) : Bool :=
  x.isFinite && !x.isBelowZero && !x.exceeds n

end Binary64

end DesignCompiler
