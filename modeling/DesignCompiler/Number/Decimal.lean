import DesignCompiler.Number.Binary64

/-!
# DesignCompiler — decimal numbers

A decimal is a natural number scaled by a power of ten. Numbers are read from text through decimals
and written through them.

* `Decimal.shortest` — of the decimals that read back as a given binary64 number, the nearest one
  among those with the fewest digits;
* `Decimal.plain` — digits and a point, never an exponent;
* `Decimal.toBinary64` — the nearest binary64 number;
* `Binary64.ofText?` — the number that a text spells.
-/

namespace DesignCompiler

/-- The number `coefficient * 10 ^ exponent`. -/
structure Decimal where
  coefficient : Nat
  exponent : Int
deriving DecidableEq, Repr

namespace Decimal

def digits (d : Decimal) : List Char :=
  Nat.toDigits 10 d.coefficient

/-- The place of the point, counted from the first digit: `12.5` has it at 2, `0.05` at -1. -/
def pointPlace (d : Decimal) : Int :=
  d.digits.length + d.exponent

/-! ## The fewest digits -/

/-- The exponent `k` with `10 ^ k ≤ num / den < 10 ^ (k + 1)`, for positive numbers. The guess from
the binary exponent is off by one at most. -/
def floorLog10 (num den : Nat) : Int :=
  let guess := (Binary64.floorLog2 num den * 30103).fdiv 100000
  let reaches (k : Int) : Bool := den * Nat.pow 10 k.toNat ≤ num * Nat.pow 10 (-k).toNat
  if reaches (guess + 1) then guess + 1 else if reaches guess then guess else guess - 1

/-- The decimals that a binary64 number stands for: those between `low / scale` and `high / scale`,
ends included or not, around the number itself at `value / scale`. -/
structure Interval where
  low : Nat
  value : Nat
  high : Nat
  scale : Nat
  closed : Bool

/-- The interval of a finite number that is not zero. Below a power of two the gap to the next
number is half as wide as above it. -/
def Interval.of (x : Binary64) : Interval :=
  let m := x.significand
  let up := Nat.pow 2 (x.exponent - 2).toNat
  -- The significand is taken four times, so that the middles to its neighbours are integers.
  { low := (if m = Nat.pow 2 52 && 1 < x.exponentField then 4 * m - 1 else 4 * m - 2) * up
    value := 4 * m * up
    high := (4 * m + 2) * up
    scale := Nat.pow 2 (2 - x.exponent).toNat
    closed := m % 2 == 0 }

def Interval.contains (i : Interval) (d : Decimal) : Bool :=
  let num := d.coefficient * Nat.pow 10 d.exponent.toNat * i.scale
  let den := Nat.pow 10 (-d.exponent).toNat
  -- The ends round to the even neighbour, so they belong to an even significand.
  if i.closed then i.low * den ≤ num && num ≤ i.high * den
  else i.low * den < num && num < i.high * den

/-- The better of the two neighbours that the value has on the grid of multiples of
`10 ^ exponent`, if one lies in the interval. Of two at the same distance it is the upper one, or
the one with the even coefficient, as `tieUp` says. -/
def Interval.onGrid (i : Interval) (tieUp : Bool) (exponent : Int) : Option Decimal :=
  let num := i.value * Nat.pow 10 (-exponent).toNat
  let den := i.scale * Nat.pow 10 exponent.toNat
  let below : Decimal := ⟨num / den, exponent⟩
  let above : Decimal := ⟨num / den + 1, exponent⟩
  let rest := num % den
  -- `rest / den` is how far the value lies above the lower neighbour.
  let preferAbove := den < 2 * rest || (den == 2 * rest && (tieUp || below.coefficient % 2 == 1))
  match i.contains below, i.contains above with
  | true, true => some (if preferAbove then above else below)
  | true, false => some below
  | false, true => some above
  | false, false => none

/-- The first grid, from `digits` digits on, that has a decimal in the interval. -/
def Interval.firstOnGrid (i : Interval) (tieUp : Bool) (top : Int) : Nat → Nat → Decimal
  -- Not reached with 17 tries from one digit on: a decimal of 17 digits always reads back.
  | 0, digits => ⟨i.value * Nat.pow 10 (digits - 1 - top).toNat / i.scale, top - digits + 1⟩
  | tries + 1, digits =>
    match i.onGrid tieUp (top - digits + 1) with
    | some d => d
    | none => i.firstOnGrid tieUp top tries (digits + 1)

/-- A decimal without a zero at its end. The upper neighbour of a value such as 9.99 is 10 on the
grid of one digit, and 1 on the next. -/
def dropZero (d : Decimal) : Decimal :=
  if d.coefficient % 10 = 0 then ⟨d.coefficient / 10, d.exponent + 1⟩ else d

/-- The decimal with the fewest digits that reads back as the magnitude of a finite number, and of
these the nearest. Seventeen digits are always enough. -/
def shortest (tieUp : Bool) (x : Binary64) : Decimal :=
  if x.isZero then ⟨0, 0⟩
  else
    let i := Interval.of x
    (i.firstOnGrid tieUp (floorLog10 i.value i.scale) 17 1).dropZero

/-! ## Writing -/

/-- Digits with a point where it belongs, and no exponent. -/
def plain (d : Decimal) : List Char :=
  let ds := d.digits
  if 0 ≤ d.exponent then ds ++ List.replicate d.exponent.toNat '0'
  else if 0 < d.pointPlace then
    ds.take d.pointPlace.toNat ++ '.' :: ds.drop d.pointPlace.toNat
  else '0' :: '.' :: List.replicate (-d.pointPlace).toNat '0' ++ ds

/-! ## Reading -/

/-- The nearest binary64 number with a given sign. A decimal whose first digit stands past the
309th place before the point is infinite and one past the 330th place after it is zero, so no
needless power of ten is computed. -/
def toBinary64 (negative : Bool) (d : Decimal) : Binary64 :=
  if d.coefficient = 0 then .zero negative
  else if 310 < d.pointPlace then .infinity negative
  else if d.pointPlace < -330 then .zero negative
  else .ofRatio negative (d.coefficient * Nat.pow 10 d.exponent.toNat) (Nat.pow 10 (-d.exponent).toNat)

/-- The natural number that digits spell. -/
def ofDigits (ds : List Char) : Nat :=
  Nat.ofDigitChars 10 ds 0

/-- An exponent: a sign at will and at least one digit. -/
def exponentOfText? : List Char → Option Int
  | '-' :: ds => if !ds.isEmpty && ds.all Char.isDigit then some (-(ofDigits ds : Int)) else none
  | '+' :: ds => if !ds.isEmpty && ds.all Char.isDigit then some (ofDigits ds) else none
  | ds => if !ds.isEmpty && ds.all Char.isDigit then some (ofDigits ds) else none

/-- A decimal without sign: digits, of which some may stand behind a point, and an exponent at
will. One digit at least has to stand before or behind the point. -/
def ofText? (cs : List Char) : Option Decimal :=
  let whole := cs.takeWhile Char.isDigit
  let rest := cs.dropWhile Char.isDigit
  let (part, rest) := match rest with
    | '.' :: r => (r.takeWhile Char.isDigit, r.dropWhile Char.isDigit)
    | r => ([], r)
  -- A point alone is no number.
  if whole.isEmpty && part.isEmpty then none
  else
    let scaled (e : Int) : Decimal := ⟨ofDigits (whole ++ part), e - part.length⟩
    match rest with
    | [] => some (scaled 0)
    | c :: r => if c = 'e' || c = 'E' then (exponentOfText? r).map scaled else none

end Decimal

namespace Binary64

/-- A number without sign: a decimal, or a word for infinity or for no number, in any letter
case. -/
def ofUnsignedText? (negative : Bool) (cs : List Char) : Option Binary64 :=
  let word := String.ofList (cs.map Char.toLower)
  if word = "inf" || word = "infinity" then some (infinity negative)
  else if word = "nan" then some nan
  else (Decimal.ofText? cs).map (Decimal.toBinary64 negative)

/-- The number nearest to what a text spells, a sign in front at will; nothing else may stand in
the text, no blank either. -/
def ofText? : List Char → Option Binary64
  | '-' :: cs => ofUnsignedText? true cs
  | '+' :: cs => ofUnsignedText? false cs
  | cs => ofUnsignedText? false cs

/-- Digits and a point at will, never an exponent: `0.5`, `1000000000`. -/
def plain (x : Binary64) : String :=
  if x.isNaN then "NaN"
  else
    let sign := if x.isNegative then ['-'] else []
    let magnitude := if x.isFinite then (Decimal.shortest true x).plain else "inf".toList
    String.ofList (sign ++ magnitude)

end Binary64

end DesignCompiler
