import DesignCompiler.Json.Value

/-!
# DesignCompiler — numerals of JSON

How the digits of a JSON number become a number. Integers that a word of 64 bits can hold stay
integers. All other numerals become binary64 numbers by a fast route: the leading digits that fit
into a word, times or over a power of ten, each step rounded once. Its last bit may differ from that
of the nearest number.

* `Numeral` — the parts of a numeral;
* `Numeral.value?` — the number it stands for, if it is not too large.
-/

namespace DesignCompiler.Json

/-- The written parts of a number. -/
structure Numeral where
  negative : Bool
  /-- The digits before the point. -/
  whole : List Char
  /-- The digits after the point; none if there is no point. -/
  fraction : Option (List Char)
  /-- The sign and the digits of the exponent. -/
  exponent : Option (Bool × List Char)

namespace Numeral

/-- The least number past an unsigned word. -/
def wordLimit : Nat := Nat.pow 2 64

def digitValue (c : Char) : Nat :=
  c.toNat - '0'.toNat

/-- Appends digits to a number for as long as it fits into a word; the digits that are left. -/
def absorb (n : Nat) : List Char → Nat × List Char
  | [] => (n, [])
  | c :: cs =>
    if 10 * n + digitValue c < wordLimit then absorb (10 * n + digitValue c) cs else (n, c :: cs)

/-- The largest power of ten among the binary64 numbers. -/
def maxPower : Nat := 308

/-- A number times a power of ten, or none if it is too large. Powers past the largest one are
taken in steps, of which three are enough to reach zero. -/
def scale (x : Binary64) (e : Int) : (steps : Nat) → Option Binary64
  | 0 => some x
  | steps + 1 =>
    if e.natAbs ≤ maxPower then
      let power := Binary64.ofNat (Nat.pow 10 e.natAbs)
      if 0 ≤ e then
        -- Only a product can be too large.
        let y := x.mul power
        if y.isFinite then some y else none
      else some (x.div power)
    else if x.isZero then some x
    -- The number is one at least, so a power past the largest makes it too large.
    else if 0 ≤ e then none
    else scale (x.div (.ofNat (Nat.pow 10 maxPower))) (e + maxPower) steps

def withSign (negative : Bool) (x : Binary64) : Binary64 :=
  if negative then ⟨x.bits ||| 0x8000000000000000⟩ else x

/-- The largest exponent that is counted. -/
def exponentLimit : Nat := Nat.pow 2 31

/-- The binary64 number of a numeral, or none if it is too large. -/
def binary? (n : Numeral) : Option Binary64 :=
  let (significand, dropped) := absorb 0 n.whole
  let digits := n.fraction.getD []
  let (significand, unused) := absorb significand digits
  -- A whole digit that did not fit moves the point to the right, a digit of the fraction that did
  -- moves it to the left.
  let places : Int := dropped.length - (digits.length - unused.length : Nat)
  let magnitude := match n.exponent with
    | none => scale (.ofNat significand) places 4
    | some (negative, ds) =>
      let e := Decimal.ofDigits ds
      if e < exponentLimit then
        scale (.ofNat significand) (places + if negative then -(e : Int) else e) 4
      -- Exponents that are not counted lead to zero or past all numbers.
      else if significand = 0 || negative then some (.zero false)
      else none
  magnitude.map (withSign n.negative)

/-- The integer of a numeral, if it has no fraction and no exponent and a word can hold it. Zero
with a sign is no integer. -/
def integer? (n : Numeral) : Option Int :=
  let k := Decimal.ofDigits n.whole
  if n.fraction.isSome || n.exponent.isSome then none
  -- `-0` keeps its sign only as a binary64 number.
  else if n.negative then if 0 < k && k ≤ Nat.pow 2 63 then some (-(k : Int)) else none
  else if k < wordLimit then some k
  else none

def value? (n : Numeral) : Option Number :=
  match n.integer? with
  | some k => some (.integer k)
  | none => n.binary?.map .binary

end Numeral

end DesignCompiler.Json
