import DesignCompiler.Number.Decimal

/-!
# DesignCompiler — values in stylesheets

Numbers keep at most two places after the point and are written without needless zeros. Texts stand
between double quotes.

* `roundHundredths` — a number rounded to hundredths, in binary64 arithmetic;
* `number`, `pixels` — a plain number, and a length;
* `quote` — a text between double quotes.
-/

namespace DesignCompiler.Stylesheet

/-- A number rounded to hundredths: a hundred times the number, rounded with the middle away from
zero, over a hundred. A number of which a hundred times is not finite is left as it is. -/
def roundHundredths (x : Binary64) : Binary64 :=
  if !x.isFinite then x
  else
    -- Each of the two steps is rounded to binary64.
    let scaled := x.mul (.ofNat 100)
    if scaled.isFinite then
      (Binary64.ofRatio scaled.isNegative scaled.roundMagnitude 1).div (.ofNat 100)
    else x

/-- The hundredths of a finite number's magnitude, rounded and from the middle to the even one. -/
def hundredths (x : Binary64) : Nat :=
  Binary64.roundQuotient (100 * x.numerator) x.denominator

/-- The numeral of a count of hundredths, without a zero at the end of its fraction. -/
def numeral (n : Nat) : List Char :=
  let whole := Nat.toDigits 10 (n / 100)
  if n % 100 = 0 then whole
  else if n % 10 = 0 then whole ++ '.' :: Nat.toDigits 10 (n / 10 % 10)
  else whole ++ '.' :: (Nat.toDigits 10 (n / 10 % 10) ++ Nat.toDigits 10 (n % 10))

/-- A number with at most two places; zero has no sign. -/
def number (x : Binary64) : String :=
  let r := roundHundredths x
  if r.isZero then "0"
  -- No element has such a number; it would be written by its word.
  else if !r.isFinite then r.plain
  else String.ofList ((if r.isNegative then ['-'] else []) ++ numeral (hundredths r))

/-- A length in pixels; zero has no unit. -/
def pixels (x : Binary64) : String :=
  let n := number x
  if n = "0" then n else n ++ "px"

/-- A character between quotes: the quote and the backslash stand behind a backslash. -/
def escape (c : Char) : List Char :=
  if c = '\\' || c = '"' then ['\\', c] else [c]

/-- A text between double quotes. -/
def quote (s : String) : String :=
  String.ofList ('"' :: s.toList.flatMap escape ++ ['"'])

end DesignCompiler.Stylesheet
