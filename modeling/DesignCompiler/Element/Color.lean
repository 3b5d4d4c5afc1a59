import DesignCompiler.Text.Blank

/-!
# DesignCompiler — colors

A color is a hexadecimal one (`#1f6feb`), a functional one (`rgb(0, 0, 0)`, `hsl(120deg 50% 50%)`)
or a word of letters (`navy`). A word is not looked up, so a name that no browser knows passes.

* `Color.isHexadecimal`, `Color.isFunctional`, `Color.isWord` — the three forms;
* `isColor` — whether a text has one of them.

Whatever passes has no quote, no semicolon, no brace and no backslash, and its only parentheses are
the pair of the functional form, so it cannot end the declaration that it stands in.
-/

namespace DesignCompiler

namespace Color

/-- A hexadecimal digit of either case. -/
def isHexDigit (c : Char) : Bool :=
  c.isDigit || ('a' ≤ c && c ≤ 'f') || ('A' ≤ c && c ≤ 'F')

/-- The characters of the arguments of a functional color, its angle unit aside. -/
def isArgumentChar (c : Char) : Bool :=
  c.isDigit || c == '.' || c == ',' || c == '%' || c == '/' || c == '+' || c == '-' ||
  Text.isBlank c

/-- `#` and three, four, six or eight digits. -/
def isHexadecimal : List Char → Bool
  | '#' :: ds => ds.all isHexDigit &&
    (ds.length == 3 || ds.length == 4 || ds.length == 6 || ds.length == 8)
  | _ => false

/-- What follows the first arguments up to the end: nothing but the parenthesis, or an angle unit
and further arguments before it. -/
def isArgumentsEnd : List Char → Bool
  | [')'] => true
  | 'd' :: 'e' :: 'g' :: rest => rest.dropWhile isArgumentChar == [')']
  | 'r' :: 'a' :: 'd' :: rest => rest.dropWhile isArgumentChar == [')']
  | 'g' :: 'r' :: 'a' :: 'd' :: rest => rest.dropWhile isArgumentChar == [')']
  | 't' :: 'u' :: 'r' :: 'n' :: rest => rest.dropWhile isArgumentChar == [')']
  | _ => false

/-- At least one character of arguments, then the end. -/
def isArguments (cs : List Char) : Bool :=
  !(cs.takeWhile isArgumentChar).isEmpty && isArgumentsEnd (cs.dropWhile isArgumentChar)

/-- `rgb`, `rgba`, `hsl` or `hsla`, and arguments in parentheses. -/
def isFunctional : List Char → Bool
  | 'r' :: 'g' :: 'b' :: '(' :: rest => isArguments rest
  | 'r' :: 'g' :: 'b' :: 'a' :: '(' :: rest => isArguments rest
  | 'h' :: 's' :: 'l' :: '(' :: rest => isArguments rest
  | 'h' :: 's' :: 'l' :: 'a' :: '(' :: rest => isArguments rest
  | _ => false

/-- At least one letter, and letters only. -/
def isWord (cs : List Char) : Bool :=
  !cs.isEmpty && cs.all Char.isAlpha

end Color

/-- Whether a text is a color. -/
def isColor (s : String) : Bool :=
  let cs := s.toList
  Color.isHexadecimal cs || Color.isFunctional cs || Color.isWord cs

end DesignCompiler
