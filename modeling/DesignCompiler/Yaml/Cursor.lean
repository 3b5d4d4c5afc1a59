/-!
# DesignCompiler — places in YAML texts

YAML gives a meaning to columns, so a text is read with a cursor that knows where it stands.

* `isBlank`, `isBreak`, `endsWord` — the classes of characters that separate;
* `Cursor` — the text that is left, and the place in it;
* `Cursor.skip`, `Cursor.skipBreak` — past some characters of a line, past the end of a line.
-/

namespace DesignCompiler.Yaml

/-- A blank inside a line. -/
def isBlank (c : Char) : Bool :=
  c == ' ' || c == '\t'

/-- A character that ends a line: carriage return, line feed, next line, line or paragraph
separator. -/
def isBreak (c : Char) : Bool :=
  c == '\n' || c == '\r' || c.toNat == 0x85 || c.toNat == 0x2028 || c.toNat == 0x2029

/-- A blank or the end of a line. -/
def isGap (c : Char) : Bool :=
  isBlank c || isBreak c

/-- Whether a text is over or goes on with a blank or the end of a line. -/
def endsWord : List Char → Bool
  | [] => true
  | c :: _ => isGap c

/-- Whether a character may stand in a text at all. -/
def isAllowed (c : Char) : Bool :=
  let n := c.toNat
  n == 0x9 || n == 0xA || n == 0xD || (0x20 ≤ n && n ≤ 0x7E) || n == 0x85 ||
  (0xA0 ≤ n && n ≤ 0xFFFD) || 0x10000 ≤ n

/-- A place in a text. -/
structure Cursor where
  /-- The text from here on. -/
  rest : List Char
  /-- Characters before this place. -/
  index : Nat := 0
  /-- Lines before this one. -/
  line : Nat := 0
  /-- Characters before this place on the line. -/
  column : Nat := 0

namespace Cursor

/-- The place `n` characters on, on the same line. -/
def skip (c : Cursor) (n : Nat) : Cursor :=
  { c with rest := c.rest.drop n, index := c.index + n, column := c.column + n }

/-- The beginning of the next line. A carriage return and a line feed end one line. -/
def skipBreak (c : Cursor) : Cursor :=
  match c.rest with
  | '\r' :: '\n' :: rest => { rest, index := c.index + 2, line := c.line + 1 }
  | _ :: rest => { rest, index := c.index + 1, line := c.line + 1 }
  | [] => c

/-- Whether a line begins here with three dashes or three dots, which delimit documents. -/
def atDelimiter (c : Cursor) : Bool :=
  c.column == 0 && match c.rest with
    | '-' :: '-' :: '-' :: rest => endsWord rest
    | '.' :: '.' :: '.' :: rest => endsWord rest
    | _ => false

/-- What the end of a line counts as inside a text. -/
def foldedBreak (c : Char) : Char :=
  if c.toNat = 0x2028 || c.toNat = 0x2029 then c else '\n'

end Cursor

end DesignCompiler.Yaml
