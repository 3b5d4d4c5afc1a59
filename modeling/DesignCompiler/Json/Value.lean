import DesignCompiler.Number.Decimal
import DesignCompiler.Text.Quoted

/-!
# DesignCompiler — JSON values

Presentation properties are free-form JSON. An object holds each key once and its keys in ascending
order of their characters' code points, so equal objects are equal lists.

* `Json` — a value; `Json.Number` keeps integers apart from binary64 numbers;
* `Json.Object.insert` — sets a key, replacing the value it had;
* `Json.render` — the compact text of a value;
* `Binary64.json` — a number's text: the fewest digits that read back, always with a fraction or an
  exponent.
-/

namespace DesignCompiler

/-- A number as JSON text distinguishes them: an integer in the range of a signed or an unsigned
64-bit word, or a binary64 number. -/
inductive Json.Number where
  | integer (value : Int)
  | binary (value : Binary64)
deriving DecidableEq, Repr

/-- A free-form value. -/
inductive Json where
  | null
  | bool (value : Bool)
  | number (value : Json.Number)
  | string (value : String)
  | array (items : List Json)
  | object (members : List (String × Json))
deriving Repr, Inhabited

namespace Json

/-- The members of an object, by ascending key. -/
abbrev Object := List (String × Json)

namespace Object

def get? (o : Object) (key : String) : Option Json :=
  List.lookup key o

/-- The object with a key set, in its place in the order of the keys. -/
def insert (o : Object) (key : String) (value : Json) : Object :=
  match o with
  | [] => [(key, value)]
  | (k, v) :: rest =>
    if key < k then (key, value) :: (k, v) :: rest
    else if key = k then (key, value) :: rest
    else (k, v) :: insert rest key value

/-- The object that sets members one after the other, so that a repeated key keeps its last
value. -/
def ofMembers (members : List (String × Json)) : Object :=
  members.foldl (fun o (k, v) => insert o k v) []

end Object

/-! ## Text of numbers -/

/-- A numeral with a fraction, `.0` if it has none. -/
def withFraction (text : List Char) : List Char :=
  if text.contains '.' then text else text ++ ['.', '0']

/-- One digit, the point, the other digits, and the exponent with its sign. -/
def scientific (d : Decimal) : List Char :=
  let e := d.pointPlace - 1
  let significand := match d.digits with
    | [] => []
    | [c] => [c]
    | c :: cs => c :: '.' :: cs
  significand ++ ['e', if e < 0 then '-' else '+'] ++ Nat.toDigits 10 e.natAbs

end Json

/-- The text of a number: the fewest digits that read back. From `0.00001` up to sixteen digits
before the point it is written out and has a fraction, `.0` if need be; past these bounds it has an
exponent. A number that is not finite has no text and is written `null`. -/
def Binary64.json (x : Binary64) : String :=
  if !x.isFinite then "null"
  else
    let d := Decimal.shortest false x
    let sign := if x.isNegative then ['-'] else []
    -- Zero has no first digit that could place its point.
    let text := if x.isZero then ['0', '.', '0']
      else if -5 < d.pointPlace && d.pointPlace ≤ 16 then Json.withFraction d.plain
      else Json.scientific d
    String.ofList (sign ++ text)

namespace Json

def Number.render : Number → String
  | .integer n => toString n
  | .binary x => x.json

/-- The number as a binary64 number, rounded if it is an integer. -/
def Number.toBinary64 : Number → Binary64
  | .integer n => .ofInt n
  | .binary x => x

/-! ## Text of values -/

/-- One character inside a string: the quote and the backslash behind a backslash, the control
characters by their letter or their code point, all others as they are. -/
def escapeChar (c : Char) : List Char :=
  match c with
  | '"' => ['\\', '"']
  | '\\' => ['\\', '\\']
  | '\x08' => ['\\', 'b']
  | '\t' => ['\\', 't']
  | '\n' => ['\\', 'n']
  | '\x0c' => ['\\', 'f']
  | '\r' => ['\\', 'r']
  | c =>
    if c.toNat < 16 then ['\\', 'u', '0', '0', '0'] ++ Text.hexDigits c.toNat
    else if c.toNat < 32 then ['\\', 'u', '0', '0'] ++ Text.hexDigits c.toNat
    else [c]

/-- A string between its quotes. -/
def renderString (s : String) : String :=
  String.ofList ('"' :: s.toList.flatMap escapeChar ++ ['"'])

mutual

def render : Json → String
  | .null => "null"
  | .bool b => if b then "true" else "false"
  | .number n => n.render
  | .string s => renderString s
  | .array items => "[" ++ renderItems items ++ "]"
  | .object members => "\x7b" ++ renderMembers members ++ "\x7d"

/-- The items of an array, with commas between them. -/
def renderItems : List Json → String
  | [] => ""
  | [v] => render v
  | v :: w :: rest => render v ++ "," ++ renderItems (w :: rest)

/-- The members of an object, with commas between them. -/
def renderMembers : List (String × Json) → String
  | [] => ""
  | [(k, v)] => renderString k ++ ":" ++ render v
  | (k, v) :: w :: rest => renderString k ++ ":" ++ render v ++ "," ++ renderMembers (w :: rest)

end

def isNull : Json → Bool
  | .null => true
  | _ => false

end Json

end DesignCompiler
