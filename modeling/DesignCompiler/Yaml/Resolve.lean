import DesignCompiler.Json.Value
import DesignCompiler.Yaml.Node

/-!
# DesignCompiler — meanings of plain texts

A plain text may stand for nothing, a truth value or a number; a quoted one never does. Where a
field says what it wants, only that reading is tried; in free-form values all are, and a text that
stands for nothing else is a string.

* `isNull`, `bool?`, `unsigned?`, `signed?`, `binary?` — the readings;
* `Node.json` — the free-form value of a node.
-/

namespace DesignCompiler.Yaml

/-- Whether a text stands for no value. -/
def isNull (s : String) : Bool :=
  s == "null" || s == "Null" || s == "NULL" || s == "~"

/-- The truth value that a text stands for. -/
def bool? (s : String) : Option Bool :=
  if s == "true" || s == "True" || s == "TRUE" then some true
  else if s == "false" || s == "False" || s == "FALSE" then some false
  else none

/-! ## Integers -/

/-- A natural number from the digits of a base, at least one. -/
def natural? (base : Nat) (cs : List Char) : Option Nat := do
  if cs.isEmpty then none
  let ds ← cs.mapM Json.hexValue?
  if ds.all (· < base) then some (ds.foldl (fun n d => base * n + d) 0) else none

/-- A natural number with the mark of its base, `0x`, `0o` or `0b`; without one it is decimal, and
then a zero in front of other digits is not allowed. -/
def marked? (cs : List Char) : Option Nat :=
  match cs with
  | '0' :: 'x' :: ds => natural? 16 ds
  | '0' :: 'o' :: ds => natural? 8 ds
  | '0' :: 'b' :: ds => natural? 2 ds
  | '0' :: _ :: _ => none
  | ds => natural? 10 ds

/-- An unsigned integer, a plus sign in front at will. -/
def unsigned? (cs : List Char) : Option Nat :=
  match cs with
  | '+' :: ds => marked? ds
  | ds => marked? ds

/-- The magnitude of an integer with a minus sign. -/
def negated? (cs : List Char) : Option Nat :=
  match cs with
  | '-' :: ds => marked? ds
  | _ => none

/-- An integer of either sign. -/
def signed? (cs : List Char) : Option Int :=
  match negated? cs with
  | some n => some (-(n : Int))
  | none => (unsigned? cs).map fun n => (n : Int)

/-! ## Binary64 numbers -/

/-- The texts for infinity and for no number. -/
def special? (s : String) : Option Binary64 :=
  if [".inf", ".Inf", ".INF", "+.inf", "+.Inf", "+.INF"].contains s then some (.infinity false)
  else if ["-.inf", "-.Inf", "-.INF"].contains s then some (.infinity true)
  else if [".nan", ".NaN", ".NAN"].contains s then some .nan
  else none

/-- The binary64 number that a text stands for. A numeral too large for one is no number. -/
def binary? (s : String) : Option Binary64 :=
  match special? s with
  | some x => some x
  | none => (Binary64.ofText? s.toList).filter (·.isFinite)

/-! ## Free-form values -/

/-- Digits behind a zero, which are no number in a free-form value. -/
def isZeroPadded (cs : List Char) : Bool :=
  let ds := match cs with
    | '-' :: ds => ds
    | '+' :: ds => ds
    | ds => ds
  1 < ds.length && ds.head? == some '0' && ds.all Char.isDigit

/-- The free-form value of a plain text; none if it is an integer past the words of 64 bits that 128
bits can hold. Numbers that are not finite have no value. -/
def resolve? (s : String) : Option Json :=
  let cs := s.toList
  if s.isEmpty || isNull s then some .null
  else match bool? s with
    | some b => some (.bool b)
    | none =>
      let unsigned := unsigned? cs
      let negated := negated? cs
      -- Integers come before binary64 numbers, so `1` stays an integer.
      if let some n := unsigned.filter (· < Nat.pow 2 64) then some (.number (.integer n))
      else if let some n := negated.filter (· ≤ Nat.pow 2 63) then some (.number (.integer (-(n : Int))))
      -- Such an integer is read, but no number of JSON can hold it.
      else if unsigned.any (· < Nat.pow 2 128) || negated.any (· ≤ Nat.pow 2 127) then none
      else match (if isZeroPadded cs then none else binary? s) with
        | some x => some (if x.isFinite then .number (.binary x) else .null)
        | none => some (.string s)

namespace Node

/-- The name that a node is as a key: a text of any form. -/
def name? : Node → Option String
  | .scalar text _ => some text
  | _ => none

mutual

/-- The free-form value of a node. A repeated name keeps its last value. -/
def json? : Node → Option Json
  | .scalar text true => resolve? text
  | .scalar text false => some (.string text)
  | .sequence ns => (jsonItems? ns).map .array
  | .mapping ps => (jsonPairs? ps).map fun ms => .object (Json.Object.ofMembers ms)
  | .deep => none

/-- The free-form values of items. -/
def jsonItems? : List Node → Option (List Json)
  | [] => some []
  | n :: ns => do
    let v ← json? n
    let vs ← jsonItems? ns
    return v :: vs

/-- The names and free-form values of pairs. -/
def jsonPairs? : List (Node × Node) → Option (List (String × Json))
  | [] => some []
  | (k, n) :: ps => do
    let name ← k.name?
    let v ← json? n
    let ms ← jsonPairs? ps
    return (name, v) :: ms

end

end Node

end DesignCompiler.Yaml
