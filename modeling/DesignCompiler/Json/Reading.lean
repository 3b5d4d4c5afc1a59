import DesignCompiler.Json.Source
import DesignCompiler.Record.Layout

/-!
# DesignCompiler — records in JSON texts

JSON as a format of documents.

* `Mismatch`, `Error` — what a text can have that a reader does not want;
* the instance of `Format`;
* `Json.read` — a record from a text that holds nothing else.
-/

namespace DesignCompiler.Json

/-- A value that was found where another was wanted. -/
inductive Found where
  | null
  | bool (value : Bool)
  | integer (value : Int)
  | binary (value : Binary64)
  | string (value : String)
  | array
  | object
deriving DecidableEq, Repr

/-- What a text says of a record that cannot be. -/
inductive Mismatch where
  | wrongType (found : Found) (expected : String)
  | outOfRange (value : Int) (expected : String)
  | unknownWord (word : String) (choices : List String)
  | repeated (field : String)
  | missing (field : String)
  | short (index : Nat) (name : String) (fields : Nat)
deriving DecidableEq, Repr

/-- Why a text has no record. -/
inductive Error where
  | fault (f : Fault)
  | mismatch (m : Mismatch)
deriving DecidableEq, Repr

/-- The words for what was found. -/
def Found.text : Found → String
  | null => "null"
  | bool b => "boolean `" ++ (if b then "true" else "false") ++ "`"
  | integer n => "integer `" ++ toString n ++ "`"
  | binary x => "floating point `" ++ x.json ++ "`"
  | string s => "string " ++ Text.quoted s
  | array => "sequence"
  | object => "map"

/-- Words to choose from. -/
def choiceText (choices : List String) : String :=
  " or ".intercalate (choices.map fun c => "`" ++ c ++ "`")

def Mismatch.message : Mismatch → String
  | wrongType found expected => "invalid type: " ++ found.text ++ ", expected " ++ expected
  | outOfRange n expected =>
    "invalid value: " ++ (Found.integer n).text ++ ", expected " ++ expected
  | unknownWord word choices =>
    "unknown variant `" ++ word ++ "`, expected " ++ choiceText choices
  | repeated field => "duplicate field `" ++ field ++ "`"
  | missing field => "missing field `" ++ field ++ "`"
  | short index name fields =>
    "invalid length " ++ toString index ++ ", expected struct " ++ name ++ " with " ++
      toString fields ++ " elements"

namespace Source

def orFault : Except Fault α → Except Error α
  | .ok a => pure a
  | .error f => .error (.fault f)

/-- What a value is, if it is one. An array or an object counts from its opening bracket on, however
it goes on. -/
def found : Source → Except Fault Found
  | .null => pure .null
  | .bool b => pure (.bool b)
  | .number n =>
    (orMalformed n).map fun
      | .integer k => .integer k
      | .binary x => .binary x
  | .string s => (orMalformed s).map .string
  | .array _ _ => pure .array
  | .object _ _ => pure .object
  | .deep (.object _ _) => pure .object
  | .deep _ => pure .array
  | .broken b => .error b.read

/-- Refuses a value. -/
def wrongType (expected : String) (v : Source) : Except Error α := do
  let f ← orFault v.found
  .error (.mismatch (.wrongType f expected))

/-- An unsigned word. -/
def asWord (expected : String) (v : Source) : Except Error UInt64 :=
  match v with
  | .number (some (.integer n)) =>
    -- A numeral is an integer only if a word holds it, so it is not too large.
    if 0 ≤ n then pure (.ofNat n.toNat) else .error (.mismatch (.outOfRange n expected))
  | v => v.wrongType expected

/-- A signed word. -/
def asInteger (v : Source) : Except Error Int64 :=
  match v with
  | .number (some (.integer n)) =>
    -- A numeral is an integer only if a word holds it, so it is not too small.
    if n < Nat.pow 2 63 then pure (.ofInt n) else .error (.mismatch (.outOfRange n "i64"))
  | v => v.wrongType "i64"

def asBinary (v : Source) : Except Error Binary64 :=
  match v with
  | .number (some n) => pure n.toBinary64
  | v => v.wrongType "f64"

def asText (v : Source) : Except Error String :=
  match v with
  | .string (some s) => pure s
  | v => v.wrongType "a string"

/-- A truth value. -/
def asFlag (v : Source) : Except Error Bool :=
  match v with
  | .bool b => pure b
  | v => v.wrongType "a boolean"

def asItems (v : Source) : Except Error (List Source × Except Error Unit) :=
  match v with
  | .array vs breach => pure (vs, orFault (endRead breach))
  | .deep (.array _ _) => .error (.fault .malformed)
  | v => v.wrongType "a sequence"

def asObject (v : Source) : Except Error Json.Object :=
  match v with
  | .object ms breach => orFault do
    let ms ← jsonMembers ms
    endRead breach
    return Object.ofMembers ms
  | .deep (.object _ _) => .error (.fault .malformed)
  | v => v.wrongType "a map"

def asWord? (choices : List String) (v : Source) : Except Error String := do
  let s ← v.asText
  if choices.contains s then return s else .error (.mismatch (.unknownWord s choices))

/-- A record is an object or an array. -/
def asShape (name : String) (v : Source) : Except Error (Shape Source Error) :=
  match v with
  | .object ms breach =>
    pure (.named (ms.map fun (k, v) => (orFault (orMalformed k), v)) (orFault (endRead breach)))
  | .array vs breach => pure (.positional vs (orFault (endRead breach)))
  | .deep _ => .error (.fault .malformed)
  | v => v.wrongType ("struct " ++ name)

instance : Format Source Error where
  word := asWord "u64"
  count := asWord "usize"
  integer := asInteger
  binary := asBinary
  text := asText
  flag := asFlag
  isAbsent
    | .null => true
    | _ => false
  items := asItems
  object := asObject
  word? := asWord?
  shape := asShape
  skip v := orFault v.skip
  repeated field := .mismatch (.repeated field)
  missing field := .mismatch (.missing field)
  short index name fields := .mismatch (.short index name fields)
  long := .fault .malformed

end Source

/-- A record from a text that holds nothing else. -/
def read (record : Source → Except Error α) (text : String) : Except Error α := do
  let (v, ending) := Source.ofText Source.maxDepth text
  let a ← record v
  -- What follows the value is looked at only after the record was read.
  Source.orFault ending
  return a

end DesignCompiler.Json
