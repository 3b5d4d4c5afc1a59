import DesignCompiler.Record.Layout
import DesignCompiler.Yaml.Resolve

/-!
# DesignCompiler — records in YAML texts

YAML as a format of documents.

* `Yaml.Error` — what a text can have that a reader does not want;
* the instance of `Format`;
* `Yaml.read` — a record from a text.
-/

namespace DesignCompiler.Yaml

/-- Why a text has no record. -/
inductive Error where
  /-- The text does not have the form of a document. -/
  | malformed
  /-- A value is not of the wanted type, or out of range. -/
  | mismatch (expected : String)
  | repeated (field : String)
  | missing (field : String)
deriving DecidableEq, Repr

def orMismatch (expected : String) : Option α → Except Error α
  | some a => pure a
  | none => .error (.mismatch expected)

namespace Node

/-- The text of a plain scalar. -/
def plain? : Node → Option String
  | .scalar text true => some text
  | _ => none

/-- Whether a node is left out. -/
def isEmpty : Node → Bool
  | .scalar text true => text.isEmpty
  | _ => false

/-- An unsigned word. -/
def asWord (n : Node) : Except Error UInt64 :=
  orMismatch "word" do
    let s ← n.plain?
    let k ← unsigned? s.toList
    if k < Nat.pow 2 64 then some (.ofNat k) else none

/-- A signed word. -/
def asInteger (n : Node) : Except Error Int64 :=
  orMismatch "integer" do
    let s ← n.plain?
    let k ← signed? s.toList
    if -(Nat.pow 2 63 : Nat) ≤ k && k < (Nat.pow 2 63 : Nat) then some (.ofInt k) else none

/-- The items of a sequence; a node that is left out has none. -/
def asItems (n : Node) : Except Error (List Node × Except Error Unit) :=
  match n with
  | .sequence ns => pure (ns, pure ())
  | n => if n.isEmpty then pure ([], pure ()) else .error (.mismatch "sequence")

/-- The members of a mapping; a node that is left out has none. -/
def asObject (n : Node) : Except Error Json.Object :=
  match n with
  | .mapping ps => orMismatch "value" ((jsonPairs? ps).map Json.Object.ofMembers)
  | n => if n.isEmpty then pure [] else .error (.mismatch "mapping")

/-- A record is a mapping; a node that is left out is one without members. -/
def asShape (name : String) (n : Node) : Except Error (Shape Node Error) :=
  match n with
  | .mapping ps =>
    pure (.named (ps.map fun (k, v) => (orMismatch "name" k.name?, v)) (pure ()))
  | n => if n.isEmpty then pure (.named [] (pure ())) else .error (.mismatch name)

def asWord? (choices : List String) (n : Node) : Except Error String :=
  orMismatch "word" (n.name?.filter choices.contains)

instance : Format Node Error where
  word := asWord
  count := asWord
  integer := asInteger
  binary n := orMismatch "number" (n.plain?.bind binary?)
  text n := orMismatch "text" n.name?
  flag n := orMismatch "flag" (n.plain?.bind bool?)
  isAbsent n := n.plain?.any fun s => s.isEmpty || isNull s
  items := asItems
  object := asObject
  word? := asWord?
  shape := asShape
  skip _ := pure ()
  repeated := .repeated
  missing := .missing
  short _ name _ := .mismatch name
  long := .malformed

end Node

def read (record : Node → Except Error α) (text : String) : Except Error α :=
  match Node.ofText? text with
  | some n => record n
  | none => .error .malformed

end DesignCompiler.Yaml
