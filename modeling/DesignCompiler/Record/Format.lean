import DesignCompiler.Json.Value

/-!
# DesignCompiler — formats of documents

Records are read from JSON and from YAML. The two formats disagree about what counts as a number, a
text or an absent value, and about how a record may be spelled; they agree about fields, defaults
and repetitions. `Format` holds what they disagree about, `DesignCompiler.Record.Layout` the rest.

* `Format` — what a format's values can be read as, and its errors;
* `Shape` — the two ways to spell a record.
-/

namespace DesignCompiler

/-- How a document spells a record. -/
inductive Shape (ν ε : Type) where
  /-- Values by name. A name may be spoiled, and the record may break off after the values. -/
  | named (members : List (Except ε String × ν)) (ending : Except ε Unit)
  /-- Values in the order of the fields. The record may break off after them. -/
  | positional (items : List ν) (ending : Except ε Unit)

/-- A format whose values are `ν` and whose errors are `ε`. -/
class Format (ν : Type) (ε : outParam Type) where
  /-- An unsigned word of 64 bits. -/
  word : ν → Except ε UInt64
  /-- An unsigned word of 64 bits that counts something. -/
  count : ν → Except ε UInt64
  /-- A signed word of 64 bits. -/
  integer : ν → Except ε Int64
  /-- A binary64 number. -/
  binary : ν → Except ε Binary64
  /-- A text. -/
  text : ν → Except ε String
  /-- A truth value. -/
  flag : ν → Except ε Bool
  /-- Whether the value stands for the absence of one. -/
  isAbsent : ν → Bool
  /-- The items of a list, and whether it breaks off after them. -/
  items : ν → Except ε (List ν × Except ε Unit)
  /-- Free-form members. -/
  object : ν → Except ε Json.Object
  /-- One of several words. -/
  word? : (choices : List String) → ν → Except ε String
  /-- A record with a name and a number of fields. -/
  shape : (name : String) → ν → Except ε (Shape ν ε)
  /-- Passes over a value. -/
  skip : ν → Except ε Unit
  /-- A field is there twice. -/
  repeated : (field : String) → ε
  /-- A field is not there. -/
  missing : (field : String) → ε
  /-- A positional record ends before a field that has no default. -/
  short : (index : Nat) → (name : String) → (fields : Nat) → ε
  /-- A positional record goes on after its last field. -/
  long : ε

namespace Format

variable {ν ε : Type} [Format ν ε]

/-- A value that may be absent. -/
def optional (read : ν → Except ε α) (v : ν) : Except ε (Option α) :=
  if isAbsent v then pure none else (read v).map some

/-- A list, its items read one after the other. -/
def list (read : ν → Except ε α) (v : ν) : Except ε (List α) := do
  let (vs, ending) ← items v
  let as ← vs.mapM read
  ending
  return as

end Format

end DesignCompiler
