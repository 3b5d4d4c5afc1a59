import DesignCompiler.Record.Format

/-!
# DesignCompiler — layouts of records

A layout says which fields a record has and under which names. Fields may come in any order and the
fields that a layout does not know are passed over; each known field may come once. Faults are found
in the order of the text, missing fields only after all of it.

* `Layout` — the fields of a record, and the draft in which their values are collected;
* `Layout.ofMembers`, `Layout.ofItems` — the two spellings;
* `Layout.read` — the record that a value spells.
-/

namespace DesignCompiler

/-- The fields `κ` of a record `ρ`. A draft `δ` holds the values read so far. -/
structure Layout (ν ε κ δ ρ : Type) where
  /-- The record's name in messages. -/
  name : String
  /-- All fields, in the order of a positional record. -/
  fields : List κ
  /-- The names of a field, the canonical one first. -/
  names : κ → List String
  /-- Whether a draft has a value for a field. -/
  has : δ → κ → Bool
  /-- Reads the value of a field into a draft. -/
  set : κ → ν → δ → Except ε δ
  /-- Whether a field has no default. -/
  isRequired : κ → Bool
  /-- The draft without values. -/
  empty : δ
  /-- The record of a draft that has all required fields. -/
  finish : δ → Option ρ

namespace Layout

variable {ν ε κ δ ρ : Type} [Format ν ε]

/-- The canonical name of a field. -/
def canonical (l : Layout ν ε κ δ ρ) (k : κ) : String :=
  (l.names k).headD ""

def field? (l : Layout ν ε κ δ ρ) (name : String) : Option κ :=
  l.fields.find? fun k => (l.names k).contains name

def readMember (l : Layout ν ε κ δ ρ) (d : δ) (member : Except ε String × ν) : Except ε δ := do
  let name ← member.1
  match l.field? name with
  -- The fault of a value that is passed over may still be found.
  | none => do
    Format.skip member.2
    return d
  | some k =>
    if l.has d k then .error (Format.repeated ν (l.canonical k)) else l.set k member.2 d

/-- The required fields that a draft lacks. -/
def lacking (l : Layout ν ε κ δ ρ) (d : δ) : List κ :=
  l.fields.filter fun k => l.isRequired k && !l.has d k

/-- The record of a draft, or the first field that it lacks. -/
def complete (l : Layout ν ε κ δ ρ) (d : δ) : Except ε ρ :=
  match l.finish d with
  | some r => pure r
  | none => .error (Format.missing ν (((l.lacking d).head?.map l.canonical).getD ""))

/-- The record that members spell. -/
def ofMembers (l : Layout ν ε κ δ ρ) (members : List (Except ε String × ν))
    (ending : Except ε Unit) : Except ε ρ := do
  let d ← members.foldlM l.readMember l.empty
  ending
  l.complete d

/-- Reads items into a draft, one for each of the fields that are left. When the items run out, the
fields that are left have to have defaults. -/
def readItems (l : Layout ν ε κ δ ρ) (ending : Except ε Unit) (d : δ) : (index : Nat) → List κ →
    List ν → Except ε (δ × List ν)
  | _, [], vs => pure (d, vs)
  | index, k :: ks, [] => do
    ending
    -- The message counts the items that are there.
    if l.isRequired k then .error (Format.short ν index l.name l.fields.length)
    else l.readItems ending d (index + 1) ks []
  | index, k :: ks, v :: vs => do
    let d ← l.set k v d
    l.readItems ending d (index + 1) ks vs

/-- The record that items spell. -/
def ofItems (l : Layout ν ε κ δ ρ) (items : List ν) (ending : Except ε Unit) : Except ε ρ := do
  let (d, rest) ← l.readItems ending l.empty 0 l.fields items
  let record ← l.complete d
  if !rest.isEmpty then .error (Format.long ν)
  ending
  return record

/-- The record that a value spells. -/
def read (l : Layout ν ε κ δ ρ) (v : ν) : Except ε ρ := do
  match ← Format.shape l.name v with
  | .named members ending => l.ofMembers members ending
  | .positional items ending => l.ofItems items ending

end Layout

end DesignCompiler
