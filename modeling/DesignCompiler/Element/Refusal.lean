import DesignCompiler.Design.Component

/-!
# DesignCompiler — refused components

Why a component has no element.

* `Reason` — what is wrong with a value;
* `Place` — which field holds it;
* `Refusal` — the component, the field and the reason, and its text.
-/

namespace DesignCompiler

/-- The largest magnitude of a coordinate or a length, in pixels. -/
def maxMagnitude : Nat := 1000000000

/-- What is wrong with a value. -/
inductive Reason where
  | notAString
  | notABoolean
  | notANumber
  | notALength
  | notAColor (text : String)
  | notAWeight
  | unknownAlignment (word : String)
  | unknownFit (word : String)
  | notAnOpacity (value : Binary64)
  | breaksStylesheet
  | emptySource
  | notFinite
  | negative
  | tooLarge
deriving DecidableEq, Repr

def Reason.text : Reason → String
  | notAString => "expected a string"
  | notABoolean => "expected a boolean"
  | notANumber => "expected a number"
  | notALength => "must be a number between 0 and " ++ toString maxMagnitude
  | notAColor t => "'" ++ t ++ "' is not a color"
  | notAWeight => "expected normal, bold, bolder, lighter or 100..900"
  | unknownAlignment w => "unknown alignment '" ++ w ++ "'"
  | unknownFit w => "unknown fit '" ++ w ++ "'"
  | notAnOpacity v => v.plain ++ " is outside 0..=1"
  | breaksStylesheet => "must not contain ';', '\x7b', '\x7d', '<', '>' or line breaks"
  | emptySource => "must not be empty"
  | notFinite => "must be a finite number"
  | negative => "must not be negative"
  | tooLarge => "must be at most " ++ toString maxMagnitude ++ " in magnitude"

/-- A field of a component. -/
inductive Place where
  | kind
  | appearance (key : String)
  | geometry (part : String)
deriving DecidableEq, Repr

/-- The path of a field. -/
def Place.text : Place → String
  | kind => "kind"
  | appearance key => "appearance." ++ key
  | geometry part => "geometry." ++ part

/-- A component that cannot be written. -/
inductive Refusal where
  /-- Its kind is no kind of element. -/
  | unknownKind (id : ComponentId) (kind : String)
  /-- A property is absent under each of its spellings. -/
  | missingField (id : ComponentId) (place : Place)
  /-- A value is of no use. -/
  | invalidField (id : ComponentId) (place : Place) (reason : Reason)
deriving DecidableEq, Repr

namespace Refusal

def componentId : Refusal → ComponentId
  | unknownKind id _ => id
  | missingField id _ => id
  | invalidField id _ _ => id

/-- The field at fault. -/
def place : Refusal → Place
  | unknownKind _ _ => .kind
  | missingField _ p => p
  | invalidField _ p _ => p

def message : Refusal → String
  | unknownKind id kind => "component " ++ id.text ++ ": unknown kind '" ++ kind ++ "'"
  | missingField id p => "component " ++ id.text ++ ": missing required field `" ++ p.text ++ "`"
  | invalidField id p r => "component " ++ id.text ++ ": invalid `" ++ p.text ++ "`: " ++ r.text

end Refusal

end DesignCompiler
