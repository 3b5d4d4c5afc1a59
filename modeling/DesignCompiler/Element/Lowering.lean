import DesignCompiler.Element.Basic
import DesignCompiler.Element.Color
import DesignCompiler.Element.Property
import DesignCompiler.Element.Refusal

/-!
# DesignCompiler — from components to elements

Every property that an element shows is checked here, so that no later stage has to.

* `Attributes` — a component's properties under one spelling each, and the readers of its values;
* `Attributes.element` — the element of a kind that has these attributes;
* `Component.element` — the element of a component;
* `Component.placement` — its checked geometry.

An element depends on nothing but the component's identifier, its kind and the attributes.
-/

namespace DesignCompiler

/-- The properties of a component: for each the spelling that counts, and the value. -/
structure Attributes where
  id : ComponentId
  get? : Property → Option (String × Json)

namespace Attributes

def of (c : Component) : Attributes :=
  ⟨c.id, Property.lookup c.appearance⟩

/-- Refuses the value of a spelling. -/
def refuse (a : Attributes) (key : String) (reason : Reason) : Except Refusal α :=
  .error (.invalidField a.id (.appearance key) reason)

/-! ## Values -/

/-- A text, as it stands. -/
def string (a : Attributes) (p : Property) : Except Refusal (Option String) :=
  match a.get? p with
  | none => pure none
  | some (_, .string s) => pure (some s)
  | some (key, _) => a.refuse key .notAString

/-- A text that has to be there. -/
def requiredString (a : Attributes) (p : Property) : Except Refusal String := do
  match ← a.string p with
  | some s => pure s
  | none => .error (.missingField a.id (.appearance p.preferred))

/-- A truth value. -/
def flag (a : Attributes) (p : Property) : Except Refusal (Option Bool) :=
  match a.get? p with
  | none => pure none
  | some (_, .bool b) => pure (some b)
  | some (key, _) => a.refuse key .notABoolean

/-- A word without the blanks around it and without the case of ASCII letters. -/
def normalizeWord (s : String) : String :=
  (Text.trim s).toLower

/-- A word and the spelling that holds it. -/
def keyword (a : Attributes) (p : Property) : Except Refusal (Option (String × String)) :=
  match a.get? p with
  | none => pure none
  | some (key, .string s) => pure (some (key, normalizeWord s))
  | some (key, _) => a.refuse key .notAString

/-- A text read from its end, without the units `px` there. -/
def dropUnits : List Char → List Char
  | 'x' :: 'p' :: cs => dropUnits cs
  | cs => cs

/-- The number of a length: a number, or a text that spells one, blanks and the unit `px` aside. -/
def measure? : Json → Option Binary64
  | .number n => some n.toBinary64
  | .string s =>
    -- The unit is taken off from the end, as often as it stands there.
    let bare := (dropUnits (Text.trimBy Text.isBlank s.toList).reverse).reverse
    Binary64.ofText? (Text.trimBy Text.isBlank bare)
  | _ => none

/-- A length in pixels: finite, not negative, and bounded. -/
def length (a : Attributes) (p : Property) : Except Refusal (Option Binary64) :=
  match a.get? p with
  | none => pure none
  | some (key, v) =>
    match measure? v with
    | none => a.refuse key .notANumber
    | some x => if x.isWithin maxMagnitude then pure (some x) else a.refuse key .notALength

/-- A color, without the blanks around it. -/
def color (a : Attributes) (p : Property) : Except Refusal (Option String) :=
  match a.get? p with
  | none => pure none
  | some (key, .string s) =>
    let t := Text.trim s
    if isColor t then pure (some t) else a.refuse key (.notAColor t)
  | some (key, _) => a.refuse key .notAString

/-- Whether a text could end the declaration or the element that it is written into. -/
def breaksStylesheet (s : String) : Bool :=
  s.toList.any fun c =>
    c == ';' || c == '{' || c == '}' || c == '<' || c == '>' || c == '\n' || c == '\r'

/-- Refuses a text of blanks. -/
def rejectBlank (a : Attributes) (p : Property) (s : String) : Except Refusal Unit :=
  if Text.isAllBlank s then a.refuse p.preferred .emptySource else pure ()

/-- Refuses a text that could end the declaration it is written into. The property is named by its
preferred spelling, whichever spelling holds the text. -/
def rejectBreaking (a : Attributes) (p : Property) (s : String) : Except Refusal Unit :=
  if breaksStylesheet s then a.refuse p.preferred .breaksStylesheet else pure ()

/-! ## Groups -/

/-- The line that a width and a color give: no width is one pixel, no color is that of the text, and
a line of no width is none. -/
def borderOf : Option Binary64 → Option String → Option Border
  | none, none => none
  | none, some c => some ⟨.ofNat 1, c⟩
  | some w, c => if w.isZero then none else some ⟨w, c.getD "currentColor"⟩

/-- An opacity, from zero to one. -/
def opacity (a : Attributes) : Except Refusal (Option Binary64) := do
  -- It is read as a length first, which keeps it from being negative.
  match ← a.length .opacity with
  | none => pure none
  | some o =>
    if o.exceeds 1 then a.refuse Property.opacity.preferred (.notAnOpacity o) else pure (some o)

def boxStyle (a : Attributes) : Except Refusal BoxStyle := do
  let width ← a.length .borderWidth
  let line ← a.color .borderColor
  let opacity ← a.opacity
  let fill ← a.color .fill
  let radius ← a.length .radius
  return { fill, border := borderOf width line, radius, opacity }

def weights : List String :=
  ["normal", "bold", "bolder", "lighter", "100", "200", "300", "400", "500", "600", "700", "800",
    "900"]

/-- The word for a font's weight; a value that is no number and no text has none. -/
def weightWord : Json → String
  | .number n => n.render
  | .string s => normalizeWord s
  | _ => ""

def fontWeight (a : Attributes) : Except Refusal (Option String) :=
  match a.get? .fontWeight with
  | none => pure none
  | some (key, v) =>
    let w := weightWord v
    if weights.contains w then pure (some w) else a.refuse key .notAWeight

/-- The alignment that a word names. -/
def alignment? : String → Option Alignment
  | "left" => some .left
  | "start" => some .left
  | "center" => some .center
  | "right" => some .right
  | "end" => some .right
  | "justify" => some .justify
  | _ => none

def textAlign (a : Attributes) : Except Refusal (Option Alignment) := do
  match ← a.keyword .textAlign with
  | none => pure none
  | some (key, word) =>
    match alignment? word with
    | some l => pure (some l)
    | none => a.refuse key (.unknownAlignment word)

def fontFamily (a : Attributes) : Except Refusal (Option String) := do
  match ← a.string .fontFamily with
  | none => pure none
  | some f => do
    a.rejectBreaking .fontFamily f
    return some f

/-- The font of a text. -/
def typography (a : Attributes) : Except Refusal Typography := do
  let fontFamily ← a.fontFamily
  let fontWeight ← a.fontWeight
  let textAlign ← a.textAlign
  let color ← a.color .color
  let fontSize ← a.length .fontSize
  return { color, fontFamily, fontSize, fontWeight, textAlign }

/-- The fit that a word names. -/
def fit? : String → Option Fit
  | "cover" => some .cover
  | "contain" => some .contain
  | "fill" => some .fill
  | "stretch" => some .fill
  | "none" => some .none
  | "scale-down" => some .scaleDown
  | "scale_down" => some .scaleDown
  | _ => none

/-- How a picture fills its box. -/
def fit (a : Attributes) : Except Refusal (Option Fit) := do
  match ← a.keyword .fit with
  | none => pure none
  | some (key, word) =>
    match fit? word with
    | some f => pure (some f)
    | none => a.refuse key (.unknownFit word)

/-- Where a picture is found. -/
def source (a : Attributes) : Except Refusal String := do
  let s ← a.requiredString .source
  -- A source of blanks leads nowhere; any other is written as it stands.
  a.rejectBlank .source s
  a.rejectBreaking .source s
  return s

/-! ## Elements -/

def element (a : Attributes) : Kind → Except Refusal Element
  | .container => return .container (← a.boxStyle)
  | .text => do
    let text ← a.requiredString .text
    let typography ← a.typography
    let style ← a.boxStyle
    return .text { text, typography, style }
  | .image => do
    let source ← a.source
    let alt ← a.string .alt
    let fit ← a.fit
    let style ← a.boxStyle
    return .image { source, alt, fit, style }
  | .button => do
    let label ← a.requiredString .label
    let href ← a.string .href
    let disabled ← a.flag .disabled
    let typography ← a.typography
    let style ← a.boxStyle
    -- A button that does not say so is not disabled.
    return .button { label, href, disabled := disabled.getD false, typography, style }

end Attributes

namespace Component

def element (c : Component) : Except Refusal Element :=
  match Kind.ofText? c.kind with
  | none => .error (.unknownKind c.id c.kind)
  | some kind => (Attributes.of c).element kind

/-- Checks one number of a geometry: it is finite and bounded, and a size is not negative. -/
def checkCoordinate (c : Component) (part : String) (isSize : Bool) (x : Binary64) :
    Except Refusal Unit :=
  let refuse (r : Reason) : Except Refusal Unit := .error (.invalidField c.id (.geometry part) r)
  if !x.isFinite then refuse .notFinite
  else if isSize && x.isBelowZero then refuse .negative
  else if x.exceeds maxMagnitude then refuse .tooLarge
  else pure ()

/-- The geometry of a component, its four numbers checked in turn. -/
def placement (c : Component) : Except Refusal (Option Geometry) :=
  match c.geometry with
  | none => pure none
  | some g => do
    c.checkCoordinate "x" false g.x
    c.checkCoordinate "y" false g.y
    c.checkCoordinate "width" true g.width
    c.checkCoordinate "height" true g.height
    return some g

end Component

end DesignCompiler
