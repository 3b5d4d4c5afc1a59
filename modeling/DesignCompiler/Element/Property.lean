import DesignCompiler.Design.Component
import DesignCompiler.Element.Kind

/-!
# DesignCompiler — presentation properties

A property has several spellings, and a component's appearance may hold any of them. The first
spelling in a fixed order that has a value counts; `null` is no value.

* `Property.spellings` — the spellings of a property, in the order of preference;
* `Property.lookup` — the value that counts, with its spelling;
* `Kind.properties` — the properties that an element of a kind reads.
-/

namespace DesignCompiler

/-- What can be said of an element's presentation. -/
inductive Property where
  | text
  | source
  | alt
  | fit
  | label
  | href
  | disabled
  | color
  | fontFamily
  | fontSize
  | fontWeight
  | textAlign
  | fill
  | borderWidth
  | borderColor
  | radius
  | opacity
deriving DecidableEq, Repr

namespace Property

/-- The spellings of a property, the preferred one first. -/
def spellings : Property → List String
  | text => ["text", "content"]
  | source => ["src", "url", "imageUrl", "image_url"]
  | alt => ["alt"]
  | fit => ["fit", "objectFit", "object_fit"]
  | label => ["label", "text"]
  | href => ["href", "link"]
  | disabled => ["disabled"]
  | color => ["color", "textColor", "text_color"]
  | fontFamily => ["fontFamily", "font_family"]
  | fontSize => ["fontSize", "font_size"]
  | fontWeight => ["fontWeight", "font_weight"]
  | textAlign => ["textAlign", "text_align"]
  | fill => ["fill", "background", "backgroundColor", "background_color"]
  | borderWidth => ["borderWidth", "border_width"]
  | borderColor => ["borderColor", "border_color", "stroke"]
  | radius => ["borderRadius", "border_radius", "radius"]
  | opacity => ["opacity"]

def preferred (p : Property) : String :=
  p.spellings.headD ""

/-- A member of an appearance, if it is there and not `null`. -/
def present? (a : Appearance) (key : String) : Option (String × Json) :=
  match a.get? key with
  | some v => if v.isNull then none else some (key, v)
  | none => none

/-- The first spelling that has a value, and the value. -/
def lookup (a : Appearance) (p : Property) : Option (String × Json) :=
  p.spellings.findSome? (present? a)

def ofBox : List Property := [borderWidth, borderColor, opacity, fill, radius]

def ofFont : List Property := [fontFamily, fontWeight, textAlign, color, fontSize]

end Property

/-- The properties that an element of a kind reads, in the order in which they are checked. -/
def Kind.properties : Kind → List Property
  | .container => Property.ofBox
  | .text => .text :: (Property.ofFont ++ Property.ofBox)
  | .image => [.source, .alt, .fit] ++ Property.ofBox
  | .button => [.label, .href, .disabled] ++ Property.ofFont ++ Property.ofBox

end DesignCompiler
