import DesignCompiler.Emission.PageElement
import DesignCompiler.Markup.Escape

/-!
# DesignCompiler — tags

The tag of an element, its attributes, and the lines that an element takes.

* `PageElement.tag` — the tag's name;
* `PageElement.ownAttributes` — names and values, in the order in which they are written;
* `PageElement.contentLines?` — the lines of text inside the element;
* `startTag`, `endTag`, `leaf` — the pieces of markup.
-/

namespace DesignCompiler

/-- The name of an element's tag. Only a box may hold other elements, so a text or a picture that
has children is written as one. -/
def PageElement.tag (e : PageElement) : String :=
  match e.element with
  | .container _ => "div"
  | .text _ => if e.hasChildren then "div" else "p"
  | .image _ => if e.hasChildren then "div" else "img"
  | .button b => if b.href.isSome then "a" else "button"

/-- The name of the attribute that holds the class. -/
def Dialect.classAttribute : Dialect → String
  | .html => "class"
  | .jsx => "className"

/-- The attributes that say what an element is; those without a value are switches. -/
def PageElement.ownAttributes (e : PageElement) : List (String × Option String) :=
  match e.element with
  | .container _ => []
  | .text _ => []
  | .image p =>
    if e.hasChildren then
      match p.alt with
      | none => []
      | some alt => [("role", some "img"), ("aria-label", some alt)]
    else [("src", some p.source), ("alt", some (p.alt.getD ""))]
  | .button b =>
    match b.href with
    -- A link has no attribute that disables it.
    | some target =>
      ("href", some target) :: (if b.disabled then [("aria-disabled", some "true")] else [])
    | none => ("type", some "button") :: (if b.disabled then [("disabled", none)] else [])

/-- The lines of the text inside an element; carriage returns at their ends do not count. -/
def PageElement.contentLines? (e : PageElement) : Option (List (List Char)) :=
  e.element.content?.map fun s =>
    (Text.pieces '\n' s.toList).map (Text.dropEndWhile (· == '\r'))

namespace Markup

/-- An attribute and the blank before it. -/
def attributeText (d : Dialect) : String × Option String → List Char
  | (name, none) => ' ' :: name.toList
  | (name, some value) => ' ' :: name.toList ++ ['=', '"'] ++ escapeValue d value.toList ++ ['"']

/-- The class of an element, which has no character that would have to be escaped. -/
def classText (d : Dialect) (e : PageElement) : List Char :=
  ' ' :: d.classAttribute.toList ++ ['=', '"'] ++ e.className.toList ++ ['"']

/-- The part that all start tags have: the name, the class and the other attributes. -/
def openTag (d : Dialect) (e : PageElement) : List Char :=
  '<' :: e.tag.toList ++ classText d e ++ e.ownAttributes.flatMap (attributeText d)

/-- The tag before what stands inside an element. -/
def startTag (d : Dialect) (e : PageElement) : List Char :=
  openTag d e ++ ['>']

/-- The tag of an element with nothing inside. -/
def closedTag (d : Dialect) (e : PageElement) : List Char :=
  openTag d e ++ [' ', '/', '>']

/-- The tag after what stands inside an element. -/
def endTag (e : PageElement) : List Char :=
  ['<', '/'] ++ e.tag.toList ++ ['>']

/-- The tag between two lines of text. -/
def lineBreak : Dialect → List Char
  | .html => ['<', 'b', 'r', '>']
  | .jsx => ['<', 'b', 'r', ' ', '/', '>']

/-- Lines of text with breaks between them. -/
def content (d : Dialect) (lines : List (List Char)) : List Char :=
  (lineBreak d).intercalate (lines.map (escapeText d))

/-- An element without children. Only pictures have no end tag in HTML; in JSX every element with
nothing inside is closed by its start tag. -/
def leaf (d : Dialect) (e : PageElement) : List Char :=
  match e.contentLines?, d with
  | some lines, d => startTag d e ++ content d lines ++ endTag e
  | none, .jsx => closedTag d e
  | none, .html => if e.tag = "img" then startTag d e else startTag d e ++ endTag e

end Markup

end DesignCompiler
