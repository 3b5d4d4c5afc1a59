import DesignCompiler.Json.Value

/-!
# DesignCompiler — components

A component is the flat record of one element on a page. Nesting is said only by the parent it
names; `DesignCompiler.Tree` rebuilds it.

* `ComponentId`, `PageId` — identifiers, unsigned words of 64 bits;
* `Geometry` — position and size in the coordinate space of the parent;
* `Component` — the record, and `Component.json`, its compact text.
-/

namespace DesignCompiler

/-- The identifier of a component. -/
structure ComponentId where
  value : UInt64
deriving DecidableEq, Repr, Inhabited

/-- The identifier of a page. -/
structure PageId where
  value : UInt64
deriving DecidableEq, Repr, Inhabited

/-- The number that an identifier is, by which identifiers are ordered. -/
def ComponentId.toNat (id : ComponentId) : Nat := id.value.toNat

/-- The digits of an identifier. -/
def ComponentId.text (id : ComponentId) : String := toString id.value.toNat

/-- The digits of an identifier. -/
def PageId.text (id : PageId) : String := toString id.value.toNat

/-- Position and size relative to the coordinate space of the parent. -/
structure Geometry where
  x : Binary64
  y : Binary64
  width : Binary64
  height : Binary64
deriving DecidableEq, Repr

/-- Presentation properties by name. -/
abbrev Appearance := Json.Object

/-- One element of a page. -/
structure Component where
  /-- Unique on its page. -/
  id : ComponentId
  /-- Absent from the root of a page. -/
  parentId : Option ComponentId := none
  pageId : Option PageId := none
  /-- Which element it is, in one of several spellings. -/
  kind : String
  name : String := ""
  /-- Paint order among the children of one parent, the lowest first. -/
  order : Int64 := 0
  /-- Absent from a component that the page flow places. -/
  geometry : Option Geometry := none
  appearance : Appearance := []
deriving Repr

def Component.isRoot (c : Component) : Bool := c.parentId.isNone

/-! ## Compact text -/

namespace Json

def ofWord (w : UInt64) : Json := .number (.integer w.toNat)

/-- A value, or `null` for none. -/
def ofOption (f : α → Json) : Option α → Json
  | none => .null
  | some a => f a

end Json

/-- The members of a geometry's text. -/
def Geometry.json (g : Geometry) : Json :=
  .object [("x", .number (.binary g.x)), ("y", .number (.binary g.y)),
    ("width", .number (.binary g.width)), ("height", .number (.binary g.height))]

/-- The members of a component's text, in the order of its fields. An absent geometry and an empty
appearance have no member. -/
def Component.json (c : Component) : Json :=
  .object <|
    [("id", .ofWord c.id.value), ("parent_id", .ofOption (fun p => .ofWord p.value) c.parentId),
      ("page_id", .ofOption (fun p => .ofWord p.value) c.pageId), ("kind", .string c.kind),
      ("name", .string c.name), ("order", .number (.integer c.order.toInt))] ++
    (match c.geometry with
      | none => []
      | some g => [("geometry", g.json)]) ++
    (if c.appearance.isEmpty then [] else [("appearance", .object c.appearance)])

end DesignCompiler
