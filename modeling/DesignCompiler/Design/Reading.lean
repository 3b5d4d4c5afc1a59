import DesignCompiler.Design.Page
import DesignCompiler.Record.Layout

/-!
# DesignCompiler — reading designs

The layouts of the records of a design, for every format of documents.

* `Geometry.layout`, `Component.layout`, `Page.layout`, `Design.layout` — fields, the names that
  they had in older exports, and defaults.

A draft has a value for each field that was read. A field that may be absent and was read as absent
is a `some none`, so that a repetition is noticed.
-/

namespace DesignCompiler

variable {ν ε : Type} [Format ν ε]

/-! ## Geometries -/

namespace Geometry

inductive Field where
  | x
  | y
  | width
  | height
deriving DecidableEq, Repr

structure Draft where
  x : Option Binary64 := none
  y : Option Binary64 := none
  width : Option Binary64 := none
  height : Option Binary64 := none

def Draft.set (k : Field) (v : ν) (d : Draft) : Except ε Draft := do
  let n ← Format.binary v
  match k with
  | .x => return { d with x := some n }
  | .y => return { d with y := some n }
  | .width => return { d with width := some n }
  | .height => return { d with height := some n }

/-- Geometries: the size is required, the position is the origin. -/
def layout : Layout ν ε Field Draft Geometry where
  name := "Geometry"
  fields := [.x, .y, .width, .height]
  names
    | .x => ["x"]
    | .y => ["y"]
    | .width => ["width", "w"]
    | .height => ["height", "h"]
  has d
    | .x => d.x.isSome
    | .y => d.y.isSome
    | .width => d.width.isSome
    | .height => d.height.isSome
  set := Draft.set
  isRequired
    | .x => false
    | .y => false
    | .width => true
    | .height => true
  empty := {}
  finish d := do
    let width ← d.width
    let height ← d.height
    return { x := d.x.getD (.zero false), y := d.y.getD (.zero false), width, height }

end Geometry

/-! ## Components -/

namespace Component

inductive Field where
  | id
  | parentId
  | pageId
  | kind
  | name
  | order
  | geometry
  | appearance
deriving DecidableEq, Repr

structure Draft where
  id : Option ComponentId := none
  parentId : Option (Option ComponentId) := none
  pageId : Option (Option PageId) := none
  kind : Option String := none
  name : Option String := none
  order : Option Int64 := none
  geometry : Option (Option Geometry) := none
  appearance : Option Appearance := none

def readId (v : ν) : Except ε ComponentId :=
  (Format.word v).map ComponentId.mk

def readPageId (v : ν) : Except ε PageId :=
  (Format.word v).map PageId.mk

def Draft.set (k : Field) (v : ν) (d : Draft) : Except ε Draft :=
  match k with
  | .id => do return { d with id := some (← readId v) }
  | .parentId => do return { d with parentId := some (← Format.optional readId v) }
  | .pageId => do return { d with pageId := some (← Format.optional readPageId v) }
  | .kind => do return { d with kind := some (← Format.text v) }
  | .name => do return { d with name := some (← Format.text v) }
  | .order => do return { d with order := some (← Format.integer v) }
  | .geometry => do
    return { d with geometry := some (← Format.optional Geometry.layout.read v) }
  | .appearance => do return { d with appearance := some (← Format.object v) }

/-- Components: the identifier and the kind are required. -/
def layout : Layout ν ε Field Draft Component where
  name := "Component"
  fields := [.id, .parentId, .pageId, .kind, .name, .order, .geometry, .appearance]
  names
    | .id => ["id", "_id"]
    | .parentId => ["parent_id", "parentId"]
    | .pageId => ["page_id", "pageId"]
    | .kind => ["kind"]
    | .name => ["name"]
    | .order => ["order", "index"]
    | .geometry => ["geometry"]
    | .appearance => ["appearance"]
  has d
    | .id => d.id.isSome
    | .parentId => d.parentId.isSome
    | .pageId => d.pageId.isSome
    | .kind => d.kind.isSome
    | .name => d.name.isSome
    | .order => d.order.isSome
    | .geometry => d.geometry.isSome
    | .appearance => d.appearance.isSome
  set := Draft.set
  isRequired
    | .id => true
    | .kind => true
    | _ => false
  empty := {}
  finish d := do
    let id ← d.id
    let kind ← d.kind
    return {
      id, kind
      parentId := d.parentId.getD none
      pageId := d.pageId.getD none
      name := d.name.getD ""
      order := d.order.getD 0
      geometry := d.geometry.getD none
      appearance := d.appearance.getD [] }

end Component

/-! ## Pages -/

namespace Page

inductive Field where
  | id
  | name
  | components
deriving DecidableEq, Repr

structure Draft where
  id : Option PageId := none
  name : Option (Option String) := none
  components : Option (List Component) := none

def Draft.set (k : Field) (v : ν) (d : Draft) : Except ε Draft :=
  match k with
  | .id => do return { d with id := some (← Component.readPageId v) }
  | .name => do return { d with name := some (← Format.optional Format.text v) }
  | .components => do
    return { d with components := some (← Format.list Component.layout.read v) }

/-- Pages: the identifier is required. -/
def layout : Layout ν ε Field Draft Page where
  name := "PageSnapshot"
  fields := [.id, .name, .components]
  names
    | .id => ["id", "_id"]
    | .name => ["name"]
    | .components => ["components"]
  has d
    | .id => d.id.isSome
    | .name => d.name.isSome
    | .components => d.components.isSome
  set := Draft.set
  isRequired
    | .id => true
    | _ => false
  empty := {}
  finish d := do
    let id ← d.id
    return { id, name := d.name.getD none, components := d.components.getD [] }

end Page

/-! ## Designs -/

namespace Design

inductive Field where
  | id
  | title
  | pages
deriving DecidableEq, Repr

structure Draft where
  id : Option UInt64 := none
  title : Option String := none
  pages : Option (List Page) := none

def Draft.set (k : Field) (v : ν) (d : Draft) : Except ε Draft :=
  match k with
  | .id => do return { d with id := some (← Format.word v) }
  | .title => do return { d with title := some (← Format.text v) }
  | .pages => do return { d with pages := some (← Format.list Page.layout.read v) }

/-- Designs: the identifier is required, and a design without a title is untitled. -/
def layout : Layout ν ε Field Draft Design where
  name := "DesignSnapshot"
  fields := [.id, .title, .pages]
  names
    | .id => ["id", "_id"]
    | .title => ["title"]
    | .pages => ["pages"]
  has d
    | .id => d.id.isSome
    | .title => d.title.isSome
    | .pages => d.pages.isSome
  set := Draft.set
  isRequired
    | .id => true
    | _ => false
  empty := {}
  finish d := do
    let id ← d.id
    return { id, title := d.title.getD "Untitled", pages := d.pages.getD [] }

end Design

end DesignCompiler
