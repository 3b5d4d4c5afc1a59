import DesignCompiler.Design.Component

/-!
# DesignCompiler — pages and designs

A page is one canvas: a flat list of components. A design is a list of pages. Both are immutable
copies of what an editor stores.

* `Page.normalize`, `Design.normalize` — give every component without a page the page it stands on;
* `Page.json`, `Design.json` — the compact texts.
-/

namespace DesignCompiler

/-- One canvas. -/
structure Page where
  id : PageId
  /-- The label; a page without one is labelled by its root component. -/
  name : Option String := none
  /-- The components, in any order. -/
  components : List Component := []
deriving Repr

/-- A list of pages. -/
structure Design where
  id : UInt64
  title : String := "Untitled"
  /-- The pages, in display order. -/
  pages : List Page := []
deriving Repr

/-- The component with a page, its own if it names one. -/
def Component.onPage (page : PageId) (c : Component) : Component :=
  { c with pageId := some (c.pageId.getD page) }

def Page.normalize (p : Page) : Page :=
  { p with components := p.components.map (·.onPage p.id) }

def Design.normalize (d : Design) : Design :=
  { d with pages := d.pages.map Page.normalize }

/-! ## Compact text -/

/-- The members of a page's text. -/
def Page.json (p : Page) : Json :=
  .object [("id", .ofWord p.id.value), ("name", .ofOption .string p.name),
    ("components", .array (p.components.map Component.json))]

/-- The members of a design's text. -/
def Design.json (d : Design) : Json :=
  .object [("id", .ofWord d.id), ("title", .string d.title),
    ("pages", .array (d.pages.map Page.json))]

end DesignCompiler
