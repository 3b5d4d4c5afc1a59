import DesignCompiler.ClassName.Allocator
import DesignCompiler.Element.Lowering
import DesignCompiler.Emission.Settings
import DesignCompiler.Tree.Build

/-!
# DesignCompiler — elements of a page

Before any text is written, every node of a tree gets its element, its geometry and its class. The
nodes are met in pre-order, so the same tree always gets the same classes, and the first component
that has no element stops the emission.

* `PageElement` — what markup and stylesheet are written from;
* `PageElement.ofNode` — the page element of one node, and the classes that are taken after it;
* `PageTree.pageElements` — the page elements of all nodes, by slot.
-/

namespace DesignCompiler

/-- A component that is ready to be written. -/
structure PageElement where
  id : ComponentId
  /-- Unique on the page. -/
  className : String
  geometry : Option Geometry
  isRoot : Bool
  hasChildren : Bool
  element : Element
deriving DecidableEq, Repr

/-- The element and the geometry of a component; a fault of the element comes first. -/
def Component.lower (c : Component) : Except Refusal (Element × Option Geometry) := do
  let element ← c.element
  let geometry ← c.placement
  return (element, geometry)

/-- The page element of a slot's node, and the classes that are taken then. -/
def PageElement.ofNode (root slot : Nat) (n : Node) (names : ClassName.Allocator) :
    Except Refusal (PageElement × ClassName.Allocator) := do
  let (element, geometry) ← n.component.lower
  let (className, names) := names.allocate n.component.name element.kind.name
  return ({ id := n.component.id, className, geometry, isRoot := slot == root,
            hasChildren := !n.children.isEmpty, element }, names)

namespace PageTree

/-- The page elements of slots, in the order in which the slots are met. -/
def elementsOfSlots (t : PageTree) : List Nat → ClassName.Allocator →
    Except Refusal (List (Nat × PageElement))
  | [], _ => pure []
  | slot :: slots, names =>
    match t.nodes[slot]? with
    | none => t.elementsOfSlots slots names
    | some n => do
      let (e, names) ← PageElement.ofNode t.root slot n names
      let es ← t.elementsOfSlots slots names
      return (slot, e) :: es

/-- The page elements of a tree in pre-order, each with its slot. -/
def elementsInOrder (t : PageTree) (classPrefix : Option String) :
    Except Refusal (List (Nat × PageElement)) :=
  t.elementsOfSlots t.preorder { lead := classPrefix }

def pageElements (t : PageTree) (classPrefix : Option String) :
    Except Refusal (List PageElement) := do
  let es ← t.elementsInOrder classPrefix
  return (List.range t.size).filterMap fun slot => es.lookup slot

end PageTree

end DesignCompiler
