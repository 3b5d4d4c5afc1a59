import DesignCompiler.Design.Component

/-!
# DesignCompiler — page trees

A page tree keeps its nodes in slots, by ascending identifier. A node knows the slot of its parent
and the slots of its children in paint order.

* `PageTree` — the nodes, the slot of the root, and the page;
* `walk` — from a list of slots down through the children, each node before its children;
* `bisect`, `PageTree.find?` — the slot of an identifier, found by halving;
* `PageTree.preorder`, `PageTree.outline` — the whole tree, as slots and as text.
-/

namespace DesignCompiler

/-- One slot of a tree. -/
structure Node where
  component : Component
  /-- The slot of the parent; the root has none. -/
  parent : Option Nat
  /-- The slots of the children, in paint order. -/
  children : List Nat
  /-- The distance from the root. -/
  depth : Nat
deriving Repr

/-- A tree of components. -/
structure PageTree where
  /-- By ascending identifier. -/
  nodes : List Node
  /-- The slot of the root. -/
  root : Nat
  /-- The page that all components name. -/
  pageId : Option PageId
deriving Repr

/-- The slots that a walk meets, each with its depth: the first waiting slot, then its children,
then the slots that waited behind it. No more slots are met than `limit`. -/
def walk (children : Nat → List Nat) : (limit : Nat) → List (Nat × Nat) → List (Nat × Nat)
  | 0, _ => []
  | _, [] => []
  | limit + 1, (slot, depth) :: rest =>
    -- Children are put in front, which makes it a walk in pre-order.
    (slot, depth) :: walk children limit ((children slot).map (·, depth + 1) ++ rest)

/-- The place at which `target` stands among the `count` ascending numbers from place `low` on, if it
is one of them. The half that cannot hold it is left out until one place remains. -/
def bisect (keys : List Nat) (target low count : Nat) : Nat :=
  if count ≤ 1 then low
  else
    let half := count / 2
    let middle := low + half
    -- The middle stays in the upper half, since it may be the target itself.
    bisect keys target (if target < keys.getD middle 0 then low else middle) (count - half)
termination_by count
decreasing_by omega

namespace PageTree

/-- How many nodes a tree has. -/
def size (t : PageTree) : Nat :=
  t.nodes.length

def children (t : PageTree) (slot : Nat) : List Nat :=
  match t.nodes[slot]? with
  | some n => n.children
  | none => []

/-- The slot of a component. Slots follow the identifiers, so the only slot that can hold one is
found by halving. -/
def find? (t : PageTree) (id : ComponentId) : Option Nat :=
  let slot := bisect (t.nodes.map (·.component.id.toNat)) id.toNat 0 t.size
  match t.nodes[slot]? with
  | some n => if n.component.id = id then some slot else none
  | none => none

/-- The number of levels. -/
def depth (t : PageTree) : Nat :=
  (t.nodes.map Node.depth).foldl max 0 + 1

/-- All slots, each before its children, and children in paint order. -/
def preorder (t : PageTree) : List Nat :=
  (walk t.children t.size [(t.root, 0)]).map Prod.fst

def preorderNodes (t : PageTree) : List Node :=
  t.preorder.filterMap (t.nodes[·]?)

end PageTree

/-! ## Outlines -/

/-- A node's line of an outline: indented by its depth, the kind, the identifier, and the name if
there is one. -/
def Node.outline (n : Node) : String :=
  let c := n.component
  String.ofList (List.replicate (2 * n.depth) ' ') ++ c.kind ++ " #" ++ c.id.text ++
    (if c.name.isEmpty then "" else " \"" ++ c.name ++ "\"") ++ "\n"

/-- The lines of all nodes. -/
def PageTree.outline (t : PageTree) : String :=
  String.join (t.preorderNodes.map Node.outline)

end DesignCompiler
