import DesignCompiler.Tree.Basic
import DesignCompiler.Tree.Defect

/-!
# DesignCompiler — building page trees

A list of components is a tree if they stand on one page, have different identifiers, all but one
name a parent, and every chain of parents leads to the root. Slots follow the identifiers and
children follow the paint order, so the order of the list does not matter.

* `checkMembers`, `onlyRoot`, `checkParents`, `checkMet` — the conditions, in the order in which they
  are checked;
* `reached`, `unreached` — what a walk from the root meets, and what it does not;
* `PageTree.build` — the tree, or the first condition that fails.
-/

namespace DesignCompiler

/-- Components by ascending identifier; those with the same one keep their order. -/
def sortById (cs : List Component) : List Component :=
  cs.mergeSort fun a b => a.id.toNat ≤ b.id.toNat

/-- Whether a component is painted before another: by order, then by identifier. -/
def paintsFirst (a b : Component) : Bool :=
  a.order.toInt < b.order.toInt || (a.order.toInt == b.order.toInt && a.id.toNat ≤ b.id.toNat)

/-- Checks sorted components one by one: each stands on the expected page and has another identifier
than the one before it. -/
def checkMembers (page : Option PageId) : (last : Option ComponentId) → List Component →
    Except Defect Unit
  | _, [] => pure ()
  | last, c :: cs =>
    if c.pageId ≠ page then .error (.mixedPages c.id page c.pageId)
    else if last = some c.id then .error (.duplicateId c.id)
    else checkMembers page (some c.id) cs

/-- The slot of the only component without a parent. -/
def onlyRoot (cs : List Component) : Except Defect Nat :=
  match cs.zipIdx.filter (·.1.isRoot) with
  | [] => .error .noRoot
  | [(_, slot)] => pure slot
  -- The list is sorted, so the roots are named by ascending identifier.
  | roots => .error (.multipleRoots (roots.map (·.1.id)))

def slot? (cs : List Component) (id : ComponentId) : Option Nat :=
  cs.findIdx? (·.id == id)

/-- The parent that a component names, if no component is it. -/
def missingParent? (cs : List Component) (c : Component) : Option ComponentId :=
  c.parentId.filter fun p => (slot? cs p).isNone

/-- Checks that every named parent is there. -/
def checkParents (cs : List Component) : Except Defect Unit :=
  match cs.findSome? fun c => (missingParent? cs c).map (Defect.danglingParent c.id) with
  | some d => .error d
  | none => pure ()

/-- The slots of a component's children, in paint order. -/
def childSlots (cs : List Component) (parent : Component) : List Nat :=
  ((cs.zipIdx.filter (·.1.parentId == some parent.id)).mergeSort
    fun a b => paintsFirst a.1 b.1).map (·.2)

/-- The slots of the children of every component, by slot. -/
def childLists (cs : List Component) : List (List Nat) :=
  cs.map (childSlots cs)

/-- The slots that a walk from the root meets, with their depths. -/
def reached (cs : List Component) (root : Nat) : List (Nat × Nat) :=
  let children := childLists cs
  walk (fun slot => children.getD slot []) cs.length [(root, 0)]

/-- The components that a walk does not meet. -/
def unreached (cs : List Component) (met : List (Nat × Nat)) : List ComponentId :=
  (cs.zipIdx.filter fun c => (met.lookup c.2).isNone).map (·.1.id)

/-- Checks that a walk met every component. One in a cycle, or below one, is not met. -/
def checkMet (cs : List Component) (met : List (Nat × Nat)) : Except Defect Unit :=
  match unreached cs met with
  | [] => pure ()
  | ids => .error (.cycleOrOrphan ids)

namespace PageTree

/-- The nodes of sorted components, with the depths at which a walk met them. -/
def arena (cs : List Component) (met : List (Nat × Nat)) : List Node :=
  let children := childLists cs
  cs.zipIdx.map fun (c, slot) =>
    { component := c, parent := c.parentId.bind (slot? cs), children := children.getD slot [],
      depth := (met.lookup slot).getD 0 : Node }

def build (components : List Component) : Except Defect PageTree := do
  let cs := sortById components
  -- The first component, which has the smallest identifier, says which page it is.
  let pageId ← match cs with
    | [] => .error .empty
    | first :: _ => pure first.pageId
  checkMembers pageId none cs
  let root ← onlyRoot cs
  checkParents cs
  let met := reached cs root
  checkMet cs met
  pure { nodes := arena cs met, root, pageId }

end PageTree

end DesignCompiler
