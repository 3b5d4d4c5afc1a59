import DesignCompiler.Design.Component

/-!
# DesignCompiler — defects of component lists

Why a list of components is no tree.

* `Defect` — the causes, with the components that show them;
* `Defect.reason`, `Defect.message` — a fixed word for the cause, and the full text;
* `Defect.componentId` — the component to look at first.
-/

namespace DesignCompiler

/-- Why components do not make a tree. -/
inductive Defect where
  /-- There are none. -/
  | empty
  /-- One stands on another page than the component with the lowest identifier. -/
  | mixedPages (id : ComponentId) (expected found : Option PageId)
  /-- Two have the same identifier. -/
  | duplicateId (id : ComponentId)
  /-- Every one names a parent. -/
  | noRoot
  /-- Several name no parent. -/
  | multipleRoots (ids : List ComponentId)
  /-- One names a parent that is not there. -/
  | danglingParent (id parent : ComponentId)
  /-- Some cannot be reached from the root. -/
  | cycleOrOrphan (ids : List ComponentId)
deriving DecidableEq, Repr

namespace Defect

/-- The word for a cause. -/
def reason : Defect → String
  | empty => "empty component set"
  | mixedPages _ _ _ => "mixed pages"
  | duplicateId _ => "duplicate id"
  | noRoot => "no root"
  | multipleRoots _ => "multiple roots"
  | danglingParent _ _ => "dangling parent reference"
  | cycleOrOrphan _ => "cycle or orphaned subtree"

/-- The component to look at first. -/
def componentId : Defect → Option ComponentId
  | empty => none
  | mixedPages id _ _ => some id
  | duplicateId id => some id
  | noRoot => none
  | multipleRoots ids => ids.head?
  | danglingParent id _ => some id
  | cycleOrOrphan ids => ids.head?

def pageText : Option PageId → String
  | none => "None"
  | some p => "Some(PageId(" ++ p.text ++ "))"

/-- Identifiers with commas between them. -/
def joinIds (ids : List ComponentId) : String :=
  ", ".intercalate (ids.map ComponentId.text)

/-- The full text. -/
def message (d : Defect) : String :=
  match d with
  | empty => d.reason
  | mixedPages id expected found =>
    "component " ++ id.text ++ " belongs to page " ++ pageText found ++ ", expected page " ++
      pageText expected
  | duplicateId id => "duplicate component id " ++ id.text
  | noRoot => d.reason
  | multipleRoots ids => d.reason ++ ": " ++ joinIds ids
  | danglingParent id parent =>
    d.reason ++ ": component " ++ id.text ++ " references missing parent " ++ parent.text
  | cycleOrOrphan ids => d.reason ++ ": " ++ joinIds ids

end Defect

end DesignCompiler
