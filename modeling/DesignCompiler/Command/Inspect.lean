import DesignCompiler.Command.Session

/-!
# DesignCompiler — checking and showing designs

* `validate` — builds and emits every page of every design, and reports all that fail;
* `showTrees` — prints the trees of a design.
-/

namespace DesignCompiler.Command

/-- The project that a path leads to. -/
def loadProject [Readers] (config : String) : Action Project :=
  consult (.within "Failed to load configuration") fun d => Project.load d ⟨config⟩

/-- Every page of some designs, with the name of the design and the number of the page. -/
def numberedPages (designs : List (String × Design)) : List (String × Nat × Page) :=
  designs.flatMap fun (name, design) =>
    design.pages.zipIdx.map fun (page, index) => (name, index, page)

def pageFault? (s : Settings) (p : Page) : Option PageError :=
  match emitComponents s p.components with
  | .ok _ => none
  | .error e => some e

def faults (s : Settings) (pages : List (String × Nat × Page)) :
    List (String × Nat × PageError) :=
  pages.filterMap fun (name, index, page) => (pageFault? s page).map fun e => (name, index, e)

/-- Checks every page of every design. -/
def validate [Readers] (config : String) : Action Unit := do
  info ("Validating configuration: " ++ config)
  let project ← loadProject config
  info ("✓ Project: " ++ project.config.name)
  info ("✓ Version: " ++ project.config.version)
  info ("✓ Dialect: " ++ project.config.settings.dialect.title)
  let designs ← consult (.within "Failed to load designs") project.designs
  -- All pages are checked, so that one run reports every fault.
  let pages := numberedPages designs
  let failed := faults project.config.settings pages
  failed.forM fun (name, index, e) =>
    note .error ("✗ " ++ name ++ " page " ++ toString index ++ ": " ++ e.cause)
  if !failed.isEmpty then
    fail (toString failed.length ++ " of " ++ toString pages.length ++ " pages failed validation")
  info ("✓ " ++ toString designs.length ++ " designs, " ++ toString pages.length ++
    " pages are valid")

/-- The pages of a design that are to be shown, with their numbers. -/
def selectPages (name : String) (design : Design) : Option Nat → Action (List (Page × Nat))
  | none => return design.pages.zipIdx
  | some index =>
    match design.pages[index]? with
    | some page => return [(page, index)]
    | none => fail ("Design '" ++ name ++ "' has no page " ++ toString index ++ " (" ++
        toString design.pages.length ++ " pages)")

def showTree (name : String) (page : Page) (index : Nat) : Action Unit := do
  match PageTree.build page.components with
  | .error d =>
    throw ⟨"Page " ++ toString index ++ " of '" ++ name ++ "' is malformed", [d.message]⟩
  | .ok tree =>
    print ("# page " ++ page.name.getD (toString index) ++ " (" ++ toString tree.size ++
      " components, depth " ++ toString tree.depth ++ ")\n")
    print tree.outline

/-- Prints the trees of a design, or of one of its pages. -/
def showTrees [Readers] (config name : String) (page : Option Nat) : Action Unit := do
  let project ← loadProject config
  let design ← consult (.within ("Failed to load design '" ++ name ++ "'")) fun d =>
    project.design d name
  let pages ← selectPages name design page
  pages.forM fun (p, index) => showTree name p index

end DesignCompiler.Command
