import DesignCompiler.Command.Session

/-!
# DesignCompiler — new projects

* `projectText`, `exampleDesign`, `ignoredFiles` — the files of a new project;
* `init` — makes a project in a folder, unless it has one.
-/

namespace DesignCompiler.Command

/-- The project file of a new project. The name stands in it as it was given. -/
def projectText (name : String) : String :=
  "# Pagesmith Project Configuration\nname: " ++ name ++
  "\nversion: \"0.1.0\"\n\ndesigns_dir: designs\noutput_dir: .pagesmith/out\n\n" ++
  "emit:\n  dialect: html\n  indent: 2\n  wrap_document: false\n"

/-- The design of a new project. -/
def exampleDesign : String :=
  "# Example design\n# Each page is a flat list of components linked by parent_id.\n" ++
  "id: 1\ntitle: Example\npages:\n  - id: 1\n    name: Home\n    components:\n" ++
  "      - id: 1\n        kind: container\n        name: Page\n" ++
  "        geometry: \x7b x: 0, y: 0, width: 800, height: 600 \x7d\n" ++
  "        appearance:\n          fill: \"#ffffff\"\n\n" ++
  "      - id: 2\n        parent_id: 1\n        kind: text\n        name: Title\n" ++
  "        order: 0\n        geometry: \x7b x: 40, y: 40, width: 720, height: 48 \x7d\n" ++
  "        appearance:\n          text: Hello, Pagesmith!\n          font_size: 32\n" ++
  "          font_weight: bold\n\n" ++
  "      - id: 3\n        parent_id: 1\n        kind: button\n        name: Get Started\n" ++
  "        order: 1\n        geometry: \x7b x: 40, y: 120, width: 160, height: 44 \x7d\n" ++
  "        appearance:\n          label: Get started\n          fill: \"#1f6feb\"\n" ++
  "          color: \"#ffffff\"\n          radius: 6\n"

/-- The files of a new project that version control passes over. -/
def ignoredFiles : String :=
  "# Pagesmith output\n.pagesmith/\n\n# IDE\n.idea/\n.vscode/\n*.swp\n"

/-- A failure of the files, without more context. -/
def bareFailure (e : FileError) : Failure := { message := e.message }

def placeOf (path : Path) : Action Location := do
  match (← get).disk.locate path with
  | .ok (.folder l) => return l
  | .ok (.file l) => return l
  | .ok (.vacant _) => throw (bareFailure .notFound)
  | .error e => throw (bareFailure e)

/-- Makes a project in a folder, which is made too if it is not there. Without a name the project
has that of the folder. -/
def init (path : String) (name : Option String) : Action Unit := do
  let dir : Path := ⟨path⟩
  if !(← get).disk.has dir then perform bareFailure (Disk.makeFolders dir)
  let place ← placeOf dir
  let name ← match name, place.getLast? with
    | some n, _ => pure n
    | none, some n => pure n
    | none, none => fail "Could not determine project name from path"
  let file := dir.join ⟨configFile⟩
  if (← get).disk.has file then
    fail ("Directory '" ++ path ++ "' already contains a " ++ configFile)
  info ("Creating new Pagesmith project: " ++ name)
  perform bareFailure do
    Disk.makeFolders (dir.join ⟨"designs"⟩)
    Disk.saveText file (projectText name)
    Disk.saveText (dir.join ⟨"designs/example.yaml"⟩) exampleDesign
    Disk.saveText (dir.join ⟨".gitignore"⟩) ignoredFiles
  info ("✓ Created project '" ++ name ++ "' at /" ++ "/".intercalate place)
  info ""
  info "Next steps:"
  if path ≠ "." then info ("  cd " ++ path)
  info "  pagesmith validate    # Check designs"
  info "  pagesmith compile     # Export page code"

end DesignCompiler.Command
