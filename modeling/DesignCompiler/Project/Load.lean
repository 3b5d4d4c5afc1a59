import DesignCompiler.Design.Reading
import DesignCompiler.Project.Config
import DesignCompiler.Project.Error

/-!
# DesignCompiler — loading projects and designs

* `Readers` — how project files and designs are read from texts;
* `Project` — a project file and the folder it stands in;
* `Project.load` — the project at a path, which leads to the folder or to the file;
* `Design.load` — the design in a file, whose extension says the format;
* `discover` — all designs below a folder, by name;
* `Project.designs`, `Project.design` — all designs of a project, and one.
-/

namespace DesignCompiler

/-- How the texts of project files and of designs are read. What is proved of loading and of commands
holds for any readers, so they are left to inference. -/
class Readers where
  config : String → Except Yaml.Error Config
  jsonDesign : String → Except Json.Error Design
  yamlDesign : String → Except Yaml.Error Design

/-- The readers of the program. -/
instance Readers.standard : Readers where
  config := Yaml.read Config.layout.read
  jsonDesign := Json.read Design.layout.read
  yamlDesign := Yaml.read Design.layout.read

/-- A loaded project. -/
structure Project where
  config : Config
  /-- The folder of the project. -/
  base : Path
deriving Repr

/-- The text of a file, or an error of the project. -/
def Disk.read (d : Disk) (p : Path) : Except ProjectError String :=
  (d.readText p).mapError .file

namespace Project

def designsPath (p : Project) : Path := p.base.join ⟨p.config.designsDir⟩

def outputPath (p : Project) : Path := p.base.join ⟨p.config.outputDir⟩

/-- The project file that a path leads to, and the project's folder. -/
def locate (d : Disk) (path : Path) : Path × Path :=
  if (d.folder? path).isSome then (path.join ⟨configFile⟩, path)
  -- A file without a folder in its path stands in the working folder.
  else (path, path.parent?.getD ⟨"."⟩)

def load [Readers] (d : Disk) (path : Path) : Except ProjectError Project := do
  let (file, base) := locate d path
  if !d.has file then .error (.configNotFound file.text)
  let text ← d.read file
  let config ← (Readers.config text).mapError .yaml
  config.settings.check.mapError .settings
  return { config, base }

end Project

/-! ## Designs -/

/-- The formats in which a design is stored. -/
inductive DesignFormat where
  | json
  | yaml
deriving DecidableEq, Repr

def DesignFormat.ofPath? (p : Path) : Option DesignFormat :=
  match p.extension? with
  | some "json" => some .json
  | some "yaml" => some .yaml
  | some "yml" => some .yaml
  | _ => none

def Design.ofText [Readers] (f : DesignFormat) (text : String) : Except ProjectError Design :=
  match f with
  | .json => (Readers.jsonDesign text).mapError .json
  | .yaml => (Readers.yamlDesign text).mapError .yaml

/-- The design in a file. The file is read before its extension is looked at. -/
def Design.load [Readers] (d : Disk) (p : Path) : Except ProjectError Design := do
  let text ← d.read p
  match DesignFormat.ofPath? p with
  | none => .error (.designFormat p.text)
  | some f => return (← Design.ofText f text).normalize

/-! ## Discovery -/

/-- A file with a design, and the name of the design. -/
structure DesignFile where
  name : String
  path : Path
deriving DecidableEq, Repr

/-- A name without its last extension. The dot in front of the extension stays if nothing but
another dot would be left. -/
def dropExtension (name : String) : String :=
  let stem := (Path.splitName name).1
  if stem = "." then ".." else stem

/-- The name of the design in a file below the folder of designs: the names that lead to it, the
last one without its extension. The folder itself can be a file; then there are no names. -/
def designName (names : List String) : String :=
  match names.getLast? with
  | none => ""
  | some last => "/".intercalate (names.dropLast ++ [dropExtension last])

/-- The files with designs among files below a folder. -/
def designFiles (dir : Path) (files : List (List String)) : List DesignFile :=
  files.filterMap fun names =>
    let path := names.foldl (fun p n => p.join ⟨n⟩) dir
    if (DesignFormat.ofPath? path).isSome then some ⟨designName names, path⟩ else none

/-- Files with different names of designs, or the first file whose name another before it has. -/
def distinct : (seen : List DesignFile) → List DesignFile → Except ProjectError (List DesignFile)
  | _, [] => pure []
  | seen, f :: fs =>
    match seen.find? (·.name == f.name) with
    | some g => .error (.duplicateDesign f.name g.path.text f.path.text)
    | none => do
      let rest ← distinct (seen ++ [f]) fs
      return f :: rest

/-- All designs below a folder, by name. A folder that is not there has none. -/
def discover (d : Disk) (dir : Path) : Except ProjectError (List DesignFile) :=
  match d.locate dir with
  | .ok (.folder l) => do
    let found ← distinct [] (designFiles dir (d.filesBelow l))
    return found.mergeSort fun a b => a.name ≤ b.name
  -- A file in the place of the folder is its own only entry.
  | .ok (.file _) => pure (designFiles dir [[]])
  | _ => pure []

namespace Project

def designFiles (p : Project) (d : Disk) : Except ProjectError (List DesignFile) :=
  discover d p.designsPath

def designs [Readers] (p : Project) (d : Disk) :
    Except ProjectError (List (String × Design)) := do
  let files ← p.designFiles d
  files.mapM fun f => do return (f.name, ← Design.load d f.path)

def design [Readers] (p : Project) (d : Disk) (name : String) : Except ProjectError Design := do
  let files ← p.designFiles d
  match files.find? (·.name == name) with
  | some f => Design.load d f.path
  -- A name that no design has counts as a file that is not there.
  | none => .error (.configNotFound (p.designsPath.join ⟨name⟩).text)

end Project

end DesignCompiler
