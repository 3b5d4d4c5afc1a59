import DesignCompiler.Emission.Settings
import DesignCompiler.Record.Layout

/-!
# DesignCompiler — project files

A project is a folder with a file `pagesmith.yaml`, which names the project, the folders of designs
and of output, and the settings of the output.

* `Config` — what the file says;
* `Settings.layout`, `Config.layout` — how it says it.
-/

namespace DesignCompiler

/-- What a project file says. -/
structure Config where
  name : String
  version : String := "0.1.0"
  /-- The folder of designs, below that of the project. -/
  designsDir : String := "designs"
  /-- The folder of output, below that of the project. -/
  outputDir : String := ".pagesmith/out"
  settings : Settings := {}
deriving Repr

/-- The name of the project file. -/
def configFile : String := "pagesmith.yaml"

variable {ν ε : Type} [Format ν ε]

/-! ## Settings -/

namespace Settings

inductive Field where
  | dialect
  | indent
  | classPrefix
  | wrapDocument
deriving DecidableEq, Repr

/-- Settings that are being read. -/
structure Draft where
  dialect : Option Dialect := none
  indent : Option UInt64 := none
  classPrefix : Option (Option String) := none
  wrapDocument : Option Bool := none

/-- Reads a dialect, by its exact word. -/
def readDialect (v : ν) : Except ε Dialect := do
  let word ← Format.word? (Dialect.all.map Dialect.keyword) v
  return (Dialect.ofKeyword? word).getD .html

/-- Reads the value of a field. -/
def Draft.set (k : Field) (v : ν) (d : Draft) : Except ε Draft :=
  match k with
  | .dialect => do return { d with dialect := some (← readDialect v) }
  | .indent => do return { d with indent := some (← Format.count v) }
  | .classPrefix => do return { d with classPrefix := some (← Format.optional Format.text v) }
  | .wrapDocument => do return { d with wrapDocument := some (← Format.flag v) }

/-- Settings, all of which have defaults. -/
def layout : Layout ν ε Field Draft Settings where
  name := "EmitConfig"
  fields := [.dialect, .indent, .classPrefix, .wrapDocument]
  names
    | .dialect => ["dialect"]
    | .indent => ["indent"]
    | .classPrefix => ["class_prefix"]
    | .wrapDocument => ["wrap_document"]
  has d
    | .dialect => d.dialect.isSome
    | .indent => d.indent.isSome
    | .classPrefix => d.classPrefix.isSome
    | .wrapDocument => d.wrapDocument.isSome
  set := Draft.set
  isRequired _ := false
  empty := {}
  finish d := some {
    dialect := d.dialect.getD .html
    indent := (d.indent.getD 2).toNat
    classPrefix := d.classPrefix.getD none
    wrapDocument := d.wrapDocument.getD false }

end Settings

/-! ## Projects -/

namespace Config

/-- The fields of a project file. -/
inductive Field where
  | name
  | version
  | designsDir
  | outputDir
  | settings
deriving DecidableEq, Repr

/-- A project file that is being read. -/
structure Draft where
  name : Option String := none
  version : Option String := none
  designsDir : Option String := none
  outputDir : Option String := none
  settings : Option Settings := none

/-- Reads the value of a field. -/
def Draft.set (k : Field) (v : ν) (d : Draft) : Except ε Draft :=
  match k with
  | .name => do return { d with name := some (← Format.text v) }
  | .version => do return { d with version := some (← Format.text v) }
  | .designsDir => do return { d with designsDir := some (← Format.text v) }
  | .outputDir => do return { d with outputDir := some (← Format.text v) }
  | .settings => do return { d with settings := some (← Settings.layout.read v) }

/-- Project files: the name is required. -/
def layout : Layout ν ε Field Draft Config where
  name := "ProjectConfig"
  fields := [.name, .version, .designsDir, .outputDir, .settings]
  names
    | .name => ["name"]
    | .version => ["version"]
    | .designsDir => ["designs_dir"]
    | .outputDir => ["output_dir"]
    | .settings => ["emit"]
  has d
    | .name => d.name.isSome
    | .version => d.version.isSome
    | .designsDir => d.designsDir.isSome
    | .outputDir => d.outputDir.isSome
    | .settings => d.settings.isSome
  set := Draft.set
  isRequired
    | .name => true
    | _ => false
  empty := {}
  finish d := do
    let name ← d.name
    return {
      name
      version := d.version.getD "0.1.0"
      designsDir := d.designsDir.getD "designs"
      outputDir := d.outputDir.getD ".pagesmith/out"
      settings := d.settings.getD {} }

end Config

end DesignCompiler
