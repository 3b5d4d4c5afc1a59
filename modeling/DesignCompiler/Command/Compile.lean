import DesignCompiler.Command.Inspect

/-!
# DesignCompiler — the compile command

Compiles one design or all of them, then prints the code or writes it. Nothing is printed or written
before everything is compiled.

* `selectDesigns` — the compiled designs;
* `compile` — the command.
-/

namespace DesignCompiler.Command

def compileOne [Readers] (project : Project) (s : Settings) (name : String) :
    Action CompiledDesign := do
  let files ← consult (fun f => f) project.designFiles
  match files.find? (·.name == name) with
  | none => fail ("Design not found: " ++ name)
  | some file =>
    consult (.within ("Failed to compile design '" ++ name ++ "'")) fun d =>
      compileFile d s file.path file.name

/-- The design of a name, or all designs, compiled. -/
def selectDesigns [Readers] (project : Project) (s : Settings) :
    Option String → Action (List CompiledDesign)
  | some name => do return [← compileOne project s name]
  | none => do
    info ("Compiling all designs in " ++ project.designsPath.text)
    consult (.within "Failed to compile designs") fun d => compileAll d s project.designsPath

/-- The printed form of a page: both files, each below a comment with its name. -/
def pageText (design : String) (p : CompiledPage) : String :=
  "/* " ++ design ++ "/" ++ p.markupFile ++ " */\n" ++ p.markup ++ "\n" ++
  "/* " ++ design ++ "/" ++ p.stylesheetFile ++ " */\n" ++ p.stylesheet ++ "\n"

def printDesign (c : CompiledDesign) : Action Unit :=
  print (String.join (c.pages.map (pageText c.name)))

def writeFailure (name : String) (e : FileError) : Failure :=
  (Failure.ofProject (.file e)).within ("Failed to write output for '" ++ name ++ "'")

/-- Writes a design below the folder of output. -/
def saveDesign (output : Path) (c : CompiledDesign) : Action Unit := do
  let written ← perform (writeFailure c.name) (c.save output)
  info ("  ✓ " ++ c.name ++ " (" ++ toString written.length ++ " files)")

def compile [Readers] (config : String) (design : Option String) (dialect : Option Dialect)
    (stdout : Bool) : Action Unit := do
  info ("Loading configuration from " ++ config)
  let project ← loadProject config
  let settings := project.config.settings
  -- The dialect of the command line comes before that of the project file.
  let settings := { settings with dialect := dialect.getD settings.dialect }
  let results ← selectDesigns project settings design
  results.forM fun c => if stdout then printDesign c else saveDesign project.outputPath c
  info ("Compiled " ++ toString results.length ++ " designs")

end DesignCompiler.Command
