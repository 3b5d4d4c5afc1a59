import DesignCompiler.Project.Load

/-!
# DesignCompiler — compiling projects

All designs are compiled before the first file is written, so a design that cannot be compiled
leaves no output of the others behind.

* `CompiledDesign` — the pages of a design;
* `compileFile`, `compileAll` — one design, all designs below a folder;
* `CompiledDesign.save` — writes the pages into a folder of the design's name.
-/

namespace DesignCompiler

/-- A design that is ready to be saved. -/
structure CompiledDesign where
  /-- Also the folder, below that of the output. -/
  name : String
  title : String
  pages : List CompiledPage
deriving Repr

def compileFile [Readers] (d : Disk) (s : Settings) (p : Path) (name : String) :
    Except ProjectError CompiledDesign := do
  let design ← Design.load d p
  let pages ← (design.compile s).mapError .page
  return { name, title := design.title, pages }

/-- The name of a design that is compiled by its file alone. -/
def nameOfFile (p : Path) : String :=
  p.stem?.getD "design"

/-- All designs below a folder, compiled in the order of their names. -/
def compileAll [Readers] (d : Disk) (s : Settings) (dir : Path) :
    Except ProjectError (List CompiledDesign) := do
  let files ← discover d dir
  files.mapM fun f => compileFile d s f.path f.name

/-! ## Saving -/

namespace CompiledPage

/-- Writes the two files of a page into a folder; their paths. -/
def save (p : CompiledPage) (dir : Path) : Disk.Action FileError (List Path) := do
  Disk.makeFolders dir
  let markup := dir.join ⟨p.markupFile⟩
  let stylesheet := dir.join ⟨p.stylesheetFile⟩
  Disk.saveText markup p.markup
  Disk.saveText stylesheet p.stylesheet
  return [markup, stylesheet]

end CompiledPage

/-- Writes all pages of a design; the paths of their files. -/
def CompiledDesign.save (c : CompiledDesign) (output : Path) :
    Disk.Action FileError (List Path) := do
  let written ← c.pages.mapM (·.save (output.join ⟨c.name⟩))
  return written.flatten

end DesignCompiler
