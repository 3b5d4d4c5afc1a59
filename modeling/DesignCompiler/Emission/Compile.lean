import DesignCompiler.Design.Page
import DesignCompiler.Emission.Code
import DesignCompiler.Emission.Document
import DesignCompiler.Text.Digest

/-!
# DesignCompiler — compiled pages

Compilation takes the components of a page through the tree to its two files.

* `PageError` — a list of components that is no tree, or a component that has no element;
* `compileNamed` — one page, its file name unique among those handed out before;
* `compileComponents`, `Page.compile`, `Design.compile` — a bare list, a page, all pages of a
  design.
-/

namespace DesignCompiler

/-- Why a page has no code. -/
inductive PageError where
  | structural (defect : Defect)
  | emission (refusal : Refusal)
deriving DecidableEq, Repr

namespace PageError

/-- The message of what went wrong itself. -/
def cause : PageError → String
  | structural d => d.message
  | emission r => r.message

/-- The message with the stage at which it went wrong. -/
def message : PageError → String
  | structural d => "structural error: " ++ d.message
  | emission r => "emission error: " ++ r.message

end PageError

/-- A page that is ready to be saved. -/
structure CompiledPage where
  /-- The page that the components name. -/
  pageId : Option PageId
  name : String
  /-- The form of the name that can stand in a file name. -/
  slug : String
  dialect : Dialect
  /-- The markup, or the whole document if pages are wrapped. -/
  markup : String
  stylesheet : String
  /-- The digest of markup and stylesheet. -/
  hash : String
deriving DecidableEq, Repr

def stylesheetFile (slug : String) : String :=
  slug ++ ".css"

namespace CompiledPage

def markupFile (p : CompiledPage) : String :=
  p.slug ++ "." ++ p.dialect.keyword

def stylesheetFile (p : CompiledPage) : String :=
  DesignCompiler.stylesheetFile p.slug

end CompiledPage

/-- The bytes that the hash of a page is taken of: the markup, a zero, the stylesheet. -/
def hashedBytes (markup stylesheet : String) : List UInt8 :=
  markup.toUTF8.data.toList ++ 0 :: stylesheet.toUTF8.data.toList

def contentHash (markup stylesheet : String) : String :=
  digest (hashedBytes markup stylesheet)

def emitComponents (s : Settings) (components : List Component) :
    Except PageError (PageTree × Code) :=
  match PageTree.build components with
  | .error d => .error (.structural d)
  | .ok tree =>
    match tree.emit s with
    | .error r => .error (.emission r)
    | .ok code => pure (tree, code)

def PageTree.rootName (t : PageTree) : String :=
  match t.nodes[t.root]? with
  | some n => n.component.name
  | none => ""

/-- The name of a page: the given one, else that of the root, else one made from the page's
identifier. Names that are blank do not count. -/
def pageName (given : Option String) (t : PageTree) : String :=
  match given.filter fun n => !Text.isAllBlank n with
  | some n => n
  | none =>
    if !Text.isAllBlank t.rootName then t.rootName
    else match t.pageId with
      | some id => "page " ++ id.text
      | none => "page"

/-- One page, and the slugs that are taken then. -/
def compileNamed (s : Settings) (components : List Component) (given : Option String)
    (slugs : ClassName.Allocator) : Except PageError (CompiledPage × ClassName.Allocator) := do
  let (tree, code) ← emitComponents s components
  let name := pageName given tree
  let (slug, slugs) := slugs.allocate name "page"
  -- The hash is taken of what is saved, so the document around the markup counts.
  let markup :=
    if s.wrapDocument then Document.render s.dialect name (stylesheetFile slug) code.markup
    else code.markup
  return ({ pageId := tree.pageId, name, slug, dialect := s.dialect, markup,
            stylesheet := code.stylesheet, hash := contentHash markup code.stylesheet }, slugs)

/-- No slug is taken, and slugs have no prefix. -/
def noSlugs : ClassName.Allocator := { lead := none }

/-- A page of components that has no name of its own. -/
def compileComponents (s : Settings) (components : List Component) :
    Except PageError CompiledPage :=
  (compileNamed s components none noSlugs).map Prod.fst

def Page.compile (s : Settings) (p : Page) : Except PageError CompiledPage :=
  (compileNamed s p.components p.name noSlugs).map Prod.fst

/-- Pages one after the other, their slugs different from each other. -/
def compilePages (s : Settings) : List Page → ClassName.Allocator →
    Except PageError (List CompiledPage)
  | [], _ => pure []
  | p :: ps, slugs => do
    let (page, slugs) ← compileNamed s p.components p.name slugs
    let pages ← compilePages s ps slugs
    return page :: pages

def Design.compile (s : Settings) (d : Design) : Except PageError (List CompiledPage) :=
  compilePages s d.pages noSlugs

end DesignCompiler
