import DesignCompiler.Markup.Writer
import DesignCompiler.Stylesheet.Writer

/-!
# DesignCompiler — the code of a page

Emission turns a tree into markup and stylesheet. All components are checked before any text is
written, so a page is emitted whole or not at all.

* `Code` — the two texts, and the class of each component;
* `PageTree.emit` — the code of a tree.
-/

namespace DesignCompiler

/-- The code of one page. -/
structure Code where
  markup : String
  stylesheet : String
  /-- The class of each component, in pre-order. -/
  classes : List (ComponentId × String)
deriving DecidableEq, Repr

def Code.class? (c : Code) (id : ComponentId) : Option String :=
  c.classes.lookup id

/-- The code of a tree, or the first component in pre-order that has none. -/
def PageTree.emit (t : PageTree) (s : Settings) : Except Refusal Code := do
  let es ← t.pageElements s.classPrefix
  let inOrder := t.preorder.filterMap (es[·]?)
  return {
    markup := t.markup s es
    stylesheet := DesignCompiler.stylesheet s.indent inOrder
    classes := inOrder.map fun e => (e.id, e.className) }

end DesignCompiler
