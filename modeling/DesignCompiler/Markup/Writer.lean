import DesignCompiler.Markup.Tag

/-!
# DesignCompiler — markup

Every node is one element, and its children stand inside it in paint order. A stack of visits walks
the tree: entering a node writes its start, leaving it writes its end.

* `line` — a line indented by its depth;
* `Visit` — what is still to do;
* `PageTree.markup` — the markup of a tree.
-/

namespace DesignCompiler

namespace Markup

/-- A line of markup, indented for its depth. -/
def line (indent depth : Nat) (text : List Char) : List Char :=
  List.replicate (depth * indent) ' ' ++ text ++ ['\n']

/-- The lines before an element's children: the start tag, and its text one level deeper. -/
def opening (s : Settings) (depth : Nat) (e : PageElement) : List Char :=
  line s.indent depth (startTag s.dialect e) ++
    match e.contentLines? with
    | some lines => line s.indent (depth + 1) (content s.dialect lines)
    | none => []

/-- What is still to do at a slot. -/
inductive Visit where
  | enter (slot : Nat)
  | leave (slot : Nat)
deriving DecidableEq, Repr

/-- The lines that one visit writes, and the visits that come before all others. -/
def step (s : Settings) (t : PageTree) (es : List PageElement) : Visit → List Char × List Visit
  | .enter slot =>
    match t.nodes[slot]?, es[slot]? with
    | some n, some e =>
      if n.children.isEmpty then (line s.indent n.depth (leaf s.dialect e), [])
      -- The end tag waits below all children.
      else (opening s n.depth e, n.children.map .enter ++ [.leave slot])
    | _, _ => ([], [])
  | .leave slot =>
    match t.nodes[slot]?, es[slot]? with
    | some n, some e => (line s.indent n.depth (endTag e), [])
    | _, _ => ([], [])

/-- The lines that a stack of visits writes, in at most `limit` visits. -/
def run (s : Settings) (t : PageTree) (es : List PageElement) :
    (limit : Nat) → List Visit → List Char
  | 0, _ => []
  | _, [] => []
  | limit + 1, v :: rest =>
    let (text, next) := step s t es v
    text ++ run s t es limit (next ++ rest)

end Markup

/-- The markup of a tree. Every node is entered once and left at most once. -/
def PageTree.markup (t : PageTree) (s : Settings) (es : List PageElement) : String :=
  String.ofList (Markup.run s t es (2 * t.size) [.enter t.root])

end DesignCompiler
