import DesignCompiler.Stylesheet.Declarations

/-!
# DesignCompiler — stylesheets

A stylesheet has one rule for each element, with a blank line between two rules.

* `PageElement.rule` — the rule of an element;
* `stylesheet` — the rules of elements.
-/

namespace DesignCompiler

namespace Stylesheet

def declarationLine (indent : Nat) (d : Declaration) : String :=
  String.ofList (List.replicate indent ' ') ++ d.property ++ ": " ++ d.value ++ ";\n"

end Stylesheet

/-- The rule of an element: its class, and its declarations in braces. -/
def PageElement.rule (indent : Nat) (e : PageElement) : String :=
  "." ++ e.className ++ " \x7b\n" ++
    String.join (e.declarations.map (Stylesheet.declarationLine indent)) ++ "\x7d\n"

/-- The rules of elements, in their order. -/
def stylesheet (indent : Nat) (es : List PageElement) : String :=
  "\n".intercalate (es.map (PageElement.rule indent))

end DesignCompiler
