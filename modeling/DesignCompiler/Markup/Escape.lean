import DesignCompiler.Emission.Settings

/-!
# DesignCompiler — escaped text

The characters that have a meaning in markup are written as entities.

* `escapeText` — the text between two tags;
* `escapeValue` — the value of an attribute, in which a double quote has a meaning too.
-/

namespace DesignCompiler.Markup

/-- A character of a text. Braces open an expression in JSX. -/
def escapeTextChar (d : Dialect) (c : Char) : List Char :=
  match c, d with
  | '&', _ => ['&', 'a', 'm', 'p', ';']
  | '<', _ => ['&', 'l', 't', ';']
  | '>', _ => ['&', 'g', 't', ';']
  | '{', .jsx => ['&', '#', '1', '2', '3', ';']
  | '}', .jsx => ['&', '#', '1', '2', '5', ';']
  | c, _ => [c]

def escapeValueChar (d : Dialect) (c : Char) : List Char :=
  if c = '"' then ['&', 'q', 'u', 'o', 't', ';'] else escapeTextChar d c

/-- A text between two tags. -/
def escapeText (d : Dialect) (cs : List Char) : List Char :=
  cs.flatMap (escapeTextChar d)

def escapeValue (d : Dialect) (cs : List Char) : List Char :=
  cs.flatMap (escapeValueChar d)

end DesignCompiler.Markup
