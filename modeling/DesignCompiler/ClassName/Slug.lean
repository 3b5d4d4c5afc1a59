import DesignCompiler.Text.Lowercase
import DesignCompiler.Text.Words

/-!
# DesignCompiler — slugs

A slug is the form of a free name that can stand in a selector and in a file name: words of ASCII
letters and digits in lower case, with one dash between two of them.

* `splitHumps` — a dash between a small letter or digit and a capital that follows it;
* `slug` — the slug of a name, which is empty if the name has no letter or digit of ASCII.
-/

namespace DesignCompiler.ClassName

def isSlugChar (c : Char) : Bool :=
  c.isLower || c.isDigit

/-- A dash in front of every capital letter that follows a small letter or a digit. -/
def splitHumps : List Char → List Char
  | [] => []
  | [c] => [c]
  | c :: d :: cs =>
    if isSlugChar c && d.isUpper then c :: '-' :: splitHumps (d :: cs)
    else c :: splitHumps (d :: cs)

def slugWords (cs : List Char) : List (List Char) :=
  Text.words isSlugChar (Text.lowercase (splitHumps cs))

def slug (name : String) : String :=
  String.ofList (['-'].intercalate (slugWords name.toList))

end DesignCompiler.ClassName
