import DesignCompiler.Text.Blank

/-!
# DesignCompiler — words of a text

A text falls into words, the longest runs of characters that pass a test, or into the pieces between
separators.

* `words` — the words, in order, with what stands between them left out;
* `pieces` — the text cut at every separator;
* `foldRuns` — the text with each run of other characters replaced by one dash.
-/

namespace DesignCompiler.Text

/-- The words of a text, each of them not empty. -/
def words (p : Char → Bool) : List Char → List (List Char)
  | [] => []
  | [c] => if p c then [[c]] else []
  | c :: d :: cs =>
    if !p c then words p (d :: cs)
    else if p d then
      match words p (d :: cs) with
      | [] => [[c]]
      | w :: ws => (c :: w) :: ws
    else [c] :: words p (d :: cs)

/-- A text cut at every separator; there is one piece more than there are separators. -/
def pieces (separator : Char) : List Char → List (List Char)
  | [] => [[]]
  | c :: cs =>
    if c = separator then [] :: pieces separator cs
    else match pieces separator cs with
      | [] => [[c]]
      | l :: ls => (c :: l) :: ls

/-- A text in which every longest run of characters that fail the test is one dash. `inRun` says
that the character before the text belongs to such a run. -/
def foldRuns (p : Char → Bool) (inRun : Bool) : List Char → List Char
  | [] => []
  | c :: cs =>
    if p c then c :: foldRuns p false cs
    else if inRun then foldRuns p true cs
    else '-' :: foldRuns p true cs

end DesignCompiler.Text
