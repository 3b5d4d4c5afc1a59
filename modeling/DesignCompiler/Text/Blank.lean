/-!
# DesignCompiler — blank characters

The characters that stand for empty space (the Unicode property `White_Space`), and texts with the
space at their ends taken off.

* `isBlank` — the 25 blank characters;
* `dropEndWhile` — the end of a list without the last elements that pass a test;
* `trim` — a text without the blanks at its two ends.
-/

namespace DesignCompiler.Text

/-- Whether a character has the Unicode property `White_Space`. -/
def isBlank (c : Char) : Bool :=
  let code := c.toNat
  (0x9 ≤ code && code ≤ 0xD) || code == 0x20 || code == 0x85 || code == 0xA0 || code == 0x1680 ||
  (0x2000 ≤ code && code ≤ 0x200A) || code == 0x2028 || code == 0x2029 || code == 0x202F ||
  code == 0x205F || code == 0x3000

/-- A list without the longest run at its end whose elements pass the test. -/
def dropEndWhile (p : α → Bool) (xs : List α) : List α :=
  (xs.reverse.dropWhile p).reverse

/-- A list without the runs at both ends whose elements pass the test. -/
def trimBy (p : α → Bool) (xs : List α) : List α :=
  dropEndWhile p (xs.dropWhile p)

def trim (s : String) : String :=
  String.ofList (trimBy isBlank s.toList)

def isAllBlank (s : String) : Bool :=
  s.toList.all isBlank

@[simp] theorem dropEndWhile_nil (p : α → Bool) : dropEndWhile p [] = [] := rfl

@[simp] theorem toList_trim (s : String) : (trim s).toList = trimBy isBlank s.toList := by
  simp [trim]

end DesignCompiler.Text
