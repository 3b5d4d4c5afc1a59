import DesignCompiler.Text.Words

/-!
# DesignCompiler — paths

A path is a text; names in it are separated by slashes. Paths are joined as texts and keep the form
in which they were given, because messages show them.

* `Path.join`, `Path.parent?` — a path below another, the path above one;
* `Path.names` — the names that lead to a place;
* `Path.fileName?`, `Path.stem?`, `Path.extension?` — the last name and its parts.
-/

namespace DesignCompiler

/-- A path. -/
structure Path where
  text : String
deriving DecidableEq, Repr

namespace Path

/-- What stands between the slashes. -/
def pieces (p : Path) : List String :=
  (Text.pieces '/' p.text.toList).map String.ofList

/-- Whether a path starts at the root of all folders. -/
def isAbsolute (p : Path) : Bool :=
  p.text.toList.head? == some '/'

/-- Whether something between slashes is a name. Nothing and a single dot stay where they are. -/
def isName (piece : String) : Bool :=
  piece != "" && piece != "."

/-- The names of a path; two dots lead back. -/
def names (p : Path) : List String :=
  p.pieces.filter isName

/-- Whether a path ends in a slash or a single dot, so that only a folder can be there. -/
def wantsFolder (p : Path) : Bool :=
  match p.pieces.getLast? with
  | some piece => !isName piece
  | none => false

/-- Whether a path ends in a single dot, slashes aside. -/
def endsInDot (p : Path) : Bool :=
  (Text.dropEndWhile String.isEmpty p.pieces).getLast? == some "."

/-- A path below another. An absolute path is below none. -/
def join (p q : Path) : Path :=
  if q.isAbsolute then q
  else if p.text.isEmpty || p.text.toList.getLast? == some '/' then ⟨p.text ++ q.text⟩
  else ⟨p.text ++ "/" ++ q.text⟩

def ofPieces (pieces : List String) : Path :=
  ⟨if pieces = [""] then "/" else "/".intercalate pieces⟩

/-- Pieces without those at the end that are no names. The first piece of a path stays: it says
whether the path is absolute. -/
def dropIdle : List String → List String
  | [] => []
  | first :: rest => first :: Text.dropEndWhile (!isName ·) rest

/-- The path above, without the last name. -/
def parent? (p : Path) : Option Path :=
  -- The root has no path above it, and neither has the empty path.
  if p.names.isEmpty then
    if p.isAbsolute || p.text.isEmpty then none else some ⟨""⟩
  else some (ofPieces (dropIdle (dropIdle p.pieces).dropLast))

def fileName? (p : Path) : Option String :=
  p.names.getLast?.filter (· != "..")

/-- The parts of a name before and behind its last dot. A dot at the beginning does not count. -/
def splitName (name : String) : String × Option String :=
  let reversed := name.toList.reverse
  let behind := reversed.takeWhile (· != '.')
  match reversed.dropWhile (· != '.') with
  | [] => (name, none)
  -- The only dot is the first character.
  | [_] => (name, none)
  | _ :: before => (String.ofList before.reverse, some (String.ofList behind.reverse))

/-- The last name without its extension. -/
def stem? (p : Path) : Option String :=
  p.fileName?.map fun n => (splitName n).1

/-- What follows the last dot of the last name. -/
def extension? (p : Path) : Option String :=
  p.fileName?.bind fun n => (splitName n).2

end Path

end DesignCompiler
