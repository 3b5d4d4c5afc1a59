import DesignCompiler.Files.Path

/-!
# DesignCompiler — files and folders

The files that a command can see are a value, so that what it reads and what it writes can be said
and proved.

* `Location`, `Disk` — where things are, and what there is;
* `Disk.locate` — what a path leads to;
* `Disk.readText`, `Disk.filesBelow` — reading;
* `Disk.writeFile`, `Disk.makeFolder` — single changes;
* `Disk.Action`, `makeFolders`, `saveText` — changes one after the other; what was changed before an
  action failed stays changed.
-/

namespace DesignCompiler

/-- The names that lead from the root to a place. -/
abbrev Location := List String

/-- All files and folders, and the folder from which relative paths start. -/
structure Disk where
  files : List (Location × ByteArray) := []
  folders : List Location := []
  current : Location := []

/-- Why something cannot be done with a file. -/
inductive FileError where
  | notFound
  | isThere
  | notFolder
  | isFolder
  | notText
deriving DecidableEq, Repr

def FileError.message : FileError → String
  | notFound => "No such file or directory (os error 2)"
  | isThere => "File exists (os error 17)"
  | notFolder => "Not a directory (os error 20)"
  | isFolder => "Is a directory (os error 21)"
  | notText => "stream did not contain valid UTF-8"

/-- What a path leads to. -/
inductive Spot where
  | folder (location : Location)
  | file (location : Location)
  /-- Nothing, in a folder that is there. -/
  | vacant (location : Location)
deriving DecidableEq, Repr

namespace Disk

/-! ## Looking -/

def content? (d : Disk) (l : Location) : Option ByteArray :=
  d.files.lookup l

/-- What is at a location whose folder is there. -/
def spot (d : Disk) (l : Location) : Spot :=
  if l.isEmpty || d.folders.contains l then .folder l
  else if (d.content? l).isSome then .file l
  else .vacant l

/-- What names lead to from a folder. -/
def walk (d : Disk) (l : Location) : List String → Except FileError Spot
  | [] => pure (.folder l)
  -- Above the root is the root itself.
  | ".." :: ns => d.walk l.dropLast ns
  | n :: ns =>
    match ns, d.spot (l ++ [n]) with
    | ns, .folder l => d.walk l ns
    -- Only the last name may lead to a file, or to nothing.
    | [], s => pure s
    | _ :: _, .file _ => .error .notFolder
    | _ :: _, .vacant _ => .error .notFound

def start (d : Disk) (p : Path) : Location :=
  if p.isAbsolute then [] else d.current

/-- What a path leads to. The empty path leads nowhere. -/
def locate (d : Disk) (p : Path) : Except FileError Spot := do
  if p.text.isEmpty then .error .notFound
  match ← d.walk (d.start p) p.names with
  | .file l => if p.wantsFolder then .error .notFolder else return .file l
  | s => return s

/-- Whether something is at a path. -/
def has (d : Disk) (p : Path) : Bool :=
  match d.locate p with
  | .ok (.folder _) => true
  | .ok (.file _) => true
  | _ => false

def folder? (d : Disk) (p : Path) : Option Location :=
  match d.locate p with
  | .ok (.folder l) => some l
  | _ => none

def readText (d : Disk) (p : Path) : Except FileError String := do
  match ← d.locate p with
  | .folder _ => .error .isFolder
  | .vacant _ => .error .notFound
  | .file l =>
    match (d.content? l).bind String.fromUTF8? with
    | some s => return s
    | none => .error .notText

/-- Whether names come before other names, or are the same. -/
def namesBefore : (a b : List String) → Bool
  | [], _ => true
  | _ :: _, [] => false
  | a :: as, b :: bs => a < b || (a == b && namesBefore as bs)

/-- The names that lead from a folder to the files below it, folder by folder and in the order of
the names. -/
def filesBelow (d : Disk) (l : Location) : List (List String) :=
  (d.files.filterMap fun (f, _) =>
    if l.isPrefixOf f then some (f.drop l.length) else none).mergeSort namesBefore

/-! ## Changing -/

def putFile (d : Disk) (l : Location) (bytes : ByteArray) : Disk :=
  if (d.content? l).isSome then
    { d with files := d.files.map fun (f, old) => if f = l then (f, bytes) else (f, old) }
  else { d with files := d.files ++ [(l, bytes)] }

/-- Writes a file, which replaces one that is there. -/
def writeFile (d : Disk) (p : Path) (bytes : ByteArray) : Except FileError Disk := do
  match ← d.locate p with
  | .folder _ => .error .isFolder
  | .file l => return d.putFile l bytes
  | .vacant l => if p.wantsFolder then .error .isFolder else return d.putFile l bytes

/-- Makes one folder. A path that ends in a single dot only leads to folders that are there. -/
def makeFolder (d : Disk) (p : Path) : Except FileError Disk := do
  if p.text.isEmpty then .error .notFound
  match ← d.walk (d.start p) p.names with
  | .folder _ => .error .isThere
  | .file _ => .error (if p.endsInDot then .notFolder else .isThere)
  | .vacant l =>
    if p.endsInDot then .error .notFound else return { d with folders := d.folders ++ [l] }

/-- Changes that may fail. -/
abbrev Action (ε α : Type) := ExceptT ε (StateM Disk) α

def change (f : Disk → Except FileError Disk) : Action FileError Unit := do
  match f (← get) with
  | .ok d => set d
  | .error e => throw e

/-- Makes a folder unless it is there. -/
def ensureFolder (p : Path) : Action FileError Unit := do
  match (← get).makeFolder p with
  | .ok d => set d
  | .error e => if ((← get).folder? p).isNone then throw e

/-- Makes a folder and the folders above it that are not there. -/
def makeFoldersAbove : (limit : Nat) → Path → Action FileError Unit
  | 0, _ => pure ()
  | limit + 1, p => do
    if p.text.isEmpty then return
    match (← get).makeFolder p with
    | .ok d => set d
    | .error .notFound =>
      match p.parent? with
      | some above => makeFoldersAbove limit above
      | none => throw .notFound
      -- With all folders above it there, the folder itself can be made.
      ensureFolder p
    | .error e => if ((← get).folder? p).isNone then throw e

/-- Makes a folder and the folders above it that are not there. A path has no more folders above it
than characters. -/
def makeFolders (p : Path) : Action FileError Unit :=
  makeFoldersAbove (p.text.length + 1) p

def saveText (p : Path) (text : String) : Action FileError Unit :=
  change (·.writeFile p text.toUTF8)

end Disk

end DesignCompiler
