import DesignCompiler.Project.Output

/-!
# DesignCompiler — sessions of commands

A command reads and changes files, prints, keeps a log, and may fail. All of this is a value.

* `Session` — the files, the printed text and the log;
* `Failure` — what went wrong, from the outside to the inside;
* `Action` — a step of a command; what was printed, logged and written before a failure stays.
-/

namespace DesignCompiler.Command

/-- How important a line of the log is. -/
inductive Level where
  | info
  | error
deriving DecidableEq, Repr

def Level.text : Level → String
  | info => "INFO"
  | error => "ERROR"

/-- What a command works on. -/
structure Session where
  disk : Disk
  printed : String := ""
  log : List (Level × String) := []

/-- Why a command failed: the outermost message, then the causes. -/
structure Failure where
  message : String
  causes : List String := []
deriving DecidableEq, Repr

abbrev Action (α : Type) := ExceptT Failure (StateM Session) α

namespace Failure

/-- A failure of a project, without more context. -/
def ofProject (e : ProjectError) : Failure :=
  match e.causes with
  | [] => ⟨e.message, []⟩
  | m :: ms => ⟨m, ms⟩

/-- A failure with what was tried around it. -/
def within (message : String) (f : Failure) : Failure :=
  ⟨message, f.message :: f.causes⟩

/-- The lines of a cause, the first behind its mark and the others as far to the right. -/
def indent (first others : String) (cause : String) : String :=
  let lines := (Text.pieces '\n' cause.toList).map String.ofList
  first ++ ("\n" ++ others).intercalate lines

/-- The text that is shown: the message, then the causes with their numbers if there are several. -/
def text (f : Failure) : String :=
  let causes := match f.causes with
    | [] => ""
    | [c] => "\n\nCaused by:\n" ++ indent "    " "    " c
    | cs => "\n\nCaused by:" ++ String.join (cs.zipIdx.map fun (c, n) =>
        "\n" ++ indent ("    " ++ toString n ++ ": ") "       " c)
  "Error: " ++ f.message ++ causes

end Failure

def fail (message : String) : Action α :=
  throw { message }

def print (text : String) : Action Unit :=
  modify fun s => { s with printed := s.printed ++ text }

/-- Adds a line to the log. -/
def note (level : Level) (message : String) : Action Unit :=
  modify fun s => { s with log := s.log ++ [(level, message)] }

/-- Adds a line of information to the log. -/
def info (message : String) : Action Unit :=
  note .info message

/-- What is read from the files, or a failure. -/
def consult (wrap : Failure → Failure) (f : Disk → Except ProjectError α) : Action α := do
  match f (← get).disk with
  | .ok a => return a
  | .error e => throw (wrap (.ofProject e))

def perform (wrap : FileError → Failure) (f : Disk.Action FileError α) : Action α := do
  let s ← get
  let (result, disk) := f.run.run s.disk
  set { s with disk }
  match result with
  | .ok a => return a
  | .error e => throw (wrap e)

end DesignCompiler.Command
