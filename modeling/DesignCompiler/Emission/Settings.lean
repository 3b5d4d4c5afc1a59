/-!
# DesignCompiler — settings of the output

* `Dialect` — the two languages in which the markup can be written;
* `Settings` — the dialect, the indentation, the prefix of classes, and whether pages are wrapped
  into complete files;
* `Settings.check` — the bounds that a project's settings keep.
-/

namespace DesignCompiler

/-- The language of the markup. -/
inductive Dialect where
  /-- Plain HTML. -/
  | html
  /-- JSX, as React components are written in it. -/
  | jsx
deriving DecidableEq, Repr

namespace Dialect

/-- The word for a dialect, which is also the extension of its files. -/
def keyword : Dialect → String
  | html => "html"
  | jsx => "jsx"

/-- The name of a dialect in messages. -/
def title : Dialect → String
  | html => "Html"
  | jsx => "Jsx"

def all : List Dialect := [html, jsx]

def ofKeyword? (word : String) : Option Dialect :=
  all.find? (·.keyword == word)

end Dialect

/-- How pages are written. -/
structure Settings where
  dialect : Dialect := .html
  /-- Spaces for each level of nesting. -/
  indent : Nat := 2
  /-- What stands before the name of every class. -/
  classPrefix : Option String := none
  /-- Whether a page becomes a complete document or module. -/
  wrapDocument : Bool := false
deriving DecidableEq, Repr

/-- The widest indentation of a project. -/
def maxIndent : Nat := 8

/-- Why settings are refused. -/
inductive SettingsError where
  | wideIndent (indent : Nat)
  | badPrefix (text : String)
  | unknownDialect (word : String)
deriving DecidableEq, Repr

/-- The words for refused settings. -/
def SettingsError.text : SettingsError → String
  | wideIndent n => "emit.indent must be at most " ++ toString maxIndent ++ ", got " ++ toString n
  | badPrefix t => "emit.class_prefix '" ++ t ++
    "' must start with a letter and contain only letters, digits, '-' or '_'"
  | unknownDialect w => "unknown dialect '" ++ w ++ "', expected 'html' or 'jsx'"

namespace Settings

/-- Whether a prefix is a letter, and letters, digits, dashes and underscores after it. -/
def isPlainPrefix : List Char → Bool
  | [] => false
  | c :: cs => c.isAlpha && cs.all fun d => d.isAlphanum || d == '-' || d == '_'

/-- Checks the indentation, then the prefix. -/
def check (s : Settings) : Except SettingsError Unit :=
  if maxIndent < s.indent then .error (.wideIndent s.indent)
  else match s.classPrefix with
    | none => pure ()
    | some p => if isPlainPrefix p.toList then pure () else .error (.badPrefix p)

end Settings

/-- The dialect that a word names in any case of its ASCII letters. -/
def Dialect.ofText (word : String) : Except SettingsError Dialect :=
  match ofKeyword? word.toLower with
  | some d => pure d
  | none => .error (.unknownDialect word.toLower)

end DesignCompiler
