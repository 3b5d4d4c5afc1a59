import DesignCompiler.Emission.Compile
import DesignCompiler.Files.Disk
import DesignCompiler.Json.Reading
import DesignCompiler.Yaml.Reading

/-!
# DesignCompiler — errors of projects

* `ProjectError` — what can go wrong between the project file and the output;
* `ProjectError.message` — the text of an error;
* `ProjectError.causes` — the text, followed by that of the error behind it.
-/

namespace DesignCompiler

/-- What can go wrong with a project. -/
inductive ProjectError where
  /-- There is no project file, or no design of a name. -/
  | configNotFound (path : String)
  /-- A YAML text cannot be read. -/
  | yaml (error : Yaml.Error)
  /-- The settings are refused. -/
  | settings (error : SettingsError)
  /-- A file has not the extension of a design. -/
  | designFormat (path : String)
  /-- Two files are the design of one name. -/
  | duplicateDesign (name first second : String)
  /-- A file cannot be read or written. -/
  | file (error : FileError)
  /-- A JSON text cannot be read. -/
  | json (error : Json.Error)
  /-- A page has no code. -/
  | page (error : PageError)
deriving Repr

def Yaml.Error.message : Yaml.Error → String
  | malformed => "not a document"
  | mismatch expected => "invalid type: expected " ++ expected
  | repeated field => "duplicate field `" ++ field ++ "`"
  | missing field => "missing field `" ++ field ++ "`"

def Json.Error.message : Json.Error → String
  | fault .malformed => "not a value"
  | fault .truncated => "unexpected end"
  | mismatch m => m.message

namespace ProjectError

/-- What an error says before it gives the error behind it. -/
def fileLead : String := "IO error: "

/-- See `fileLead`. -/
def yamlLead : String := "failed to parse YAML: "

/-- See `fileLead`. -/
def jsonLead : String := "JSON error: "

def message : ProjectError → String
  | configNotFound p => "configuration file not found: " ++ p
  | yaml e => yamlLead ++ e.message
  | settings e => "invalid configuration: " ++ e.text
  | designFormat p => "unsupported snapshot format: " ++ p ++ " (expected .json, .yaml or .yml)"
  | duplicateDesign name first second =>
    "design '" ++ name ++ "' is defined twice: " ++ first ++ " and " ++ second
  | file e => fileLead ++ e.message
  | json e => jsonLead ++ e.message
  | page e => e.message

/-- The text of an error, and that of the error behind it. -/
def causes (e : ProjectError) : List String :=
  e.message :: match e with
    | yaml e => [e.message]
    | file e => [e.message]
    | json e => [e.message]
    | page e => [e.cause]
    | _ => []

end ProjectError

end DesignCompiler
