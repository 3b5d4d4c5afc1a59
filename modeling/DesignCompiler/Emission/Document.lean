import DesignCompiler.Emission.Settings
import DesignCompiler.Text.Words

/-!
# DesignCompiler — documents

Markup alone is a fragment. A document wraps it into a file of its own: a page of HTML that links
the stylesheet, or a JSX module that imports it and exports a component.

* `componentName` — the name of the exported component;
* `indentBlock` — the fragment, moved to the right;
* `Document.render` — the file.
-/

namespace DesignCompiler.Document

/-! ## Names and values -/

/-- A word with its first letter in upper case. -/
def capitalize : List Char → List Char
  | [] => []
  | c :: cs => c.toUpper :: cs

/-- The name of the component for a title: the title's words of ASCII letters and digits, each
beginning with a capital. A name cannot be empty nor begin with a digit. -/
def componentName (title : String) : String :=
  let name := (Text.words Char.isAlphanum title.toList).flatMap capitalize
  match name with
  | [] => "Page"
  | c :: _ => if c.isDigit then "Page" ++ String.ofList name else String.ofList name

/-- A character of a value in the head of a document. -/
def escapeHeadChar (c : Char) : List Char :=
  match c with
  | '&' => "&amp;".toList
  | '<' => "&lt;".toList
  | '>' => "&gt;".toList
  | '"' => "&quot;".toList
  | '\'' => "&#x27;".toList
  | '/' => "&#x2f;".toList
  | c => [c]

def escapeHead (s : String) : String :=
  String.ofList (s.toList.flatMap escapeHeadChar)

/-! ## Body -/

/-- A line without a carriage return before its line feed. -/
def dropReturn (l : List Char) : List Char :=
  match l.reverse with
  | '\r' :: rest => rest.reverse
  | _ => l

/-- The lines of a text. What follows the last line feed is a line if there is something. -/
def lines (cs : List Char) : List (List Char) :=
  let pieces := Text.pieces '\n' cs
  pieces.dropLast.map dropReturn ++ (pieces.getLast?.toList.filter fun l => !l.isEmpty)

/-- A text with blanks before every line that is not empty, and without the last line feed. -/
def indentBlock (width : Nat) (text : String) : String :=
  String.ofList <| ['\n'].intercalate <| (lines text.toList).map fun l =>
    if l.isEmpty then [] else List.replicate width ' ' ++ l

/-! ## Files -/

def renderHtml (title stylesheet markup : String) : String :=
  "<!DOCTYPE html>\n<html lang=\"en\">\n<head>\n  <meta charset=\"utf-8\">\n" ++
  "  <meta name=\"viewport\" content=\"width=device-width, initial-scale=1\">\n" ++
  "  <title>" ++ escapeHead title ++ "</title>\n" ++
  "  <link rel=\"stylesheet\" href=\"" ++ escapeHead stylesheet ++ "\">\n" ++
  "</head>\n<body>\n" ++ indentBlock 2 markup ++ "\n</body>\n</html>\n"

def renderJsx (title stylesheet markup : String) : String :=
  "import React from 'react';\nimport './" ++ stylesheet ++ "';\n\n" ++
  "export default function " ++ componentName title ++ "() \x7b\n  return (\n" ++
  indentBlock 4 markup ++ "\n  );\n\x7d\n"

/-- The file around some markup. The title is the page's name; the stylesheet is named by its
file. -/
def render (d : Dialect) (title stylesheet markup : String) : String :=
  match d with
  | .html => renderHtml title stylesheet markup
  | .jsx => renderJsx title stylesheet markup

end DesignCompiler.Document
