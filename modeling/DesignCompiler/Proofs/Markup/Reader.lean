import DesignCompiler.Emission.PageElement
import DesignCompiler.Proofs.Tree.Forest
import Mathlib.Data.List.DropRight

/-!
# DesignCompiler — reading markup

A reader of markup that knows neither the tree nor the elements it was written from. It cuts the
text into tags and characters, takes the tags apart, and keeps a stack of the elements that are
open. It reads strictly: a character that would have to be escaped, an end tag that does not match,
or a text that is not the first thing in its element make it fail.

* `cut` — tags, from `<` to the next `>`, and the characters between them;
* `unescape?` — a text with its entities decoded;
* `readAttributes`, `readTag` — what a tag says;
* `Entry` — an element as it is read;
* `read` — the forest of elements that a markup holds;
* `PageElement.entry` — what an element should be read as, by its kind and not by the way it is
  written.
-/

namespace DesignCompiler

namespace Markup

/-- A piece of markup. -/
inductive Mark where
  | char (c : Char)
  /-- What stands between `<` and the next `>`. -/
  | tag (body : List Char)
deriving DecidableEq, Repr

/-- The pieces of a markup. `body` is what has been read of a tag that has begun. -/
def cut : (body : Option (List Char)) → List Char → Option (List Mark)
  | none, [] => some []
  | some _, [] => none
  | none, c :: cs => if c = '<' then cut (some []) cs else (cut none cs).map (.char c :: ·)
  | some body, c :: cs =>
    if c = '>' then (cut none cs).map (.tag body :: ·) else cut (some (body ++ [c])) cs

/-! ## Entities -/

/-- The character that an entity stands for. Only JSX has entities for braces. -/
def entity? (d : Dialect) : List Char → Option Char
  | ['a', 'm', 'p'] => some '&'
  | ['l', 't'] => some '<'
  | ['g', 't'] => some '>'
  | ['q', 'u', 'o', 't'] => some '"'
  | ['#', '1', '2', '3'] => if d = .jsx then some '\x7b' else none
  | ['#', '1', '2', '5'] => if d = .jsx then some '\x7d' else none
  | _ => none

/-- A character that never stands for itself. -/
def isReserved (d : Dialect) (c : Char) : Bool :=
  c == '<' || c == '>' || (d == .jsx && (c == '\x7b' || c == '\x7d'))

/-- A text with its entities decoded. `name` is what has been read of an entity that has begun. -/
def unescape? (d : Dialect) : (name : Option (List Char)) → List Char → Option (List Char)
  | none, [] => some []
  | some _, [] => none
  | none, c :: cs =>
    if c = '&' then unescape? d (some []) cs
    else if isReserved d c then none
    else (unescape? d none cs).map (c :: ·)
  | some name, c :: cs =>
    if c = ';' then (entity? d name).bind fun x => (unescape? d none cs).map (x :: ·)
    else unescape? d (some (name ++ [c])) cs

/-! ## Tags -/

/-- An attribute; a switch has no value. -/
abbrev Attribute := String × Option String

/-- What a tag says. -/
inductive Tag where
  /-- A start tag, and whether it closes its element itself. -/
  | start (name : String) (attributes : List Attribute) (closed : Bool)
  | stop (name : String)
deriving DecidableEq, Repr

/-- A character of an attribute's name. -/
def isNameChar (c : Char) : Bool :=
  c != ' ' && c != '='

/-- A value up to the next double quote, and what follows it. -/
def quoted? : List Char → Option (List Char × List Char)
  | '=' :: '"' :: cs =>
    match cs.dropWhile (· != '"') with
    | _ :: rest => some (cs.takeWhile (· != '"'), rest)
    | [] => none
  | _ => none

theorem length_lt_of_quoted? {cs value rest : List Char} (h : quoted? cs = some (value, rest)) :
    rest.length < cs.length := by
  unfold quoted? at h
  split at h
  · rename_i cs
    split at h
    · rename_i quote more hmore
      have hle := (List.dropWhile_sublist (· != '"') (l := cs)).length_le
      rw [hmore, List.length_cons] at hle
      obtain ⟨-, rfl⟩ := Prod.mk.inj (Option.some.inj h)
      rw [List.length_cons, List.length_cons]
      omega
    · exact nomatch h
  · exact nomatch h

/-- The attributes of a start tag, and whether a slash ends it. -/
def readAttributes (d : Dialect) : List Char → Option (List Attribute × Bool)
  | [] => some ([], false)
  | ' ' :: cs =>
    if cs = ['/'] then some ([], true)
    else
      let name := String.ofList (cs.takeWhile isNameChar)
      match _h : quoted? (cs.dropWhile isNameChar) with
      | some (value, rest) => do
        let value ← unescape? d none value
        let (attributes, closed) ← readAttributes d rest
        return ((name, some (String.ofList value)) :: attributes, closed)
      | none => do
        let (attributes, closed) ← readAttributes d (cs.dropWhile isNameChar)
        return ((name, none) :: attributes, closed)
  | _ => none
termination_by cs => cs.length
decreasing_by
  · have hlt := length_lt_of_quoted? _h
    have hle := (List.dropWhile_sublist isNameChar (l := cs)).length_le
    rw [List.length_cons]
    omega
  · have hle := (List.dropWhile_sublist isNameChar (l := cs)).length_le
    rw [List.length_cons]
    omega

/-- What the text of a tag says. -/
def readTag (d : Dialect) : List Char → Option Tag
  | '/' :: name => some (.stop (String.ofList name))
  | body =>
    (readAttributes d (body.dropWhile (· != ' '))).map fun (attributes, closed) =>
      .start (String.ofList (body.takeWhile (· != ' '))) attributes closed

/-! ## Elements -/

/-- An element without those inside it. -/
structure Entry where
  tag : String
  attributes : List Attribute
  /-- The lines of its leading text; an element without text has one empty line. -/
  lines : List (List Char)
deriving DecidableEq, Repr

/-- An element that is not closed yet. -/
structure Opened where
  tag : String
  attributes : List Attribute
  /-- The lines of its leading text as they are written, the latest first. -/
  text : List (List Char)
  /-- The elements inside it that are closed. -/
  inside : Forest Entry

/-- What has been read. -/
structure Reading where
  /-- The elements that are open, the innermost first. -/
  outer : List Opened
  /-- The closed elements that stand in no other. -/
  page : Forest Entry
  /-- How many more blanks of the line belong to its indentation. -/
  padding : Nat

/-- Closed elements are put behind those inside the innermost open one. -/
def Reading.put (r : Reading) (f : Forest Entry) : Reading :=
  match r.outer with
  | [] => { r with page := r.page.append f }
  | o :: outer => { r with outer := { o with inside := o.inside.append f } :: outer }

/-- Text goes to the innermost open element, before anything stands in it. -/
def Reading.write (r : Reading) (f : List (List Char) → List (List Char)) : Option Reading :=
  match r.outer with
  | [] => none
  | o :: outer =>
    match o.inside with
    | .nil => some { r with outer := { o with text := f o.text } :: outer, padding := 0 }
    | .cons .. => none

/-- A character at the end of the latest line. -/
def addChar (c : Char) : List (List Char) → List (List Char)
  | [] => [[c]]
  | l :: ls => (l ++ [c]) :: ls

/-- Reads a character between tags. A new line is indented for the elements that are open. -/
def Reading.char (indent : Nat) (r : Reading) (c : Char) : Option Reading :=
  if c = '\n' then some { r with padding := r.outer.length * indent }
  else if c = ' ' ∧ 0 < r.padding then some { r with padding := r.padding - 1 }
  else r.write (addChar c)

/-- Reads a tag. -/
def Reading.tag (d : Dialect) (r : Reading) : Tag → Option Reading
  | .start name attributes closed =>
    if name = "br" then r.write ([] :: ·)
    else if closed ∨ name = "img" then
      some ({ r with padding := 0 }.put (.cons ⟨name, attributes, [[]]⟩ .nil .nil))
    else some { r with outer := ⟨name, attributes, [[]], .nil⟩ :: r.outer, padding := 0 }
  | .stop name =>
    match r.outer with
    | [] => none
    | o :: outer => do
      let lines ← o.text.reverse.mapM (unescape? d none)
      if name = o.tag then
        some (Reading.put { r with outer, padding := 0 }
          (.cons ⟨o.tag, o.attributes, lines⟩ o.inside .nil))
      else none

/-- Reads a piece. -/
def Reading.mark (d : Dialect) (indent : Nat) (r : Reading) : Mark → Option Reading
  | .char c => r.char indent c
  | .tag body => (readTag d body).bind (r.tag d)

/-- The elements of a markup that was written in a dialect with an indentation. -/
def read (d : Dialect) (indent : Nat) (cs : List Char) : Option (Forest Entry) := do
  let marks ← cut none cs
  let r ← marks.foldlM (Reading.mark d indent) ⟨[], .nil, 0⟩
  if r.outer.isEmpty then some r.page else none

/-- The name of the attribute that holds a class. -/
def classKey : Dialect → String
  | .html => "class"
  | .jsx => "className"

/-- The class that a start tag carries; the tag of a line break is no start tag. -/
def startClass? (d : Dialect) : Mark → Option (Option String)
  | .char _ => none
  | .tag body =>
    match readTag d body with
    | some (.start name attributes _) =>
      if name = "br" then none else some (attributes.lookup (classKey d)).join
    | _ => none

/-- The classes of the start tags of a markup, in their order. -/
def startClasses (d : Dialect) (cs : List Char) : Option (List (Option String)) :=
  (cut none cs).map (·.filterMap (startClass? d))

/-- The lines of a text: what stands between its line feeds, without the carriage returns at their
ends. -/
def textLines (s : String) : List (List Char) :=
  (s.toList.splitOn '\n').map (·.rdropWhile (· == '\r'))

end Markup

open Markup

/-- What an element should be read as: its tag, its attributes with their values, and the lines of its
text. There is one case for each form in which an element can be written. -/
def PageElement.entry (d : Dialect) (e : PageElement) : Entry :=
  let named : Attribute := (classKey d, some e.className)
  match e.element, e.hasChildren with
  | .container _, _ => ⟨"div", [named], [[]]⟩
  | .text b, false => ⟨"p", [named], textLines b.text⟩
  | .text b, true => ⟨"div", [named], textLines b.text⟩
  | .image p, false =>
    match p.alt with
    | none => ⟨"img", [named, ("src", some p.source), ("alt", some "")], [[]]⟩
    | some alt => ⟨"img", [named, ("src", some p.source), ("alt", some alt)], [[]]⟩
  | .image p, true =>
    match p.alt with
    | none => ⟨"div", [named], [[]]⟩
    | some alt => ⟨"div", [named, ("role", some "img"), ("aria-label", some alt)], [[]]⟩
  | .button b, _ =>
    match b.href, b.disabled with
    | none, false => ⟨"button", [named, ("type", some "button")], textLines b.label⟩
    | none, true =>
      ⟨"button", [named, ("type", some "button"), ("disabled", none)], textLines b.label⟩
    | some target, false => ⟨"a", [named, ("href", some target)], textLines b.label⟩
    | some target, true =>
      ⟨"a", [named, ("href", some target), ("aria-disabled", some "true")], textLines b.label⟩

end DesignCompiler
