import DesignCompiler.ClassName.Slug

/-!
# DesignCompiler — class names

The class of an element is made from its name: the slug of the name, or of a fallback if the slug is
empty, behind an optional prefix. A class name cannot begin with a digit, so one that would gets
`c-` in front.

* `cleanPrefix` — a prefix without the characters that a class name cannot have;
* `identifier` — the class name, before it is made unique.
-/

namespace DesignCompiler.ClassName

def isPrefixChar (c : Char) : Bool :=
  c.isAlphanum || c == '_' || c == '-'

/-- The usable part of a prefix: other characters folded into dashes, and no dash at the ends. -/
def cleanPrefix (lead : String) : Option (List Char) :=
  let cleaned := Text.trimBy (· == '-') (Text.foldRuns isPrefixChar false lead.toList)
  if cleaned.isEmpty then none else some cleaned

/-- The slug of a name, or of the fallback if the name has none. -/
def baseSlug (name fallback : String) : List Char :=
  let s := (slug name).toList
  if s.isEmpty then (slug fallback).toList else s

/-- A class name that does not begin with a digit. -/
def guardDigit : List Char → List Char
  | [] => []
  | c :: cs => if c.isDigit then 'c' :: '-' :: c :: cs else c :: cs

def identifier (name fallback : String) (lead : Option String) : String :=
  let base := baseSlug name fallback
  let whole := match lead.bind cleanPrefix with
    | none => base
    | some p => p ++ '-' :: base
  -- The guard comes last, because a prefix may begin with a digit too.
  String.ofList (guardDigit whole)

end DesignCompiler.ClassName
