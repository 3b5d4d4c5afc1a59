/-!
# DesignCompiler — kinds of elements

A component says which element it is by a word in any letter case; some kinds have several words.

* `Kind.ofText?` — the kind that a word names;
* `Kind.name` — the canonical word, from which the class of an unnamed component is made.
-/

namespace DesignCompiler

/-- The elements that can be written. -/
inductive Kind where
  /-- A box that may hold other elements. -/
  | container
  /-- A block of text. -/
  | text
  /-- A picture. -/
  | image
  /-- A button, or a link that looks like one. -/
  | button
deriving DecidableEq, Repr

namespace Kind

/-- The canonical word for a kind. -/
def name : Kind → String
  | container => "container"
  | text => "text"
  | image => "image"
  | button => "button"

def words : Kind → List String
  | container => ["container", "rectangle", "rect", "frame", "box"]
  | text => ["text", "label", "paragraph"]
  | image => ["image", "img", "picture"]
  | button => ["button", "link"]

def all : List Kind := [container, text, image, button]

/-- The kind that a word names. Only the letters of ASCII are compared without their case. -/
def ofText? (word : String) : Option Kind :=
  all.find? (·.words.contains word.toLower)

end Kind

end DesignCompiler
