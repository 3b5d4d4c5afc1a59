import DesignCompiler.Emission.PageElement
import DesignCompiler.Stylesheet.Value

/-!
# DesignCompiler — declarations

The declarations of an element are collected in groups, for its place, its box, its font and its
kind, and then sorted. So they always come in the order of `propertyOrder`.

* `propertyOrder`, `rank` — all properties, and the place of each in their order;
* `PageElement.collected` — what an element declares, one group after the other;
* `PageElement.declarations` — the declarations of an element in their order.
-/

namespace DesignCompiler

/-- One `property: value` pair. -/
structure Declaration where
  property : String
  value : String
deriving DecidableEq, Repr

def propertyOrder : List String :=
  ["position", "left", "top", "width", "height", "background-color", "background-image",
    "background-size", "border", "border-radius", "opacity", "color", "font-family", "font-size",
    "font-weight", "text-align", "object-fit", "cursor"]

/-- The place of a property in that order. What is no property comes behind all of them. -/
def rank (property : String) : Nat :=
  propertyOrder.idxOf property

namespace Stylesheet

def declare (property : String) : Option String → List Declaration
  | none => []
  | some value => [⟨property, value⟩]

/-- Where an element stands. The root has no offset, but it is what its children's offsets count
from. -/
def placement (isRoot : Bool) (g : Geometry) : List Declaration :=
  (if isRoot then [⟨"position", "relative"⟩]
    else [⟨"position", "absolute"⟩, ⟨"left", pixels g.x⟩, ⟨"top", pixels g.y⟩]) ++
  [⟨"width", pixels g.width⟩, ⟨"height", pixels g.height⟩]

/-- A border, which is a solid line. -/
def border (b : Border) : String :=
  pixels b.width ++ " solid " ++ b.color

def box (s : BoxStyle) : List Declaration :=
  declare "background-color" s.fill ++ declare "border" (s.border.map border) ++
  declare "border-radius" (s.radius.map pixels) ++ declare "opacity" (s.opacity.map number)

def font (t : Typography) : List Declaration :=
  declare "color" t.color ++ declare "font-family" t.fontFamily ++
  declare "font-size" (t.fontSize.map pixels) ++ declare "font-weight" t.fontWeight ++
  declare "text-align" (t.textAlign.map Alignment.keyword)

/-- The background of a picture that is written as a box. -/
def background (e : PageElement) : List Declaration :=
  match e.element with
  | .image p =>
    if e.hasChildren then
      [⟨"background-image", "url(" ++ quote p.source ++ ")"⟩,
        ⟨"background-size", (p.fit.getD .cover).backgroundSize⟩]
    else []
  | _ => []

/-- What only some elements have: the fit of a picture, the pointer over a button. -/
def behaviour (e : PageElement) : List Declaration :=
  match e.element with
  | .image p => if e.hasChildren then [] else declare "object-fit" (p.fit.map Fit.keyword)
  | .button b => [⟨"cursor", if b.disabled then "not-allowed" else "pointer"⟩]
  | _ => []

/-- A declaration before the first one that may not come before it. -/
def insertByRank (d : Declaration) : List Declaration → List Declaration
  | [] => [d]
  | x :: xs =>
    if rank d.property ≤ rank x.property then d :: x :: xs else x :: insertByRank d xs

/-- Declarations in the order of their properties. Those of one property keep their order. -/
def sortByRank (ds : List Declaration) : List Declaration :=
  ds.foldr insertByRank []

end Stylesheet

open Stylesheet

/-- What an element declares, one group after the other. -/
def PageElement.collected (e : PageElement) : List Declaration :=
  (match e.geometry with
    | none => []
    | some g => placement e.isRoot g) ++
  box e.element.style ++
  (match e.element.typography? with
    | none => []
    | some t => font t) ++
  background e ++
  behaviour e

def PageElement.declarations (e : PageElement) : List Declaration :=
  sortByRank e.collected

end DesignCompiler
