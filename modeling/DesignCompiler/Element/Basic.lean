import DesignCompiler.Element.Kind
import DesignCompiler.Number.Binary64

/-!
# DesignCompiler — elements

An element is the typed form of a component's appearance: one constructor for each kind, with the
attributes of that kind and nothing else.

* `BoxStyle` — fill, border, corners and opacity, which every element has;
* `Typography` — the font of texts and buttons;
* `Element` — the four elements.
-/

namespace DesignCompiler

/-- A solid line around a box. -/
structure Border where
  /-- In pixels. -/
  width : Binary64
  color : String
deriving DecidableEq, Repr

/-- The decoration of a box. -/
structure BoxStyle where
  /-- The background color. -/
  fill : Option String
  border : Option Border
  /-- The radius of the corners, in pixels. -/
  radius : Option Binary64
  /-- From zero, which is invisible, to one. -/
  opacity : Option Binary64
deriving DecidableEq, Repr

/-- Horizontal alignment of text. -/
inductive Alignment where
  | left
  | center
  | right
  | justify
deriving DecidableEq, Repr

/-- The word for an alignment in a stylesheet. -/
def Alignment.keyword : Alignment → String
  | left => "left"
  | center => "center"
  | right => "right"
  | justify => "justify"

/-- The font of a text. -/
structure Typography where
  color : Option String
  /-- Font names, in the order of preference. -/
  fontFamily : Option String
  /-- In pixels. -/
  fontSize : Option Binary64
  /-- A word, or hundreds from 100 to 900. -/
  fontWeight : Option String
  textAlign : Option Alignment
deriving DecidableEq, Repr

/-- How a picture fills its box. -/
inductive Fit where
  /-- Scaled to cover the box, the rest cut off. -/
  | cover
  /-- Scaled to stand whole inside the box. -/
  | contain
  /-- Stretched to the box. -/
  | fill
  /-- In its own size. -/
  | none
  /-- In its own size, or whole inside the box if that is smaller. -/
  | scaleDown
deriving DecidableEq, Repr

def Fit.keyword : Fit → String
  | cover => "cover"
  | contain => "contain"
  | fill => "fill"
  | none => "none"
  | scaleDown => "scale-down"

/-- The size of a background image that has a fit; backgrounds cannot be scaled down only. -/
def Fit.backgroundSize : Fit → String
  | cover => "cover"
  | contain => "contain"
  | fill => "100% 100%"
  | none => "auto"
  | scaleDown => "contain"

/-- A block of text. -/
structure TextBlock where
  text : String
  typography : Typography
  style : BoxStyle
deriving DecidableEq, Repr

/-- A picture. -/
structure Picture where
  /-- Where the picture is found. -/
  source : String
  /-- What is said in place of the picture. -/
  alt : Option String
  fit : Option Fit
  style : BoxStyle
deriving DecidableEq, Repr

/-- A button, which is a link if it has a target. -/
structure Button where
  label : String
  /-- The target of a link. -/
  href : Option String
  disabled : Bool
  typography : Typography
  style : BoxStyle
deriving DecidableEq, Repr

/-- What a component is. -/
inductive Element where
  | container (style : BoxStyle)
  | text (block : TextBlock)
  | image (picture : Picture)
  | button (button : Button)
deriving DecidableEq, Repr

namespace Element

def kind : Element → Kind
  | container _ => .container
  | text _ => .text
  | image _ => .image
  | button _ => .button

def style : Element → BoxStyle
  | container s => s
  | text t => t.style
  | image p => p.style
  | button b => b.style

/-- The font of an element that shows text. -/
def typography? : Element → Option Typography
  | text t => some t.typography
  | button b => some b.typography
  | _ => none

/-- The text that an element shows. -/
def content? : Element → Option String
  | text t => some t.text
  | button b => some b.label
  | _ => none

end Element

end DesignCompiler
