import DesignCompiler.Emission.PageElement
import DesignCompiler.Proofs.Element.Alike
import DesignCompiler.Proofs.Outcome

/-!
# DesignCompiler — lowering under another identifier

The identifier of a component has one use in lowering: a refusal names it. Under another identifier
the element and the geometry are the same, and a refusal is the same but for that name.

* `Refusal.withId` — a refusal of a component under another identifier;
* `Attributes.element_withId` — the element of attributes;
* `Component.ShowsSame.lower_eq` — the whole lowering of a component.
-/

namespace DesignCompiler

variable {id : ComponentId}

/-- The refusal of the same component under another identifier. -/
def Refusal.withId (id : ComponentId) : Refusal → Refusal
  | .unknownKind _ kind => .unknownKind id kind
  | .missingField _ place => .missingField id place
  | .invalidField _ place reason => .invalidField id place reason

namespace Attributes

def withId (id : ComponentId) (a : Attributes) : Attributes :=
  { a with id }

/-- All properties are read alike, but for the component that a refusal names. -/
theorem element_withId (a : Attributes) (k : Kind) :
    (a.withId id).element k = (a.element k).mapError (Refusal.withId id) := by
  refine (element_alike fun p _ => ?_).eq_mapError
  exact readsAlike_of_get?_eq (b := a.withId id) rfl rfl fun _ _ => rfl

end Attributes

namespace Component

variable {c d : Component}

/-- Two components that ask for the same to be shown. -/
structure ShowsSame (c d : Component) : Prop where
  kind : d.kind = c.kind
  geometry : d.geometry = c.geometry
  appearance : d.appearance = c.appearance

theorem ShowsSame.element_eq (h : c.ShowsSame d) :
    d.element = c.element.mapError (Refusal.withId d.id) := by
  have hof : Attributes.of d = (Attributes.of c).withId d.id := by
    rw [Attributes.of, h.appearance]
    rfl
  rw [element, element, h.kind, hof]
  split
  · rfl
  · exact Attributes.element_withId _ _

theorem checkCoordinate_withId (part : String) (isSize : Bool) (x : Binary64) :
    d.checkCoordinate part isSize x =
      (c.checkCoordinate part isSize x).mapError (Refusal.withId d.id) := by
  unfold checkCoordinate
  dsimp only
  split
  · rfl
  · split
    · rfl
    · split <;> rfl

theorem ShowsSame.placement_eq (h : c.ShowsSame d) :
    d.placement = c.placement.mapError (Refusal.withId d.id) := by
  rw [placement, placement, h.geometry]
  split
  · rfl
  · simp only [checkCoordinate_withId (c := c) (d := d), mapError_bind]
    rfl

/-- What a component is lowered to does not depend on what it is called. -/
theorem ShowsSame.lower_eq (h : c.ShowsSame d) :
    d.lower = c.lower.mapError (Refusal.withId d.id) := by
  simp only [lower, h.element_eq, h.placement_eq, mapError_bind]
  rfl

end Component

end DesignCompiler
