import DesignCompiler.Emission.PageElement
import DesignCompiler.Proofs.Element.Inspection

/-!
# DesignCompiler — what lowering refuses

A component is refused because of a value that its appearance has, or because it lacks one that its
kind needs, or because of its kind or its geometry. Whatever it is, the refusal names the component
that was lowered.

* `Attributes.Fault` — the refusals that attributes can give rise to;
* `Attributes.element_failsOnly` — lowering refuses for such faults only;
* `Component.exists_lower_iff`, `Component.lower_eq_error_iff` — lowering in its two parts;
* `Component.componentId_eq_of_lower` — the component that a refusal names.
-/

namespace DesignCompiler

/-- A refusal of attributes, with the property that is at fault. -/
inductive Attributes.Fault (a : Attributes) : Refusal → Prop where
  | value {p : Property} {key : String} {v : Json} {reason : Reason}
      (h : a.get? p = some (key, v)) : Fault a (.invalidField a.id (.appearance key) reason)
  /-- Some checks name the preferred spelling, whichever holds the value. -/
  | preferred {p : Property} {key : String} {v : Json} {reason : Reason}
      (h : a.get? p = some (key, v)) :
      Fault a (.invalidField a.id (.appearance p.preferred) reason)
  | missing {p : Property} (h : a.get? p = none) :
      Fault a (.missingField a.id (.appearance p.preferred))

namespace Attributes

variable {a : Attributes} {p : Property}

theorem Fault.componentId_eq {r : Refusal} (h : a.Fault r) : r.componentId = a.id := by
  cases h <;> rfl

theorem inspect_failsOnly : FailsOnly a.Fault (a.inspect p) := by
  intro r h
  rcases inspect_eq_error_iff.mp h with ⟨hget, -, rfl⟩ | ⟨key, v, reason, hget, -, rfl⟩
  · exact .missing hget
  · unfold Reason.spelling
    split
    · exact .preferred hget
    · exact .value hget

theorem element_failsOnly (k : Kind) : FailsOnly a.Fault (a.element k) := by
  intro r h
  obtain ⟨_, p, _, -, -, hp⟩ := element_eq_error_iff.mp h
  exact inspect_failsOnly r hp

end Attributes

namespace Component

variable {c : Component}

theorem element_failsOnly : FailsOnly (·.componentId = c.id) c.element := by
  unfold Component.element
  split
  · exact .error rfl
  · intro r h
    exact (Attributes.element_failsOnly _ r h).componentId_eq

theorem checkCoordinate_failsOnly (part : String) (isSize : Bool) (x : Binary64) :
    FailsOnly (·.componentId = c.id) (c.checkCoordinate part isSize x) := by
  unfold checkCoordinate
  dsimp only
  split
  · exact .error rfl
  · split
    · exact .error rfl
    · split
      · exact .error rfl
      · exact .ok _

theorem placement_failsOnly : FailsOnly (·.componentId = c.id) c.placement := by
  unfold placement
  split
  · exact .ok _
  · refine .bind (checkCoordinate_failsOnly _ _ _) fun _ _ => ?_
    refine .bind (checkCoordinate_failsOnly _ _ _) fun _ _ => ?_
    refine .bind (checkCoordinate_failsOnly _ _ _) fun _ _ => ?_
    exact .bind (checkCoordinate_failsOnly _ _ _) fun _ _ => .ok _

/-! ## Lowering in two parts -/

theorem exists_lower_iff :
    (∃ x, c.lower = .ok x) ↔ (∃ e, c.element = .ok e) ∧ ∃ g, c.placement = .ok g := by
  constructor
  · rintro ⟨x, h⟩
    obtain ⟨e, he, h⟩ := bind_eq_ok_iff.mp h
    obtain ⟨g, hg, -⟩ := bind_eq_ok_iff.mp h
    exact ⟨⟨e, he⟩, g, hg⟩
  · rintro ⟨⟨e, he⟩, g, hg⟩
    exact ⟨(e, g), bind_eq_ok_iff.mpr ⟨e, he, bind_eq_ok_iff.mpr ⟨g, hg, rfl⟩⟩⟩

/-- A fault of the element comes first. -/
theorem lower_eq_error_iff {r : Refusal} :
    c.lower = .error r ↔
      c.element = .error r ∨ (∃ e, c.element = .ok e) ∧ c.placement = .error r := by
  simp only [lower, bind_eq_error_iff, pure, Except.pure, reduceCtorEq, and_false, exists_false,
    or_false, exists_and_right]

theorem componentId_eq_of_lower {r : Refusal} (h : c.lower = .error r) : r.componentId = c.id := by
  rcases lower_eq_error_iff.mp h with h | ⟨-, h⟩
  · exact element_failsOnly r h
  · exact placement_failsOnly r h

end Component

end DesignCompiler
