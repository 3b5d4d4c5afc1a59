import DesignCompiler.Proofs.Element.Judging

/-!
# DesignCompiler — lowerings that go alike

Two lowerings are compared property by property: if all properties of a kind are read alike, the
elements are the same, or both are refused and the refusals are related. What it means to be related
is left to the comparison. It may allow for another identifier, or for another spelling.

* `EndsAlike` — two runs with the same result, or with related refusals;
* `Attributes.ReadsAlike` — a property that two attributes have alike;
* `readsAlike_of_entry`, `readsAlike_of_get?_eq` — the same value, and the same entry;
* `Attributes.element_alike` — elements are alike if all properties are read alike.
-/

namespace DesignCompiler

/-! ## Runs that end alike -/

/-- Two runs that end with the same result or with related refusals. -/
inductive EndsAlike {α : Type} (ρ : Refusal → Refusal → Prop) :
    Except Refusal α → Except Refusal α → Prop where
  | ok (x : α) : EndsAlike ρ (.ok x) (.ok x)
  | error {r s : Refusal} (related : ρ r s) : EndsAlike ρ (.error r) (.error s)

variable {ρ : Refusal → Refusal → Prop} {α β : Type}

theorem EndsAlike.bind {x y : Except Refusal α} {f g : α → Except Refusal β}
    (hxy : EndsAlike ρ x y) (hfg : ∀ a, EndsAlike ρ (f a) (g a)) :
    EndsAlike ρ (x >>= f) (y >>= g) := by
  cases hxy with
  | ok a => exact hfg a
  | error h => exact .error h

/-- Runs whose refusals are equal are equal. -/
theorem EndsAlike.eq {x y : Except Refusal α} (h : EndsAlike Eq x y) : x = y := by
  cases h with
  | ok a => rfl
  | error h => rw [h]

/-- Runs that end alike under a translation of refusals. -/
theorem EndsAlike.eq_mapError {g : Refusal → Refusal} {x y : Except Refusal α}
    (h : EndsAlike (fun r s => s = g r) x y) : y = x.mapError g := by
  cases h with
  | ok a => rfl
  | error h => exact congrArg _ h

/-! ## Properties that are read alike -/

namespace Attributes

variable {a b : Attributes} {p : Property}

/-- Under every judgement, a property of two attributes is read with the same result. -/
structure ReadsAlike (ρ : Refusal → Refusal → Prop) (a b : Attributes) (p : Property) : Prop where
  read : ∀ {α : Type} (judge : Json → Except Reason α), EndsAlike ρ (a.read p judge) (b.read p judge)
  require : ∀ {α : Type} (judge : Json → Except Reason α),
    EndsAlike ρ (a.require p judge) (b.require p judge)

/-- A property that is required is read first, and its absence has to be reported alike. -/
theorem readsAlike_of_read (hmissing : ρ (.missingField a.id (.appearance p.preferred))
      (.missingField b.id (.appearance p.preferred)))
    (hread : ∀ {α : Type} (judge : Json → Except Reason α),
      EndsAlike ρ (a.read p judge) (b.read p judge)) : ReadsAlike ρ a b p where
  read := hread
  require judge := by
    refine .bind (hread judge) fun r => ?_
    cases r with
    | none => exact .error hmissing
    | some x => exact .ok x

/-- The same value is judged alike, whatever its spellings. -/
theorem readsAlike_of_entry {key key' : String} {v : Json} (ha : a.get? p = some (key, v))
    (hb : b.get? p = some (key', v))
    (hmissing : ρ (.missingField a.id (.appearance p.preferred))
      (.missingField b.id (.appearance p.preferred)))
    (hrefused : ∀ reason : Reason,
      ρ (.invalidField a.id (.appearance (reason.spelling p key)) reason)
        (.invalidField b.id (.appearance (reason.spelling p key')) reason)) :
    ReadsAlike ρ a b p := by
  refine readsAlike_of_read hmissing fun judge => ?_
  rw [read_of_some ha, read_of_some hb]
  cases judge v with
  | ok x => exact .ok _
  | error reason => exact .error (hrefused reason)

theorem readsAlike_of_get?_eq (h : a.get? p = b.get? p)
    (hmissing : ρ (.missingField a.id (.appearance p.preferred))
      (.missingField b.id (.appearance p.preferred)))
    (hrefused : ∀ key reason,
      ρ (.invalidField a.id (.appearance key) reason) (.invalidField b.id (.appearance key) reason)) :
    ReadsAlike ρ a b p := by
  cases hb : b.get? p with
  | none =>
    refine readsAlike_of_read hmissing fun judge => ?_
    rw [read_of_none (h.trans hb), read_of_none hb]
    exact .ok none
  | some entry => exact readsAlike_of_entry (h.trans hb) hb hmissing fun _ => hrefused _ _

/-- Of attributes of one component, the same entry is read alike. -/
theorem readsAlike_of_id_eq (hρ : ∀ r, ρ r r) (hid : a.id = b.id) (h : a.get? p = b.get? p) :
    ReadsAlike ρ a b p :=
  readsAlike_of_get?_eq h (hid ▸ hρ _) fun _ _ => hid ▸ hρ _

/-! ## Elements -/

theorem boxStyle_alike (h : ∀ p ∈ Property.ofBox, ReadsAlike ρ a b p) :
    EndsAlike ρ a.boxStyle b.boxStyle := by
  simp only [boxStyle, length_eq_read, color_eq_read, opacity_eq_read]
  refine .bind ((h .borderWidth (by decide)).read _) fun _ => ?_
  refine .bind ((h .borderColor (by decide)).read _) fun _ => ?_
  refine .bind ((h .opacity (by decide)).read _) fun _ => ?_
  refine .bind ((h .fill (by decide)).read _) fun _ => ?_
  exact .bind ((h .radius (by decide)).read _) fun _ => .ok _

theorem typography_alike (h : ∀ p ∈ Property.ofFont, ReadsAlike ρ a b p) :
    EndsAlike ρ a.typography b.typography := by
  simp only [typography, fontFamily_eq_read, fontWeight_eq_read, textAlign_eq_read, color_eq_read,
    length_eq_read]
  refine .bind ((h .fontFamily (by decide)).read _) fun _ => ?_
  refine .bind ((h .fontWeight (by decide)).read _) fun _ => ?_
  refine .bind ((h .textAlign (by decide)).read _) fun _ => ?_
  refine .bind ((h .color (by decide)).read _) fun _ => ?_
  exact .bind ((h .fontSize (by decide)).read _) fun _ => .ok _

/-- An element is made of the properties of its kind alone. -/
theorem element_alike {k : Kind} (h : ∀ p ∈ k.properties, ReadsAlike ρ a b p) :
    EndsAlike ρ (a.element k) (b.element k) := by
  -- each kind reads its own properties first and the box last, in the same order on both sides
  cases k with
  | container =>
    simp only [element]
    exact .bind (boxStyle_alike h) fun _ => .ok _
  | text =>
    simp only [element, requiredString_eq_require]
    refine .bind ((h .text (by decide)).require _) fun _ => ?_
    refine .bind (typography_alike fun p hp => h p (by simp [Kind.properties, hp])) fun _ => ?_
    exact .bind (boxStyle_alike fun p hp => h p (by simp [Kind.properties, hp])) fun _ => .ok _
  | image =>
    simp only [element, source_eq_require, string_eq_read, fit_eq_read]
    refine .bind ((h .source (by decide)).require _) fun _ => ?_
    refine .bind ((h .alt (by decide)).read _) fun _ => ?_
    refine .bind ((h .fit (by decide)).read _) fun _ => ?_
    exact .bind (boxStyle_alike fun p hp => h p (by simp [Kind.properties, hp])) fun _ => .ok _
  | button =>
    simp only [element, requiredString_eq_require, string_eq_read, flag_eq_read]
    refine .bind ((h .label (by decide)).require _) fun _ => ?_
    refine .bind ((h .href (by decide)).read _) fun _ => ?_
    refine .bind ((h .disabled (by decide)).read _) fun _ => ?_
    refine .bind (typography_alike fun p hp => h p (by simp [Kind.properties, hp])) fun _ => ?_
    exact .bind (boxStyle_alike fun p hp => h p (by simp [Kind.properties, hp])) fun _ => .ok _

end Attributes

end DesignCompiler
