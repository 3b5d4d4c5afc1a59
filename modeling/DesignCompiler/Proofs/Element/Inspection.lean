import DesignCompiler.Proofs.Element.Judging

/-!
# DesignCompiler — properties inspected in turn

Whether an element can be made is a question to each property of its kind alone: the property is
inspected, and the first one that is at fault stops the lowering. What the others are does not
matter.

* `Property.isRequired`, `Property.verdict` — what is asked of a property and of its value;
* `Attributes.inspect` — one property; `inspect_eq_error_iff` — how it can be at fault;
* `outcome_read`, `outcome_require` — reading a property inspects it;
* `Attributes.outcome_element` — an element is its properties inspected in turn;
* `Attributes.element_eq_error_iff` — the first property at fault.
-/

namespace DesignCompiler

/-- Whether an element cannot do without the property. -/
def Property.isRequired : Property → Bool
  | .text => true
  | .source => true
  | .label => true
  | _ => false

/-- Whether a value is of use for a property. -/
def Property.verdict (p : Property) (v : Json) : Except Reason Unit :=
  match p with
  | .text => outcome (Judge.text v)
  | .source => outcome (Judge.source v)
  | .alt => outcome (Judge.text v)
  | .fit => outcome (Judge.fit v)
  | .label => outcome (Judge.text v)
  | .href => outcome (Judge.text v)
  | .disabled => outcome (Judge.flag v)
  | .color => outcome (Judge.color v)
  | .fontFamily => outcome (Judge.family v)
  | .fontSize => outcome (Judge.length v)
  | .fontWeight => outcome (Judge.weight v)
  | .textAlign => outcome (Judge.alignment v)
  | .fill => outcome (Judge.color v)
  | .borderWidth => outcome (Judge.length v)
  | .borderColor => outcome (Judge.color v)
  | .radius => outcome (Judge.length v)
  | .opacity => outcome (Judge.opacity v)

namespace Attributes

variable {a : Attributes} {p : Property} {r : Refusal} {α β : Type}

/-- A property is there if it has to be, and its value is of use. -/
def inspect (a : Attributes) (p : Property) : Except Refusal Unit :=
  match a.get? p with
  | none =>
    if p.isRequired then .error (.missingField a.id (.appearance p.preferred)) else .ok ()
  | some (key, v) =>
    match p.verdict v with
    | .ok _ => .ok ()
    | .error reason => a.refuse (reason.spelling p key) reason

theorem inspect_eq_error_iff : a.inspect p = .error r ↔
    (a.get? p = none ∧ p.isRequired = true ∧ r = .missingField a.id (.appearance p.preferred)) ∨
    ∃ key v reason, a.get? p = some (key, v) ∧ p.verdict v = .error reason ∧
      r = .invalidField a.id (.appearance (reason.spelling p key)) reason := by
  unfold inspect
  -- nothing is given, which is a fault of required properties only; or a value is, and it is judged
  cases a.get? p with
  | none => cases p.isRequired <;> simp [eq_comm]
  | some entry =>
    obtain ⟨key, v⟩ := entry
    simp only [reduceCtorEq, false_and, false_or, Option.some.injEq, Prod.mk.injEq]
    constructor
    · intro h
      split at h
      · exact nomatch h
      · rename_i reason hverdict
        exact ⟨key, v, reason, ⟨rfl, rfl⟩, hverdict, (Except.error.inj h).symm⟩
    · rintro ⟨_, _, reason, ⟨rfl, rfl⟩, hverdict, rfl⟩
      rw [hverdict]
      rfl

/-! ## Readers -/

theorem outcome_read {judge : Json → Except Reason α} (hoptional : p.isRequired = false)
    (hjudge : p.verdict = fun v => outcome (judge v)) :
    outcome (a.read p judge) = a.inspect p := by
  unfold inspect read
  rw [hoptional, hjudge]
  cases a.get? p with
  | none => rfl
  | some entry =>
    dsimp only
    cases judge entry.2 <;> rfl

theorem outcome_require {judge : Json → Except Reason α} (hrequired : p.isRequired = true)
    (hjudge : p.verdict = fun v => outcome (judge v)) :
    outcome (a.require p judge) = a.inspect p := by
  unfold inspect require read
  rw [hrequired, hjudge]
  cases a.get? p with
  | none => rfl
  | some entry =>
    dsimp only
    cases judge entry.2 <;> rfl

/-! ## Elements -/

/-- A step whose result does not decide how the run goes on. -/
theorem outcome_bind_append {x : Except Refusal α} {f : α → Except Refusal β}
    {ps qs : List Property} (hx : outcome x = forM ps a.inspect)
    (hf : ∀ y, outcome (f y) = forM qs a.inspect) :
    outcome (x >>= f) = forM (ps ++ qs) a.inspect := by
  rw [List.forM_append, ← hx]
  cases x with
  | error r => rfl
  | ok y => exact hf y

theorem outcome_bind_cons {x : Except Refusal α} {f : α → Except Refusal β} {qs : List Property}
    (hx : outcome x = a.inspect p) (hf : ∀ y, outcome (f y) = forM qs a.inspect) :
    outcome (x >>= f) = forM (p :: qs) a.inspect := by
  rw [List.forM_cons, ← hx]
  cases x with
  | error r => rfl
  | ok y => exact hf y

theorem outcome_boxStyle : outcome a.boxStyle = forM Property.ofBox a.inspect := by
  simp only [boxStyle, length_eq_read, color_eq_read, opacity_eq_read]
  refine outcome_bind_cons (outcome_read rfl rfl) fun _ => ?_
  refine outcome_bind_cons (outcome_read rfl rfl) fun _ => ?_
  refine outcome_bind_cons (outcome_read rfl rfl) fun _ => ?_
  refine outcome_bind_cons (outcome_read rfl rfl) fun _ => ?_
  exact outcome_bind_cons (outcome_read rfl rfl) fun _ => rfl

theorem outcome_typography : outcome a.typography = forM Property.ofFont a.inspect := by
  simp only [typography, fontFamily_eq_read, fontWeight_eq_read, textAlign_eq_read, color_eq_read,
    length_eq_read]
  refine outcome_bind_cons (outcome_read rfl rfl) fun _ => ?_
  refine outcome_bind_cons (outcome_read rfl rfl) fun _ => ?_
  refine outcome_bind_cons (outcome_read rfl rfl) fun _ => ?_
  refine outcome_bind_cons (outcome_read rfl rfl) fun _ => ?_
  exact outcome_bind_cons (outcome_read rfl rfl) fun _ => rfl

/-- An element can be made if all properties of its kind pass their inspection, and is refused
because of the first one that does not. -/
theorem outcome_element (a : Attributes) (k : Kind) :
    outcome (a.element k) = forM k.properties a.inspect := by
  -- the box comes last in every kind of element
  have hbox : ∀ f : BoxStyle → Element, outcome (a.boxStyle >>= fun b => pure (f b)) =
      forM Property.ofBox a.inspect :=
    fun f => (outcome_bind_pure _ f).trans outcome_boxStyle
  cases k with
  | container => exact hbox _
  | text =>
    simp only [element, requiredString_eq_require]
    refine outcome_bind_cons (outcome_require rfl rfl) fun _ => ?_
    exact outcome_bind_append outcome_typography fun _ => hbox _
  | image =>
    simp only [element, source_eq_require, string_eq_read, fit_eq_read]
    refine outcome_bind_cons (outcome_require rfl rfl) fun _ => ?_
    refine outcome_bind_cons (outcome_read rfl rfl) fun _ => ?_
    exact outcome_bind_cons (outcome_read rfl rfl) fun _ => hbox _
  | button =>
    simp only [element, requiredString_eq_require, string_eq_read, flag_eq_read]
    refine outcome_bind_cons (outcome_require rfl rfl) fun _ => ?_
    refine outcome_bind_cons (outcome_read rfl rfl) fun _ => ?_
    refine outcome_bind_cons (outcome_read rfl rfl) fun _ => ?_
    exact outcome_bind_append outcome_typography fun _ => hbox _

theorem element_eq_error_iff {k : Kind} : a.element k = .error r ↔
    ∃ before p after, k.properties = before ++ p :: after ∧
      (∀ q ∈ before, a.inspect q = .ok ()) ∧ a.inspect p = .error r := by
  rw [← outcome_eq_error_iff, outcome_element, forM_eq_error_iff]

end Attributes

end DesignCompiler
