import DesignCompiler.Proofs.Element.Inspection

/-!
# DesignCompiler — the field that a refusal names

A refused component is mended where the refusal points, so the field that it names should be the
member of the appearance that holds the refused value, in the spelling that its author has used; and
a field that is said to be missing should have no value under any spelling. Of missing fields this is
always so. Of values it is so unless a text is refused that could end its declaration, or a source of
blanks: these are reported under the preferred spelling, and if another one holds the text then the
field that is named is not there.

* `Component.Has`, `Component.Holds` — members with a value, and the value of a property;
* `lookup_eq_none_iff`, `lookup_eq_some_iff` — they are what lowering looks up;
* `Component.Names` — a refusal that points to what is at fault;
* `Component.Misnames` — a refusal that points to a member that is not there;
* `element_blames` — every refusal of an element is one of the two.
-/

namespace DesignCompiler

namespace Component

/-- The appearance has a member with a value that is not `null`. -/
def Has (c : Component) (key : String) : Prop :=
  ∃ v, c.appearance.get? key = some v ∧ v.isNull = false

/-- The value of a property stands under one of its spellings, and none before it has a value. -/
structure Holds (c : Component) (p : Property) (key : String) (v : Json) : Prop where
  value : c.appearance.get? key = some v
  notNull : v.isNull = false
  first : ∃ before after, p.spellings = before ++ key :: after ∧ ∀ s ∈ before, ¬ c.Has s

/-- The refusal names what is at fault. -/
inductive Names (c : Component) : Refusal → Prop where
  | kind (unknown : Kind.ofText? c.kind = none) : Names c (.unknownKind c.id c.kind)
  /-- A property that the kind needs has no value, and is named by its first spelling. -/
  | missing {k : Kind} {p : Property} (isKind : Kind.ofText? c.kind = some k)
      (mem : p ∈ k.properties) (required : p.isRequired = true)
      (absent : ∀ s ∈ p.spellings, ¬ c.Has s) :
      Names c (.missingField c.id (.appearance p.preferred))
  /-- The value of a property that the kind reads is of no use, and is named by its spelling. -/
  | value {k : Kind} {p : Property} {key : String} {v : Json} {reason : Reason}
      (isKind : Kind.ofText? c.kind = some k) (mem : p ∈ k.properties) (holds : c.Holds p key v)
      (refused : p.verdict v = .error reason) :
      Names c (.invalidField c.id (.appearance key) reason)

/-- The refusal names the preferred spelling of a property whose value has another one. -/
inductive Misnames (c : Component) : Refusal → Prop where
  | preferred {k : Kind} {p : Property} {key : String} {v : Json} {reason : Reason}
      (isKind : Kind.ofText? c.kind = some k) (mem : p ∈ k.properties) (holds : c.Holds p key v)
      (refused : p.verdict v = .error reason) (fixed : reason.namesPreferred = true)
      (other : key ≠ p.preferred) (absent : ¬ c.Has p.preferred) :
      Misnames c (.invalidField c.id (.appearance p.preferred) reason)

/-! ## Entries -/

variable {c : Component} {p : Property} {key : String} {v : Json} {r : Refusal}

theorem present?_eq_none_iff : Property.present? c.appearance key = none ↔ ¬ c.Has key := by
  unfold Property.present? Has
  cases c.appearance.get? key with
  | none => simp
  | some v => cases v.isNull <;> simp

theorem present?_eq_some_iff {s : String} : Property.present? c.appearance s = some (key, v) ↔
    s = key ∧ c.appearance.get? key = some v ∧ v.isNull = false := by
  unfold Property.present?
  constructor
  · intro h
    split at h
    · rename_i w hget
      split at h
      · exact nomatch h
      · rename_i hnull
        obtain ⟨rfl, rfl⟩ := Prod.mk.inj (Option.some.inj h)
        exact ⟨rfl, hget, Bool.eq_false_iff.mpr hnull⟩
    · exact nomatch h
  · rintro ⟨rfl, hget, hnull⟩
    simp [hget, hnull]

/-- Lowering finds nothing if no spelling has a value. -/
theorem lookup_eq_none_iff :
    Property.lookup c.appearance p = none ↔ ∀ s ∈ p.spellings, ¬ c.Has s := by
  simp only [Property.lookup, List.findSome?_eq_none_iff, present?_eq_none_iff]

/-- What lowering finds is the value of the property. -/
theorem lookup_eq_some_iff :
    Property.lookup c.appearance p = some (key, v) ↔ c.Holds p key v := by
  simp only [Property.lookup, List.findSome?_eq_some_iff, present?_eq_some_iff,
    present?_eq_none_iff]
  constructor
  · rintro ⟨before, _, after, hsplit, ⟨rfl, hget, hnull⟩, hbefore⟩
    exact ⟨hget, hnull, before, after, hsplit, hbefore⟩
  · rintro ⟨hget, hnull, before, after, hsplit, hbefore⟩
    exact ⟨before, key, after, hsplit, ⟨rfl, hget, hnull⟩, hbefore⟩

/-- If the value has another spelling than the preferred one, then this one has none. -/
theorem Holds.not_has_preferred (h : c.Holds p key v) (hkey : key ≠ p.preferred) :
    ¬ c.Has p.preferred := by
  obtain ⟨before, after, hsplit, hbefore⟩ := h.first
  refine hbefore _ ?_
  -- the preferred spelling is the first one, so it stands before that of the value
  rw [Property.preferred, hsplit] at hkey ⊢
  cases before with
  | nil => exact absurd rfl hkey
  | cons s before => exact List.mem_cons_self ..

/-! ## Refusals -/

/-- Only some reasons are reported under a spelling that may not be that of the value. -/
theorem Misnames.namesPreferred {id : ComponentId} {place : Place} {reason : Reason}
    (h : c.Misnames (.invalidField id place reason)) : reason.namesPreferred = true := by
  cases h with
  | preferred _ _ _ _ hfixed _ _ => exact hfixed

theorem element_eq_error_iff : c.element = .error r ↔
    (Kind.ofText? c.kind = none ∧ r = .unknownKind c.id c.kind) ∨
    ∃ k, Kind.ofText? c.kind = some k ∧ (Attributes.of c).element k = .error r := by
  unfold element
  cases Kind.ofText? c.kind <;> simp [eq_comm]

/-- A property at fault is named, or its preferred spelling is. -/
theorem names_or_misnames_of_inspect {k : Kind} (hk : Kind.ofText? c.kind = some k)
    (hp : p ∈ k.properties) (h : (Attributes.of c).inspect p = .error r) :
    c.Names r ∨ c.Misnames r := by
  rcases Attributes.inspect_eq_error_iff.mp h with
    ⟨hget, hrequired, rfl⟩ | ⟨key, v, reason, hget, hverdict, rfl⟩
  · exact Or.inl (.missing hk hp hrequired (lookup_eq_none_iff.mp hget))
  · have hholds := lookup_eq_some_iff.mp hget
    -- the reason is reported under the spelling of the value, or under the preferred one
    by_cases hspelling : reason.spelling p key = key
    · rw [hspelling]
      exact Or.inl (.value hk hp hholds hverdict)
    · unfold Reason.spelling at hspelling ⊢
      split at hspelling
      · rename_i hfixed
        have hkey := Ne.symm hspelling
        rw [if_pos hfixed]
        exact Or.inr (.preferred hk hp hholds hverdict hfixed hkey (hholds.not_has_preferred hkey))
      · exact absurd rfl hspelling

end Component

/--
**The field that a refusal names.** If the element of a component is refused, then the refusal names
either the member of the appearance that holds the refused value, or a property that is needed and has
no value under any of its spellings; or else it names the preferred spelling of a property, under
which there is nothing, while the refused value stands under another one.
-/
theorem element_blames {c : Component} {r : Refusal} (h : c.element = .error r) :
    (c.Names r ∨ c.Misnames r) ∧ ¬ (c.Names r ∧ c.Misnames r) := by
  constructor
  · rcases Component.element_eq_error_iff.mp h with ⟨hkind, rfl⟩ | ⟨k, hk, helement⟩
    · exact Or.inl (.kind hkind)
    · obtain ⟨before, p, after, hsplit, -, hinspect⟩ :=
        Attributes.element_eq_error_iff.mp helement
      have hp : p ∈ k.properties := hsplit ▸ List.mem_append_right _ (List.mem_cons_self ..)
      exact Component.names_or_misnames_of_inspect hk hp hinspect
  · -- a member that is named for its value is there
    rintro ⟨hnames, hmisnames⟩
    cases hmisnames with
    | preferred _ _ _ _ _ _ habsent =>
      cases hnames with
      | value _ _ hholds _ => exact habsent ⟨_, hholds.value, hholds.notNull⟩

/-- A button whose label is `null` under one spelling and absent under the other. -/
def muteButton : Component where
  id := ⟨1⟩
  kind := "button"
  appearance := [("label", .null), ("opacity", .string "full")]

/-- The same button with a label, so that its opacity is reached. -/
def opaqueButton : Component where
  id := ⟨1⟩
  kind := "button"
  appearance := [("label", .null), ("opacity", .string "full"), ("text", .string "a")]

theorem muteButton_blames :
    muteButton.Names (.missingField ⟨1⟩ (.appearance "label")) ∧
      opaqueButton.Names (.invalidField ⟨1⟩ (.appearance "opacity") .notANumber) := by
  have hmute : muteButton.element = .error (.missingField ⟨1⟩ (.appearance "label")) := by
    decide +kernel
  have hopaque :
      opaqueButton.element = .error (.invalidField ⟨1⟩ (.appearance "opacity") .notANumber) := by
    decide +kernel
  constructor
  · rcases (element_blames hmute).1 with hnames | hmisnames
    · exact hnames
    · exact nomatch hmisnames
  · rcases (element_blames hopaque).1 with hnames | hmisnames
    · exact hnames
    · exact nomatch hmisnames.namesPreferred

/-- A picture with a source that could end the declaration it is written into. -/
def brokenPicture : Component where
  id := ⟨1⟩
  kind := "image"
  appearance := [("url", .string "a;b")]

/-- The refusal names `src`, which the picture does not have. -/
theorem brokenPicture_misnames :
    brokenPicture.element =
        .error (.invalidField ⟨1⟩ (.appearance "src") .breaksStylesheet) ∧
      ¬ brokenPicture.Names (.invalidField ⟨1⟩ (.appearance "src") .breaksStylesheet) ∧
      brokenPicture.Names (.invalidField ⟨1⟩ (.appearance "url") .breaksStylesheet) := by
  have hkind : Kind.ofText? brokenPicture.kind = some .image := by decide +kernel
  have hholds : brokenPicture.Holds .source "url" (.string "a;b") :=
    Component.lookup_eq_some_iff.mp rfl
  refine ⟨by decide +kernel, ?_, .value hkind (by decide) hholds (by decide +kernel)⟩
  intro hnames
  cases hnames with
  | value _ _ hsrc _ => exact nomatch hsrc.value

end DesignCompiler
