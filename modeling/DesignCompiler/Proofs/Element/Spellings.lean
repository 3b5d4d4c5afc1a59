import DesignCompiler.Proofs.Element.Alike
import Mathlib.Data.List.Nodup

/-!
# DesignCompiler — what an element depends on

Of an appearance, lowering sees one entry for each property that the kind reads: the first spelling
with a value, and that value. All other members may change. The spelling itself is only named in
refusals, so a value that moves to another spelling of its property gives the same element, or is
refused for the same reason.

* `Kind.Ignores` — members that lowering does not see; `lookup_eq_of_ignores`;
* `Property.Moved` — a value under another spelling; `Refusal.Respelled`;
* `element_dependsOnEntries` — both, for two components.
-/

namespace DesignCompiler

/-! ## Members that are not seen -/

theorem nodup_spellings (p : Property) : p.spellings.Nodup := by
  cases p <;> decide

/-- The spellings that a kind reads belong to one property each. -/
theorem spellings_disjoint {k : Kind} {p q : Property} (hp : p ∈ k.properties)
    (hq : q ∈ k.properties) {s : String} (hsp : s ∈ p.spellings) (hsq : s ∈ q.spellings) :
    p = q := by
  have hall : ∀ k : Kind, ∀ p ∈ k.properties, ∀ q ∈ k.properties, ∀ s ∈ p.spellings,
      s ∈ q.spellings → p = q := by
    intro k
    cases k <;> decide +kernel
  exact hall k p hp q hq s hsp hsq

/-- A member of the appearance of a component of a kind that its element does not depend on, when one
appearance is exchanged for another. -/
inductive Kind.Ignores (k : Kind) (a b : Appearance) (key : String) : Prop where
  /-- No property that the kind reads has this spelling. -/
  | outside (notMem : ∀ p ∈ k.properties, key ∉ p.spellings)
  /-- It is absent or `null`, before and after. -/
  | absent (before : Property.present? a key = none) (after : Property.present? b key = none)
  /-- An earlier spelling of its property has a value, before and after. -/
  | behind {p : Property} {first : String} (mem : p ∈ k.properties)
      (order : [first, key].Sublist p.spellings) (before : (Property.present? a first).isSome)
      (after : (Property.present? b first).isSome)

/-- The first of some alternatives that is there is the same, if all are the same but those behind
another one that is there. -/
theorem findSome?_congr_of_behind {β : Type} {f g : String → Option β} {l : List String} (hl : l.Nodup)
    (h : ∀ s ∈ l, f s = g s ∨ ∃ t, [t, s].Sublist l ∧ (f t).isSome ∧ (g t).isSome) :
    l.findSome? f = l.findSome? g := by
  induction l with
  | nil => rfl
  | cons t l ih =>
    obtain ⟨ht, hl⟩ := List.nodup_cons.mp hl
    rw [List.findSome?_cons, List.findSome?_cons]
    -- nothing stands before the first alternative
    have hfirst : f t = g t := by
      rcases h t (List.mem_cons_self ..) with h | ⟨u, hu, -⟩
      · exact h
      · cases hu with
        | cons _ hu => exact absurd (hu.subset (by simp)) ht
        | cons_cons _ hu => exact absurd (hu.subset (by simp)) ht
    rw [← hfirst]
    cases hft : f t with
    | some x => rfl
    | none =>
      refine ih hl fun s hs => (h s (List.mem_cons_of_mem _ hs)).imp_right ?_
      rintro ⟨u, hu, hfu, hgu⟩
      cases hu with
      | cons _ hu => exact ⟨u, hu, hfu, hgu⟩
      | cons_cons _ hu =>
        rw [hft] at hfu
        exact nomatch hfu

theorem lookup_eq_of_ignores {k : Kind} {a b : Appearance}
    (h : ∀ key, b.get? key = a.get? key ∨ k.Ignores a b key) :
    ∀ p ∈ k.properties, Property.lookup b p = Property.lookup a p := by
  intro p hp
  refine (findSome?_congr_of_behind (nodup_spellings p) fun s hs => ?_).symm
  rcases h s with heq | hignores
  · left
    rw [Property.present?, Property.present?, heq]
  · cases hignores with
    | outside hnot => exact absurd hs (hnot p hp)
    | absent hbefore hafter => exact Or.inl (hbefore.trans hafter.symm)
    | behind hq horder hbefore hafter =>
      obtain rfl := spellings_disjoint hp hq hs (horder.subset (by simp))
      exact Or.inr ⟨_, horder, hbefore, hafter⟩

/-! ## Values under another spelling -/

/-- The value of a property stands under `key` in one appearance and under `key'` in the other; no
other spelling has a value, and all members of other keys are the same. -/
structure Property.Moved (p : Property) (key key' : String) (a b : Appearance) : Prop where
  mem : key ∈ p.spellings
  mem' : key' ∈ p.spellings
  value : ∃ v : Json, v.isNull = false ∧ a.get? key = some v ∧ b.get? key' = some v
  only : ∀ s ∈ p.spellings, s ≠ key → Property.present? a s = none
  only' : ∀ s ∈ p.spellings, s ≠ key' → Property.present? b s = none
  others : ∀ s, s ∉ p.spellings → b.get? s = a.get? s

/-- The same refusal, but for the spelling that it names if the value was moved. -/
inductive Refusal.Respelled (key key' : String) : Refusal → Refusal → Prop where
  | same (r : Refusal) : Respelled key key' r r
  | moved (id : ComponentId) (reason : Reason) : Respelled key key'
      (.invalidField id (.appearance key) reason) (.invalidField id (.appearance key') reason)

theorem lookup_of_only {p : Property} {a : Appearance} {key : String} {v : Json}
    (hmem : key ∈ p.spellings) (hnull : v.isNull = false) (hv : a.get? key = some v)
    (honly : ∀ s ∈ p.spellings, s ≠ key → Property.present? a s = none) :
    Property.lookup a p = some (key, v) := by
  obtain ⟨before, after, hsplit, hnotMem⟩ := List.eq_append_cons_of_mem hmem
  have hpresent : Property.present? a key = some (key, v) := by
    simp [Property.present?, hv, hnull]
  refine List.findSome?_eq_some_iff.mpr ⟨before, key, after, hsplit, hpresent, fun s hs => ?_⟩
  refine honly s (hsplit ▸ List.mem_append_left _ hs) ?_
  rintro rfl
  exact hnotMem hs

theorem Attributes.readsAlike_of_moved {a b : Attributes} {p : Property} {key key' : String}
    {v : Json} (hid : a.id = b.id) (ha : a.get? p = some (key, v)) (hb : b.get? p = some (key', v)) :
    Attributes.ReadsAlike (Refusal.Respelled key key') a b p := by
  refine readsAlike_of_entry ha hb (hid ▸ .same _) fun reason => ?_
  rw [← hid]
  unfold Reason.spelling
  split
  · exact .same _
  · exact .moved _ _

/-! ## Components -/

/-- What the element of a component depends on, besides the identifier and the kind: `d` is the
component with another appearance. -/
structure Component.DependsOnEntries (c d : Component) : Prop where
  /-- Only the entries of the properties that the kind reads count. -/
  entries : (∀ k, Kind.ofText? c.kind = some k → ∀ p ∈ k.properties,
    Property.lookup d.appearance p = Property.lookup c.appearance p) → d.element = c.element
  /-- All other members can be added, changed or taken away. -/
  edits : (∀ k, Kind.ofText? c.kind = some k → ∀ key, d.appearance.get? key = c.appearance.get? key ∨
    k.Ignores c.appearance d.appearance key) → d.element = c.element
  /-- The spelling of a value makes no difference but in the refusal of that value. -/
  moves : ∀ k p key key', Kind.ofText? c.kind = some k → p ∈ k.properties →
    p.Moved key key' c.appearance d.appearance →
    EndsAlike (Refusal.Respelled key key') c.element d.element

namespace Component

variable {c d : Component}

theorem element_eq_of_entries (hid : d.id = c.id) (hkind : d.kind = c.kind)
    (h : ∀ k, Kind.ofText? c.kind = some k → ∀ p ∈ k.properties,
      Property.lookup d.appearance p = Property.lookup c.appearance p) : d.element = c.element := by
  unfold element
  rw [hkind, hid]
  cases hk : Kind.ofText? c.kind with
  | none => rfl
  | some k =>
    refine (Attributes.element_alike fun p hp => ?_).eq
    exact Attributes.readsAlike_of_id_eq Eq.refl hid (h k hk p hp)

theorem element_alike_of_moved (hid : d.id = c.id) (hkind : d.kind = c.kind) {k : Kind}
    (hk : Kind.ofText? c.kind = some k) {p : Property} (hp : p ∈ k.properties) {key key' : String}
    (h : p.Moved key key' c.appearance d.appearance) :
    EndsAlike (Refusal.Respelled key key') c.element d.element := by
  unfold element
  rw [hkind, hk]
  refine Attributes.element_alike fun q hq => ?_
  by_cases hpq : q = p
  · obtain ⟨v, hnull, hc, hd⟩ := h.value
    rw [hpq]
    exact Attributes.readsAlike_of_moved hid.symm (lookup_of_only h.mem hnull hc h.only)
      (lookup_of_only h.mem' hnull hd h.only')
  · -- the spellings of other properties are not touched
    have hlookup : Property.lookup c.appearance q = Property.lookup d.appearance q := by
      refine findSome?_congr_of_behind (nodup_spellings q) fun s hs => Or.inl ?_
      have hs' : s ∉ p.spellings := fun hsp => hpq (spellings_disjoint hq hp hs hsp)
      rw [Property.present?, Property.present?, h.others s hs']
    exact Attributes.readsAlike_of_id_eq .same hid.symm hlookup

end Component

/--
**What an element depends on.** Two components with the same identifier and kind have the same
element, or the same refusal, if the entries of the properties that the kind reads are the same, and so
if their appearances differ only in members that this kind ignores. If the value of a property has
moved to another spelling, they still have the same element, or refusals for the same reason.
-/
theorem element_dependsOnEntries {c d : Component} (hid : d.id = c.id) (hkind : d.kind = c.kind) :
    c.DependsOnEntries d where
  entries := Component.element_eq_of_entries hid hkind
  edits h := Component.element_eq_of_entries hid hkind fun k hk => lookup_eq_of_ignores (h k hk)
  moves _ _ _ _ hk hp := Component.element_alike_of_moved hid hkind hk hp

/-- A label with a weight that no font has. -/
def heavyLabel : Component where
  id := ⟨1⟩
  kind := "label"
  appearance := [("content", .string "a"), ("fill", .null), ("font_weight", .string "heavy"),
    ("textColor", .string "red")]

/-- The label without its `null`, with a member that texts do not have and with another spelling of
its color, all of which it ignores. -/
def crowdedLabel : Component where
  id := ⟨1⟩
  kind := "label"
  name := "b"
  appearance := [("content", .string "a"), ("font_weight", .string "heavy"), ("src", .bool true),
    ("textColor", .string "red"), ("text_color", .number (.integer 1))]

/-- The label with its weight under the preferred spelling. -/
def respelledLabel : Component where
  id := ⟨1⟩
  kind := "label"
  order := 1
  appearance := [("content", .string "a"), ("fill", .null), ("fontWeight", .string "heavy"),
    ("textColor", .string "red")]

theorem heavyLabel_dependsOnEntries :
    heavyLabel.element = .error (.invalidField ⟨1⟩ (.appearance "font_weight") .notAWeight) ∧
      crowdedLabel.element = heavyLabel.element ∧
      EndsAlike (Refusal.Respelled "font_weight" "fontWeight") heavyLabel.element
        respelledLabel.element := by
  have htext : Kind.ofText? heavyLabel.kind = some .text := by decide +kernel
  refine ⟨by decide +kernel, ?_, ?_⟩
  · refine (element_dependsOnEntries (c := heavyLabel) (d := crowdedLabel) rfl rfl).edits ?_
    intro k hk key
    obtain rfl : Kind.text = k := Option.some.inj (htext.symm.trans hk)
    -- of the entries that are new each is ignored for another reason
    by_cases hfill : key = "fill"
    · exact Or.inr (hfill ▸ .absent (by decide) (by decide))
    by_cases hsource : key = "src"
    · exact Or.inr (hsource ▸ .outside (by decide))
    by_cases hcolor : key = "text_color"
    · have horder : ["textColor", "text_color"].Sublist Property.color.spellings := by decide
      exact Or.inr (hcolor ▸ .behind (by decide) horder (by decide) (by decide))
    · left
      rw [← ne_eq, ← beq_eq_false_iff_ne] at hfill hsource hcolor
      simp [heavyLabel, crowdedLabel, Json.Object.get?, List.lookup_cons, hfill, hsource, hcolor]
  · refine (element_dependsOnEntries (c := heavyLabel) (d := respelledLabel) rfl rfl).moves
      .text .fontWeight _ _ htext (by decide) ?_
    refine ⟨by decide, by decide, ⟨.string "heavy", rfl, rfl, rfl⟩, by decide, by decide, ?_⟩
    -- no other spelling of the weight is used
    intro s hs
    simp only [Property.spellings, List.mem_cons, List.not_mem_nil, or_false, not_or, ← ne_eq,
      ← beq_eq_false_iff_ne] at hs
    simp [heavyLabel, respelledLabel, Json.Object.get?, List.lookup_cons, hs]

end DesignCompiler
