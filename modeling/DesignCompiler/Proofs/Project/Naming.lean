import DesignCompiler.Proofs.Outcome
import DesignCompiler.Project.Config
import DesignCompiler.Yaml.Reading

/-!
# DesignCompiler — the name of a project

A project file that is a mapping whose first key is `name` names the project by the value behind that
key, and by nothing else.

* `Node.takeUnless_eq_scalar` — a text is a token, or it is left out;
* `Node.exists_pairs_of_ofTokens?` — the first pair of a mapping;
* `Config.name_of_read` — the name of a project is the value of the first pair.
-/

namespace DesignCompiler

namespace Yaml.Node

variable {levels limit : Nat} {inBlock behindKey plain : Bool} {text : String}
  {ts ts' stops : List Token} {n v : Node}

/-! ## Texts -/

/-- A collection is no text. -/
theorem nested_ne_scalar {α : Type} {x : Option (α × List Token)} {f : α → Node}
    (hf : ∀ a, f a ≠ .scalar text plain) :
    (do let (a, ts) ← x; return (nested levels (f a), ts)) ≠ some (.scalar text plain, ts') := by
  intro h
  obtain ⟨⟨a, ts⟩, -, h⟩ := Option.bind_eq_some_iff.mp h
  have hnested := (Prod.mk.inj (Option.some.inj h)).1
  rw [nested] at hnested
  split at hnested
  · cases hnested
  · exact hf a hnested

/-- A node that is a text is one token. -/
theorem take_eq_scalar
    (h : take levels inBlock behindKey limit ts = some (.scalar text plain, ts')) :
    ts = .scalar text plain :: ts' := by
  cases limit with
  | zero => cases h
  | succ limit =>
    rw [take.eq_def] at h
    dsimp only at h
    -- Every other token gives a node that is not a scalar.
    split at h
    · cases h
      rfl
    · exact absurd h (nested_ne_scalar nofun)
    · exact absurd h (nested_ne_scalar nofun)
    · split at h
      · exact absurd h (nested_ne_scalar nofun)
      · cases h
    · split at h
      · exact absurd h (nested_ne_scalar nofun)
      · cases h
    · split at h
      · exact absurd h (nested_ne_scalar nofun)
      · cases h
    · cases h

/-- Where a node can be left out it is one token, or left out. -/
theorem takeUnless_eq_scalar
    (h : takeUnless stops levels inBlock behindKey limit ts = some (.scalar text plain, ts')) :
    text = "" ∨ ts = .scalar text plain :: ts' := by
  cases limit with
  | zero => cases h
  | succ limit =>
    rw [takeUnless] at h
    split at h
    · cases h
      exact Or.inl rfl
    · exact Or.inr (take_eq_scalar h)

/-! ## Mappings -/

/-- The first pair of a document that begins as a mapping. -/
theorem exists_pairs_of_ofTokens? {key : String}
    (h : ofTokens? (.blockMappingStart :: .key :: .scalar key plain :: .value :: ts) = some n) :
    ∃ v ps limit ts', takeUnless [.key, .value, .blockEnd] 127 true true limit ts = some (v, ts') ∧
      n = .mapping ((.scalar key plain, v) :: ps) := by
  obtain ⟨⟨n', rest⟩, htake, h⟩ := Option.bind_eq_some_iff.mp h
  dsimp only at h
  split at h
  · obtain rfl := Option.some.inj h
    obtain ⟨⟨pairs, ts₁⟩, hpairs, h⟩ := Option.bind_eq_some_iff.mp htake
    obtain ⟨rfl, rfl⟩ := Prod.mk.inj (Option.some.inj h)
    -- the key is taken at once
    obtain ⟨⟨v, ts₂⟩, hv, hpairs⟩ := Option.bind_eq_some_iff.mp hpairs
    obtain ⟨⟨ps, ts₃⟩, -, hpairs⟩ := Option.bind_eq_some_iff.mp hpairs
    obtain ⟨rfl, rfl⟩ := Prod.mk.inj (Option.some.inj hpairs)
    exact ⟨v, ps, _, ts₂, hv, rfl⟩
  · cases h

end Yaml.Node

/-! ## Project files -/

namespace Config

section Draft

variable {ν ε : Type} [Format ν ε] {d d' : Draft} {name : String}

/-- Other fields leave the name alone. -/
theorem Draft.name_of_set {k : Field} {v : ν} (hk : k ≠ .name) (h : d.set k v = .ok d') :
    d'.name = d.name := by
  cases k with
  | name => exact absurd rfl hk
  | version | designsDir | outputDir | settings =>
    obtain ⟨x, -, h⟩ := bind_eq_ok_iff.mp h
    obtain rfl := Except.ok.inj h
    rfl

/-- A name that has been read stays. -/
theorem name_of_readMember {m : Except ε String × ν}
    (h : (layout : Layout ν ε Field Draft Config).readMember d m = .ok d')
    (hname : d.name = some name) : d'.name = some name := by
  obtain ⟨n, -, h⟩ := bind_eq_ok_iff.mp h
  cases hfield : (layout : Layout ν ε Field Draft Config).field? n with
  | none =>
    rw [hfield] at h
    obtain ⟨-, -, h⟩ := bind_eq_ok_iff.mp h
    obtain rfl := Except.ok.inj h
    exact hname
  | some k =>
    simp only [hfield] at h
    split at h
    · cases h
    · rename_i hfree
      rw [← hname]
      -- The name is filled, so the field set is another one.
      refine Draft.name_of_set ?_ h
      rintro rfl
      exact hfree (by simp [layout, hname])

theorem name_of_readMembers {ms : List (Except ε String × ν)}
    (h : ms.foldlM (layout : Layout ν ε Field Draft Config).readMember d = .ok d')
    (hname : d.name = some name) : d'.name = some name := by
  induction ms generalizing d with
  | nil =>
    obtain rfl := Except.ok.inj h
    exact hname
  | cons m ms ih =>
    rw [List.foldlM_cons] at h
    obtain ⟨d₁, hm, hrest⟩ := bind_eq_ok_iff.mp h
    exact ih hrest (name_of_readMember hm hname)

end Draft

/-- The value of the first pair is the name of the project, if its key says so. -/
theorem name_of_read {plain : Bool} {v : Yaml.Node} {ps : List (Yaml.Node × Yaml.Node)} {c : Config}
    (h : layout.read (Yaml.Node.mapping ((.scalar "name" plain, v) :: ps)) = .ok c) :
    v.name? = some c.name := by
  obtain ⟨shape, hshape, h⟩ := bind_eq_ok_iff.mp h
  obtain rfl := Except.ok.inj hshape
  obtain ⟨d, hd, h⟩ := bind_eq_ok_iff.mp h
  rw [List.map_cons, List.foldlM_cons] at hd
  obtain ⟨d₁, hfirst, hrest⟩ := bind_eq_ok_iff.mp hd
  -- The first member fills the name, and no later one changes it.
  obtain ⟨name, hname, hd₁⟩ : ∃ name, v.name? = some name ∧ d₁ = { name := some name } := by
    cases hname : v.name? with
    | none =>
      have hfails : (layout : Layout Yaml.Node Yaml.Error Field Draft Config).set .name v {} =
          .error (.mismatch "text") := by
        simp only [layout, Draft.set, Format.text, hname, Yaml.orMismatch]
        rfl
      cases hfails.symm.trans hfirst
    | some name =>
      have hset : (layout : Layout Yaml.Node Yaml.Error Field Draft Config).set .name v {} =
          .ok { name := some name } := by
        simp only [layout, Draft.set, Format.text, hname, Yaml.orMismatch]
        rfl
      exact ⟨name, rfl, Except.ok.inj (hfirst.symm.trans hset)⟩
  have hd := name_of_readMembers hrest (by rw [hd₁])
  obtain ⟨-, -, h⟩ := bind_eq_ok_iff.mp h
  simp only [Layout.complete, layout, hd] at h
  rw [hname, ← Except.ok.inj h]

end Config

end DesignCompiler
