import DesignCompiler.Emission.Compile
import DesignCompiler.Proofs.Emission.Elements

/-!
# DesignCompiler — when pages are compiled

A page is compiled if its components are a tree that is emitted: name, slug and document are there
for every such tree. The settings and the slugs that are taken make no difference to this.

* `outcome_emitComponents` — all settings are the same;
* `Page.outcome_compile`, `Design.outcome_compile` — a page, and all pages of a design.
-/

namespace DesignCompiler

/-- First the tree is built, then it is emitted. -/
theorem emitComponents_eq (s : Settings) (cs : List Component) :
    emitComponents s cs = do
      let t ← (PageTree.build cs).mapError .structural
      let code ← (t.emit s).mapError .emission
      return (t, code) := by
  unfold emitComponents
  cases PageTree.build cs with
  | error d => rfl
  | ok t => cases h : t.emit s <;> simp [h, mapError_ok, mapError_error, bind, Except.bind]

theorem emitComponents_eq_ok_iff {s : Settings} {cs : List Component} {t : PageTree} {code : Code} :
    emitComponents s cs = .ok (t, code) ↔ PageTree.build cs = .ok t ∧ t.emit s = .ok code := by
  rw [emitComponents_eq, bind_eq_ok_iff]
  constructor
  · rintro ⟨t', hb, h⟩
    obtain ⟨code', he, h⟩ := bind_eq_ok_iff.mp h
    obtain ⟨rfl, rfl⟩ := Prod.mk.inj (Except.ok.inj h)
    exact ⟨mapError_eq_ok_iff.mp hb, mapError_eq_ok_iff.mp he⟩
  · rintro ⟨hb, he⟩
    exact ⟨t, mapError_eq_ok_iff.mpr hb, bind_eq_ok_iff.mpr ⟨code, mapError_eq_ok_iff.mpr he, rfl⟩⟩

/-- Components are emitted under all settings alike. -/
theorem outcome_emitComponents (s s' : Settings) (cs : List Component) :
    outcome (emitComponents s cs) = outcome (emitComponents s' cs) := by
  rw [emitComponents_eq, emitComponents_eq, outcome_bind, outcome_bind]
  congr 1
  funext t
  rw [outcome_bind_pure, outcome_bind_pure, outcome_mapError, outcome_mapError, t.outcome_emit,
    t.outcome_emit]

theorem outcome_compileNamed (s : Settings) (cs : List Component) (given : Option String)
    (slugs : ClassName.Allocator) :
    outcome (compileNamed s cs given slugs) = outcome (emitComponents s cs) :=
  outcome_bind_pure _ _

theorem Page.outcome_compile (s : Settings) (p : Page) :
    outcome (p.compile s) = outcome (emitComponents s p.components) := by
  rw [← outcome_compileNamed s p.components p.name noSlugs, Page.compile]
  cases compileNamed s p.components p.name noSlugs <;> rfl

theorem outcome_compilePages (s : Settings) (ps : List Page) (slugs : ClassName.Allocator) :
    outcome (compilePages s ps slugs) = forM ps fun p => outcome (p.compile s) := by
  induction ps generalizing slugs with
  | nil => rfl
  | cons p ps ih =>
    rw [List.forM_cons, compilePages, outcome_bind, Page.outcome_compile,
      ← outcome_compileNamed s p.components p.name slugs]
    cases compileNamed s p.components p.name slugs with
    | error e => rfl
    -- the slugs taken so far show in the result only
    | ok x => exact (outcome_bind_pure _ _).trans (ih x.2)

/-- A design fails as the first page does that fails on its own. -/
theorem Design.outcome_compile (s : Settings) (d : Design) :
    outcome (d.compile s) = forM d.pages fun p => outcome (p.compile s) :=
  outcome_compilePages s d.pages noSlugs

end DesignCompiler
