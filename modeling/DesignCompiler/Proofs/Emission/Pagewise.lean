import DesignCompiler.Proofs.ClassName.Slugs
import DesignCompiler.Proofs.Emission.Compilation

/-!
# DesignCompiler — the pages of a design

The pages of a design are compiled one after the other, and each passes on which slugs are taken.
This is all that one page has to do with another: a page of a design is the page compiled on its own,
but for its slug, which gets a number if an earlier page has it already.

* `CompiledPage.Follows` — a page of a design beside the same page on its own;
* `compileNamed_follows` — one page, whatever slugs are taken before it;
* `compilePages_follow` — all pages, by induction on what is left of the design;
* `Design.compile_slugs` — their slugs are different from each other;
* `Design.Pagewise` — what a design compiles to, said in terms of single pages;
* `compile_pagewise` — it holds of every design and all settings.
-/

namespace DesignCompiler

open ClassName

/-- `c` is a page of a design whose earlier pages have some slugs, and `alone` is the same page on
its own. -/
structure CompiledPage.Follows (c alone : CompiledPage) (s : Settings) (earlier : List String) :
    Prop where
  pageId : c.pageId = alone.pageId
  name : c.name = alone.name
  dialect : c.dialect = alone.dialect
  stylesheet : c.stylesheet = alone.stylesheet
  slug : FirstFree earlier alone.slug c.slug
  markup : s.wrapDocument = false ∨ c.slug = alone.slug → c.markup = alone.markup
  hash : s.wrapDocument = false ∨ c.slug = alone.slug → c.hash = alone.hash

variable {s : Settings}

theorem CompiledPage.Follows.congr {c alone : CompiledPage} {earlier earlier' : List String}
    (h : c.Follows alone s earlier) (hmem : ∀ x, x ∈ earlier ↔ x ∈ earlier') :
    c.Follows alone s earlier' :=
  { h with slug := h.slug.congr hmem }

theorem allocate_firstFree {slugs : Allocator} (hlead : slugs.lead = none) (name fallback : String) :
    FirstFree slugs.taken (noSlugs.allocate name fallback).1 (slugs.allocate name fallback).1 := by
  have halone : (noSlugs.allocate name fallback).1 = identifier name fallback none := firstFree_nil _
  rw [halone, Allocator.allocate, hlead]
  exact firstFree_spec _ _

/-- The markup that is saved under a slug. -/
def savedMarkup (s : Settings) (name slug : String) (code : Code) : String :=
  if s.wrapDocument then Document.render s.dialect name (stylesheetFile slug) code.markup
  else code.markup

/-- A document names its stylesheet by the slug; markup alone does not. -/
theorem savedMarkup_congr {name slug slug' : String} {code : Code}
    (h : s.wrapDocument = false ∨ slug = slug') :
    savedMarkup s name slug code = savedMarkup s name slug' code := by
  rcases h with hwrap | rfl
  · simp only [savedMarkup, hwrap, Bool.false_eq_true, if_false]
  · rfl

/-- The compiled page of an emitted tree, under a slug. -/
def pageUnder (s : Settings) (given : Option String) (t : PageTree) (code : Code) (slug : String) :
    CompiledPage where
  pageId := t.pageId
  name := pageName given t
  slug := slug
  dialect := s.dialect
  markup := savedMarkup s (pageName given t) slug code
  stylesheet := code.stylesheet
  hash := contentHash (savedMarkup s (pageName given t) slug code) code.stylesheet

theorem compileNamed_eq_ok_iff {cs : List Component} {given : Option String}
    {slugs slugs' : Allocator} {c : CompiledPage} :
    compileNamed s cs given slugs = .ok (c, slugs') ↔ ∃ t code,
      emitComponents s cs = .ok (t, code) ∧
        c = pageUnder s given t code (slugs.allocate (pageName given t) "page").1 ∧
        slugs' = (slugs.allocate (pageName given t) "page").2 := by
  rw [compileNamed, bind_eq_ok_iff]
  constructor
  · rintro ⟨⟨t, code⟩, hemit, h⟩
    obtain ⟨rfl, rfl⟩ := Prod.mk.inj (Except.ok.inj h)
    exact ⟨t, code, hemit, rfl, rfl⟩
  · rintro ⟨t, code, hemit, rfl, rfl⟩
    exact ⟨(t, code), hemit, rfl⟩

/-- Nothing but the slug, and what is written from it, tells the pages apart that one tree gives. -/
theorem pageUnder_follows {given : Option String} {t : PageTree} {code : Code}
    {earlier : List String} {slug alone : String} (h : FirstFree earlier alone slug) :
    (pageUnder s given t code slug).Follows (pageUnder s given t code alone) s earlier where
  pageId := rfl
  name := rfl
  dialect := rfl
  stylesheet := rfl
  slug := h
  markup hsame := savedMarkup_congr hsame
  hash hsame := congrArg (contentHash · code.stylesheet) (savedMarkup_congr hsame)

theorem compileNamed_follows {p : Page} {slugs slugs' : Allocator} {c : CompiledPage}
    (hlead : slugs.lead = none) (h : compileNamed s p.components p.name slugs = .ok (c, slugs')) :
    (∃ alone, p.compile s = .ok alone ∧ c.Follows alone s slugs.taken) ∧
      slugs'.lead = none ∧ slugs'.taken = c.slug :: slugs.taken := by
  obtain ⟨t, code, hemit, rfl, rfl⟩ := compileNamed_eq_ok_iff.mp h
  have halone : compileNamed s p.components p.name noSlugs =
      .ok (pageUnder s p.name t code (noSlugs.allocate (pageName p.name t) "page").1,
        (noSlugs.allocate (pageName p.name t) "page").2) :=
    compileNamed_eq_ok_iff.mpr ⟨t, code, hemit, rfl, rfl⟩
  refine ⟨⟨_, congrArg (Except.map Prod.fst) halone, ?_⟩, hlead, rfl⟩
  exact pageUnder_follows (allocate_firstFree hlead _ _)

/-- All pages that are left of a design, when the pages before them have taken some slugs. -/
theorem compilePages_follow {ps : List Page} {slugs : Allocator} {cs : List CompiledPage}
    (hlead : slugs.lead = none) (h : compilePages s ps slugs = .ok cs) :
    cs.length = ps.length ∧ ∀ (k : Nat) (p : Page), ps[k]? = some p → ∃ c alone, cs[k]? = some c ∧
      p.compile s = .ok alone ∧ c.Follows alone s ((cs.take k).map (·.slug) ++ slugs.taken) := by
  induction ps generalizing slugs cs with
  | nil =>
    obtain rfl := Except.ok.inj h
    simp
  | cons p ps ih =>
    obtain ⟨⟨c, slugs'⟩, hpage, h⟩ := bind_eq_ok_iff.mp h
    obtain ⟨rest, hrest, h⟩ := bind_eq_ok_iff.mp h
    obtain rfl := Except.ok.inj h
    obtain ⟨⟨alone, halone, hfollows⟩, hlead', htaken⟩ := compileNamed_follows hlead hpage
    obtain ⟨hlength, hpages⟩ := ih hlead' hrest
    refine ⟨by rw [List.length_cons, List.length_cons, hlength], fun k q hk => ?_⟩
    cases k with
    | zero =>
      obtain rfl := Option.some.inj hk
      exact ⟨c, alone, rfl, halone, hfollows⟩
    | succ k =>
      obtain ⟨c', alone', hc', halone', hfollows'⟩ := hpages k q hk
      refine ⟨c', alone', hc', halone', hfollows'.congr fun x => ?_⟩
      -- the slug of this page is taken when the others get theirs
      rw [htaken]
      simp only [List.take_succ_cons, List.map_cons, List.mem_append, List.mem_cons]
      tauto

/-- Every page of a design is compiled when some slugs are taken. -/
theorem exists_compileNamed {ps : List Page} {slugs : Allocator} {cs : List CompiledPage}
    (h : compilePages s ps slugs = .ok cs) {c : CompiledPage} (hc : c ∈ cs) :
    ∃ p ∈ ps, ∃ taken taken', compileNamed s p.components p.name taken = .ok (c, taken') := by
  induction ps generalizing slugs cs with
  | nil =>
    obtain rfl := Except.ok.inj h
    exact absurd hc List.not_mem_nil
  | cons p ps ih =>
    obtain ⟨⟨first, slugs'⟩, hpage, h⟩ := bind_eq_ok_iff.mp h
    obtain ⟨rest, hrest, h⟩ := bind_eq_ok_iff.mp h
    obtain rfl := Except.ok.inj h
    rcases List.mem_cons.mp hc with rfl | hc
    · exact ⟨p, List.mem_cons_self .., slugs, slugs', hpage⟩
    · obtain ⟨q, hq, hnamed⟩ := ih hrest hc
      exact ⟨q, List.mem_cons_of_mem p hq, hnamed⟩

/-! ## Slugs -/

theorem Page.compile_isSlug {p : Page} {c : CompiledPage} (h : p.compile s = .ok c) :
    IsSlug c.slug := by
  obtain ⟨⟨c, slugs'⟩, hnamed, rfl⟩ := map_eq_ok_iff.mp h
  obtain ⟨t, code, -, rfl, -⟩ := compileNamed_eq_ok_iff.mp hnamed
  have hlead : noSlugs.lead = none := rfl
  exact allocate_isSlug hlead slug_page_ne_nil (pageName p.name t)

/-- All pages of a design have slugs, and no two of them the same. -/
theorem Design.compile_slugs {d : Design} {cs : List CompiledPage} (h : d.compile s = .ok cs) :
    (∀ c ∈ cs, IsSlug c.slug) ∧ (cs.map (·.slug)).Nodup := by
  obtain ⟨hlength, hpages⟩ := compilePages_follow rfl h
  have hslug : ∀ (k : Nat) (hk : k < cs.length), ∃ raw, IsSlug raw ∧
      FirstFree ((cs.take k).map (·.slug)) raw cs[k].slug := by
    intro k hk
    have hk' : k < d.pages.length := hlength ▸ hk
    obtain ⟨c, alone, hc, halone, hfollows⟩ := hpages k _ (List.getElem?_eq_getElem hk')
    obtain rfl : cs[k] = c := Option.some.inj ((List.getElem?_eq_getElem hk).symm.trans hc)
    refine ⟨alone.slug, Page.compile_isSlug halone, hfollows.slug.congr fun x => ?_⟩
    rw [noSlugs, List.append_nil]
  constructor
  · intro c hc
    obtain ⟨k, hk, rfl⟩ := List.mem_iff_getElem.mp hc
    obtain ⟨raw, hraw, hfree⟩ := hslug k hk
    exact hraw.firstFree hfree
  · -- the later of two pages has a slug that was free then
    rw [List.Nodup, List.pairwise_map, List.pairwise_iff_getElem]
    intro i j hi hj hij heq
    obtain ⟨raw, -, hfree⟩ := hslug j hj
    refine hfree.notMem (List.mem_map.mpr ⟨cs[i], ?_, heq⟩)
    exact List.mem_take_iff_getElem.mpr ⟨i, by omega, rfl⟩

/-! ## Designs -/

/-- What a design compiles to, in terms of its pages compiled on their own. -/
structure Design.Pagewise (d : Design) (s : Settings) : Prop where
  compiled : (∃ cs, d.compile s = .ok cs) ↔ ∀ p ∈ d.pages, ∃ c, p.compile s = .ok c
  /-- The error is that of the first page that has one. -/
  refused : ∀ e, d.compile s = .error e ↔ ∃ before p after, d.pages = before ++ p :: after ∧
    (∀ q ∈ before, ∃ c, q.compile s = .ok c) ∧ p.compile s = .error e
  length : ∀ cs, d.compile s = .ok cs → cs.length = d.pages.length
  pages : ∀ cs, d.compile s = .ok cs → ∀ (k : Nat) (p : Page), d.pages[k]? = some p → ∃ c alone,
    cs[k]? = some c ∧ p.compile s = .ok alone ∧ c.Follows alone s ((cs.take k).map (·.slug))

/--
**A design is compiled page by page.** It fails as the first page does that fails on its own. Otherwise
there is one compiled page for each page, in their order, and each is the page compiled on its own
with the first form of its slug that no earlier page has.
-/
theorem compile_pagewise (d : Design) (s : Settings) : d.Pagewise s where
  compiled := by
    rw [← outcome_eq_ok_iff, d.outcome_compile, forM_eq_ok_iff]
    simp only [outcome_eq_ok_iff]
  refused e := by
    rw [← outcome_eq_error_iff, d.outcome_compile, forM_eq_error_iff]
    simp only [outcome_eq_ok_iff, outcome_eq_error_iff]
  length _ h := (compilePages_follow rfl h).1
  pages cs h k p hk := by
    obtain ⟨c, alone, hc, halone, hfollows⟩ := (compilePages_follow rfl h).2 k p hk
    refine ⟨c, alone, hc, halone, hfollows.congr fun x => ?_⟩
    rw [noSlugs, List.append_nil]

end DesignCompiler
