import DesignCompiler.Design.Page
import DesignCompiler.Proofs.Emission.Renaming

/-!
# DesignCompiler — pages that are filled in

When a design is loaded, the components that name no page get the page they stand on. Building asks
only whether all components name the same page, and nothing that is emitted shows it. So components
that all name one page, or all none, make the same code afterwards, and components of which some name
their own page and some none become components of one page.

* `FillsIn` — a component before and after;
* `build_normalize` — the tree of a page that is filled in;
* `normalize_preserves` — what filling in changes, and what it keeps.
-/

namespace DesignCompiler

/-- A component without a page gets one, and a component with a page stays as it is. -/
structure FillsIn (page : PageId) (c d : Component) : Prop where
  filled : c.pageId = none → d = { c with pageId := some page }
  kept : c.pageId ≠ none → d = c

theorem Component.fillsIn_onPage (page : PageId) (c : Component) : FillsIn page c (c.onPage page) := by
  refine ⟨fun hnone => ?_, fun hsome => ?_⟩
  · rw [onPage, hnone, Option.getD_none]
  · obtain ⟨own, hown⟩ := Option.ne_none_iff_exists'.mp hsome
    rw [onPage, hown, Option.getD_some, ← hown]

theorem Component.onPage_onPage (page : PageId) (c : Component) :
    (c.onPage page).onPage page = c.onPage page :=
  (c.onPage page |>.fillsIn_onPage page).kept (Option.some_ne_none _)

/-! ## The tree -/

/-- Another page, and nothing else. -/
def Renaming.onPage (page : Option PageId) : Renaming where
  id c := c
  page := page
  order := Component.order

theorem Renaming.onPage_keeps (page : Option PageId) (cs : List Component) :
    (onPage page).Keeps cs :=
  ⟨fun _ _ _ _ hlt => hlt, fun _ _ _ _ _ _ => Iff.rfl⟩

theorem Component.rename_onPage (page : Option PageId) (c : Component) :
    c.rename (.onPage page) = { c with pageId := page } := by
  obtain ⟨_, parentId, _⟩ := c
  cases parentId <;> rfl

variable {p : Page} {t : PageTree}

/-- The components of a tree all name one page or none, so filled in they all name one. -/
theorem components_normalize (hb : PageTree.build p.components = .ok t) : ∃ page,
    p.normalize.components = p.components.map (·.rename (.onPage (some page))) := by
  have hsame := (exists_build_iff.mp ⟨t, hb⟩).samePage
  obtain ⟨c, cs, hcs⟩ :=
    List.exists_cons_of_ne_nil (exists_build_iff.mp ⟨t, hb⟩).nonempty
  refine ⟨c.pageId.getD p.id, List.map_congr_left fun d hd => ?_⟩
  rw [Component.rename_onPage, Component.onPage, hsame d hd c (hcs ▸ List.mem_cons_self ..)]

theorem build_normalize (hb : PageTree.build p.components = .ok t) : ∃ page,
    PageTree.build p.normalize.components = .ok (t.rename (.onPage (some page))) := by
  obtain ⟨page, hcomponents⟩ := components_normalize hb
  exact ⟨page, hcomponents ▸ build_rename (Renaming.onPage_keeps _ _) hb⟩

/-- The identifiers are the same, so the code is the same as a whole. -/
theorem Code.rename_onPage (page : Option PageId) (code : Code) :
    code.rename (.onPage page) = code := by
  have hid : (fun q : ComponentId × String => ((Renaming.onPage page).id q.1, q.2)) = id := rfl
  rw [rename, hid, List.map_id]

/-- If no component names a foreign page, all of them name the page itself afterwards. -/
theorem pageId_of_mem_normalize
    (hown : ∀ c ∈ p.components, c.pageId = none ∨ c.pageId = some p.id) :
    ∀ c ∈ p.normalize.components, c.pageId = some p.id := by
  refine List.forall_mem_map.mpr fun c hc => congrArg some ?_
  rcases hown c hc with hnone | hsome
  · rw [hnone, Option.getD_none]
  · rw [hsome, Option.getD_some]

/-- The page of a tree is that of its components. -/
theorem pageId_of_build {cs : List Component} {page : Option PageId}
    (hpage : ∀ c ∈ cs, c.pageId = page) (hb : PageTree.build cs = .ok t) : t.pageId = page := by
  obtain ⟨first, rest, root, hs, -, -, -, -, rfl⟩ := build_eq_ok_iff.mp hb
  exact hpage first (mem_sortById.mp (hs ▸ List.mem_cons_self ..))

/-- Components of one page are not refused for their pages. -/
theorem build_ne_mixedPages {cs : List Component} {page : Option PageId}
    (hpage : ∀ c ∈ cs, c.pageId = page) (id : ComponentId) (expected found : Option PageId) :
    PageTree.build cs ≠ .error (.mixedPages id expected found) := by
  intro hb
  cases firstDefect_of_build hb with
  | @mixedPages before c first hbefore hc =>
    obtain ⟨after, hsorted⟩ := hbefore.sorted
    have hsplit : before ++ [c] ++ after = sortById cs := by
      rw [← List.append_cons]
      exact hsorted.eq_sortById
    have hmem : ∀ b ∈ before ++ [c], b ∈ cs := fun b hb =>
      mem_sortById.mp (hsplit ▸ List.mem_append_left after hb)
    have hfirst : first ∈ before ++ [c] := List.mem_of_head? hbefore.first_eq
    exact hc ((hpage c (hmem c (by simp))).trans (hpage first (hmem first hfirst)).symm)

/--
**Filling in a page** is done once, and changes nothing but the pages of the components that name
none. If a page is emitted as it was given, then it is emitted with the same code when it is filled
in. If its components name no foreign page, then they are never refused for their pages, and the page
of the tree is the page itself.
-/
theorem normalize_preserves (p : Page) :
    p.normalize.normalize = p.normalize ∧
    p.normalize.id = p.id ∧ p.normalize.name = p.name ∧
    List.Forall₂ (FillsIn p.id) p.components p.normalize.components ∧
    (∀ t s code, PageTree.build p.components = .ok t → t.emit s = .ok code →
      ∃ filled, PageTree.build p.normalize.components = .ok filled ∧ filled.emit s = .ok code) ∧
    ((∀ c ∈ p.components, c.pageId = none ∨ c.pageId = some p.id) →
      (∀ id expected found,
        PageTree.build p.normalize.components ≠ .error (.mixedPages id expected found)) ∧
      ∀ t, PageTree.build p.normalize.components = .ok t → t.pageId = some p.id) := by
  refine ⟨?_, rfl, rfl, ?_, fun t s code hb he => ?_, fun hown => ⟨?_, fun t hb => ?_⟩⟩
  · have honce : p.normalize.components.map (·.onPage p.id) = p.normalize.components := by
      refine List.map_map.trans (List.map_congr_left fun c _ => ?_)
      exact c.onPage_onPage p.id
    exact congrArg (Page.mk p.id p.name) honce
  · rw [Page.normalize, List.forall₂_map_right_iff, List.forall₂_same]
    exact fun c _ => c.fillsIn_onPage p.id
  · -- the built tree differs in pages only, which the code does not show
    obtain ⟨page, hfilled⟩ := build_normalize hb
    refine ⟨_, hfilled, ?_⟩
    rw [PageTree.emit_rename he, Code.rename_onPage]
  · exact build_ne_mixedPages (pageId_of_mem_normalize hown)
  · exact pageId_of_build (pageId_of_mem_normalize hown) hb

/-- A box that names no page, and a text in it. -/
def pageOf (textPage : Option PageId) : Page where
  id := ⟨7⟩
  components :=
    [{ id := ⟨1⟩, kind := "box", name := "Card" },
      { id := ⟨2⟩, parentId := some ⟨1⟩, pageId := textPage, kind := "text", name := "Line",
        appearance := [("text", .string "first")] }]

def bareTree : PageTree where
  nodes :=
    [{ component := { id := ⟨1⟩, kind := "box", name := "Card" },
       parent := none, children := [1], depth := 0 },
      { component :=
        { id := ⟨2⟩, parentId := some ⟨1⟩, kind := "text", name := "Line",
          appearance := [("text", .string "first")] },
        parent := some 0, children := [], depth := 1 }]
  root := 0
  pageId := none

/-- If the text names no page either, the page is emitted before and after. If it names the page, the
page is refused before and has a tree after. -/
theorem pageOf_normalize_preserves :
    (∃ code, PageTree.build (pageOf none).components = .ok bareTree ∧
      bareTree.emit {} = .ok code ∧
      ∃ filled, PageTree.build (pageOf none).normalize.components = .ok filled ∧
        filled.emit {} = .ok code) ∧
    PageTree.build (pageOf (some ⟨7⟩)).components = .error (.mixedPages ⟨2⟩ none (some ⟨7⟩)) ∧
    ∃ t, PageTree.build (pageOf (some ⟨7⟩)).normalize.components = .ok t ∧
      t.pageId = some ⟨7⟩ := by
  have hb : PageTree.build (pageOf none).components = .ok bareTree := by cbv
  obtain ⟨code, hcode⟩ := PageTree.exists_emit_of_all (t := bareTree) (by decide +kernel) {}
  have hown : ∀ c ∈ (pageOf (some ⟨7⟩)).components,
      c.pageId = none ∨ c.pageId = some (pageOf (some ⟨7⟩)).id := by
    simp [pageOf]
  -- the page that fills one component in makes the other one fit
  have hfilled : (PageTree.build (pageOf (some ⟨7⟩)).normalize.components).isOk = true := by cbv
  obtain ⟨t, ht⟩ := isOk_iff.mp hfilled
  obtain ⟨-, -, -, -, hemit, -⟩ := normalize_preserves (pageOf none)
  obtain ⟨-, -, -, -, -, hpages⟩ := normalize_preserves (pageOf (some ⟨7⟩))
  exact ⟨⟨code, hb, hcode, hemit bareTree {} code hb hcode⟩, by cbv, t, ht, (hpages hown).2 t ht⟩

end DesignCompiler
