import DesignCompiler.Proofs.Document.Body
import DesignCompiler.Proofs.Emission.Pagewise

/-!
# DesignCompiler — pages in documents

A page that is wrapped into a document is the same page but for its markup. The body of the document
is read as the markup alone is, except that attributes are moved with the lines of the markup.

* `emitComponents_wrap` — the code of a page does not depend on whether it is wrapped;
* `exists_rendering`, `readIndented_rendering` — the markup of a page, and how it is read in a document;
* `compileNamed_wraps` — a page, wrapped and alone;
* `describedPicture_differs` — a text in an attribute that is another one in the document.
-/

namespace DesignCompiler

open Markup Document

/-! ## The code of a page -/

theorem run_wrap (s : Settings) (wrap : Bool) (t : PageTree) (es : List PageElement) (limit : Nat)
    (vs : List Visit) :
    run { s with wrapDocument := wrap } t es limit vs = run s t es limit vs := by
  induction limit generalizing vs with
  | zero => rfl
  | succ limit ih =>
    cases vs with
    | nil => rfl
    | cons v rest =>
      have hstep : step { s with wrapDocument := wrap } t es v = step s t es v := by
        cases v <;> rfl
      simp only [run, hstep, ih]

theorem emitComponents_wrap (s : Settings) (wrap : Bool) (cs : List Component) :
    emitComponents { s with wrapDocument := wrap } cs = emitComponents s cs := by
  have hemit : ∀ t : PageTree, t.emit { s with wrapDocument := wrap } = t.emit s := by
    intro t
    simp only [PageTree.emit, PageTree.markup, run_wrap]
  simp only [emitComponents, hemit]

/-! ## The body of a document -/

theorem nests_reflow {w : Nat} {f : Forest PageElement} (h : Nests f) :
    Nests (f.map (·.reflow w)) := by
  induction f with
  | nil => trivial
  | cons e below rest ihb ihr =>
    obtain ⟨hchildren, hbelow, hrest⟩ := h
    refine ⟨fun hne => hchildren ?_, ihb hbelow, ihr hrest⟩
    rintro rfl
    exact hne rfl

/-- Moved markup is read, behind its margin, as the elements whose attributes are moved. -/
theorem readIndented_rendering {s : Settings} {f : Forest PageElement} (hne : f ≠ .nil)
    (hnests : Nests f) (hclass : ∀ e ∈ f.labels, ClassName.isClassName e.className) (w : Nat) :
    readIndented s.dialect w s.indent
        ((indentBlock w (String.ofList (rendering s 0 f))).toList ++ ['\n']) =
      some ((f.map (·.entry s.dialect)).map (Entry.reflow w)) := by
  obtain ⟨ns, hcuts, -, hcuts'⟩ := (moves_rendering s 0 hclass).body
    (w := w) (suffix_rendering hne)
  have hclass' : ∀ e ∈ (f.map (·.reflow w)).labels, ClassName.isClassName e.className := by
    intro e he
    rw [Forest.labels_map, List.mem_map] at he
    obtain ⟨x, hx, rfl⟩ := he
    exact hclass x hx
  -- without its margin the block is the rendering of the elements whose attributes have been moved
  have hread : Reads s.dialect s.indent (rendering s 0 (f.map (·.reflow w))) _ ⟨[], .nil, 0⟩ _ :=
    reads_rendering (nests_reflow hnests) hclass' rfl (by rw [Nat.zero_mul])
  have hsame : readIndented s.dialect w s.indent
      ((indentBlock w (String.ofList (rendering s 0 f))).toList ++ ['\n']) =
      Markup.read s.dialect s.indent (rendering s 0 (f.map (·.reflow w))) := by
    rw [readIndented, Markup.read, hcuts.cut_eq, hcuts'.cut_eq]
    rfl
  have hentries : (f.map (·.reflow w)).map (·.entry s.dialect) =
      (f.map (·.entry s.dialect)).map (Entry.reflow w) := by
    rw [Forest.map_map, Forest.map_map, Forest.map_eq_map_iff]
    exact fun e he => entry_reflow w (hclass e he)
  rw [hsame, hread.read_eq.1, hentries]
  rfl

/-! ## Pages -/

theorem Markup.reflowAttribute_eq_self_iff {w : Nat} (hw : 0 < w) {a : Attribute} :
    reflowAttribute w a = a ↔ ∀ v ∈ a.2, '\n' ∉ v.toList := by
  obtain ⟨name, _ | v⟩ := a
  · simp [reflowAttribute]
  · simp [reflowAttribute, reflowText_eq_self_iff hw]

theorem Markup.Entry.reflow_eq_self_iff {w : Nat} (hw : 0 < w) {x : Entry} :
    x.reflow w = x ↔ ∀ a ∈ x.attributes, ∀ v ∈ a.2, '\n' ∉ v.toList := by
  obtain ⟨tag, attributes, lines⟩ := x
  have hmap : attributes.map (reflowAttribute w) = attributes ↔
      ∀ a ∈ attributes, reflowAttribute w a = a := by
    induction attributes with
    | nil => simp
    | cons a as ih => simp [ih]
  simp only [Entry.reflow, Entry.mk.injEq, true_and, and_true, hmap, reflowAttribute_eq_self_iff hw]

/-- Only elements without line feeds in their attributes are read as they were. -/
theorem map_reflow_eq_self_iff {w : Nat} (hw : 0 < w) {f : Forest Entry} :
    f.map (Entry.reflow w) = f ↔
      ∀ x ∈ f.labels, ∀ a ∈ x.attributes, ∀ v ∈ a.2, '\n' ∉ v.toList := by
  have hmap : f.map (Entry.reflow w) = f.map id ↔ ∀ x ∈ f.labels, x.reflow w = x :=
    Forest.map_eq_map_iff
  rw [Forest.map_id] at hmap
  simp only [hmap, Entry.reflow_eq_self_iff hw]

/-- The markup of a page is the rendering of a forest that is not empty. -/
theorem exists_rendering {cs : List Component} {s : Settings} {t : PageTree} {code : Code}
    (h : emitComponents s cs = .ok (t, code)) :
    ∃ f : Forest PageElement, f ≠ .nil ∧ Nests f ∧
      (∀ e ∈ f.labels, ClassName.isClassName e.className) ∧
      code.markup = String.ofList (rendering s 0 f) := by
  obtain ⟨hb, he⟩ := emitComponents_eq_ok_iff.mp h
  obtain ⟨f, es, hlists, hes, rfl⟩ := exists_lists hb he
  refine ⟨f.map Prod.snd, ?_, nests_of_fits hlists.unfolds.fits hlists.describes, ?_,
    markup_eq_rendering hlists hes s⟩
  · -- the root is in it
    intro hnil
    have htops := hlists.unfolds.tops
    cases f with
    | nil => simp [Forest.map, Forest.tops] at htops
    | cons p below rest => simp [Forest.map] at hnil
  · intro e hmem
    rw [Forest.labels_map, List.mem_map] at hmem
    obtain ⟨p, hp, rfl⟩ := hmem
    obtain ⟨n, -, hdescribes⟩ := hlists.describes p hp
    exact hdescribes.className

/-- What a page is written from stands in its document with its attributes moved. -/
theorem exists_body {cs : List Component} {s : Settings} {t : PageTree} {code : Code}
    (h : emitComponents s cs = .ok (t, code)) (title : String) {slug : String}
    (hslug : ClassName.isClassName slug) :
    ∃ f body, Markup.read s.dialect s.indent code.markup.toList = some f ∧
      body? s.dialect (render s.dialect title (stylesheetFile slug) code.markup).toList =
        some body ∧
      readIndented s.dialect (margin s.dialect) s.indent body =
        some (f.map (Entry.reflow (margin s.dialect))) := by
  obtain ⟨f, hne, hnests, hclass, hmarkup⟩ := exists_rendering h
  have hread : Reads s.dialect s.indent (rendering s 0 f) _ ⟨[], .nil, 0⟩ _ :=
    reads_rendering hnests hclass rfl (by rw [Nat.zero_mul])
  rw [hmarkup]
  -- the same forest is read from the markup alone and, with a margin, from the body
  refine ⟨f.map (·.entry s.dialect), _, ?_, body?_render hslug title _,
    readIndented_rendering hne hnests hclass _⟩
  rw [String.toList_ofList]
  exact hread.read_eq.1

/--
**A page in a document.** A page is compiled alone and in a document, or neither. Both are the same
page but for markup and hash. Read behind its margin, the body of the document has the same elements
in each other, with the same tags, the same text, and the same attributes if none has a line feed. An
attribute with line feeds has other blanks in the document.
-/
theorem compileNamed_wraps {s : Settings} {cs : List Component} {given : Option String}
    {slugs slugs' : ClassName.Allocator} {page : CompiledPage}
    (h : compileNamed s cs given slugs = .ok (page, slugs')) :
    ∃ plain wrapped f body,
      compileNamed { s with wrapDocument := false } cs given slugs = .ok (plain, slugs') ∧
      compileNamed { s with wrapDocument := true } cs given slugs = .ok (wrapped, slugs') ∧
      wrapped = { plain with markup := wrapped.markup, hash := wrapped.hash } ∧
      Markup.read s.dialect s.indent plain.markup.toList = some f ∧
      body? s.dialect wrapped.markup.toList = some body ∧
      readIndented s.dialect (margin s.dialect) s.indent body =
        some (f.map (Entry.reflow (margin s.dialect))) ∧
      (f.map (Entry.reflow (margin s.dialect)) = f ↔
        ∀ x ∈ f.labels, ∀ a ∈ x.attributes, ∀ v ∈ a.2, '\n' ∉ v.toList) := by
  obtain ⟨t, code, hemit, rfl, rfl⟩ := compileNamed_eq_ok_iff.mp h
  have hslug := ClassName.allocate_isClassName slugs (pageName given t) "page"
  obtain ⟨f, body, hread, hbody, hinside⟩ := exists_body hemit (pageName given t) hslug
  -- the code does not depend on the wrapping, and neither do the names
  have hcompiled : ∀ wrap, compileNamed { s with wrapDocument := wrap } cs given slugs =
      .ok (pageUnder { s with wrapDocument := wrap } given t code
        (slugs.allocate (pageName given t) "page").1, (slugs.allocate (pageName given t) "page").2) :=
    fun wrap => compileNamed_eq_ok_iff.mpr
      ⟨t, code, (emitComponents_wrap s wrap cs).trans hemit, rfl, rfl⟩
  have hmargin : 0 < margin s.dialect := by cases s.dialect <;> decide
  exact ⟨_, _, f, body, hcompiled false, hcompiled true, rfl, hread, hbody, hinside,
    map_reflow_eq_self_iff hmargin⟩

/-- A picture that is described in two lines. -/
def describedPicture : Component :=
  { id := ⟨1⟩, kind := "image",
    appearance := [("alt", .string "one\ntwo"), ("src", .string "a.png")] }

def describedTree : PageTree where
  nodes := [{ component := describedPicture, parent := none, children := [], depth := 0 }]
  root := 0
  pageId := none

theorem describedPicture_compiled : ∃ code : Code,
    code.markup = "<img class=\"image\" src=\"a.png\" alt=\"one\ntwo\">\n" ∧
    ∀ wrap, compileNamed { wrapDocument := wrap } [describedPicture] none noSlugs =
      .ok (pageUnder { wrapDocument := wrap } none describedTree code "page",
        (noSlugs.allocate "page" "page").2) := by
  have hmarkup : (describedTree.emit {}).map Code.markup =
      .ok "<img class=\"image\" src=\"a.png\" alt=\"one\ntwo\">\n" := by decide +kernel
  have hname : pageName none describedTree = "page" := by decide +kernel
  have hslug : (noSlugs.allocate "page" "page").1 = "page" := by decide +kernel
  obtain ⟨code, hcode, hmarkup⟩ := map_eq_ok_iff.mp hmarkup
  have hemit : emitComponents {} [describedPicture] = .ok (describedTree, code) :=
    emitComponents_eq_ok_iff.mpr ⟨by cbv, hcode⟩
  refine ⟨code, hmarkup, fun wrap => compileNamed_eq_ok_iff.mpr
    ⟨describedTree, code, (emitComponents_wrap {} wrap _).trans hemit, ?_, ?_⟩⟩
  · rw [hname, hslug]
  · rw [hname]

/-- A page with one picture and its description, as it is read. -/
def readPicture (alt : String) : Forest Entry :=
  .cons ⟨"img", [("class", some "image"), ("src", some "a.png"), ("alt", some alt)], [[]]⟩ .nil .nil

theorem describedPicture_wraps :
    ∃ (page : CompiledPage) (slugs' : ClassName.Allocator),
      compileNamed {} [describedPicture] none noSlugs = .ok (page, slugs') ∧
      ∃ plain wrapped f body,
        compileNamed { wrapDocument := false } [describedPicture] none noSlugs = .ok (plain, slugs') ∧
        compileNamed { wrapDocument := true } [describedPicture] none noSlugs =
          .ok (wrapped, slugs') ∧
        wrapped = { plain with markup := wrapped.markup, hash := wrapped.hash } ∧
        Markup.read .html 2 plain.markup.toList = some f ∧
        body? .html wrapped.markup.toList = some body ∧
        readIndented .html 2 2 body = some (f.map (Entry.reflow 2)) ∧
        (f.map (Entry.reflow 2) = f ↔
          ∀ x ∈ f.labels, ∀ a ∈ x.attributes, ∀ v ∈ a.2, '\n' ∉ v.toList) := by
  obtain ⟨code, -, hcompiled⟩ := describedPicture_compiled
  exact ⟨_, _, hcompiled false, compileNamed_wraps (hcompiled false)⟩

/-- In the document the second line of the description is another one. -/
theorem describedPicture_differs :
    ∃ plain wrapped slugs' body,
      compileNamed { wrapDocument := false } [describedPicture] none noSlugs = .ok (plain, slugs') ∧
      compileNamed { wrapDocument := true } [describedPicture] none noSlugs = .ok (wrapped, slugs') ∧
      Markup.read .html 2 plain.markup.toList = some (readPicture "one\ntwo") ∧
      body? .html wrapped.markup.toList = some body ∧
      readIndented .html 2 2 body = some (readPicture "one\n  two") ∧
      readPicture "one\n  two" ≠ readPicture "one\ntwo" := by
  obtain ⟨code, hmarkup, hcompiled⟩ := describedPicture_compiled
  have hplain : (pageUnder { wrapDocument := false } none describedTree code "page").markup =
      code.markup := rfl
  have hwrapped : (pageUnder { wrapDocument := true } none describedTree code "page").markup =
      render .html (pageName none describedTree) (stylesheetFile "page") code.markup := rfl
  have hchars : ("page".toList.all ClassName.isPrefixChar) = true := by decide +kernel
  have hslug : ClassName.isClassName "page" := List.all_eq_true.mp hchars
  -- the markup is a fixed text, so both readings are computed
  refine ⟨_, _, _, _, hcompiled false, hcompiled true, ?_,
    hwrapped ▸ body?_render (d := .html) hslug _ _, ?_, by decide +kernel⟩
  · rw [hplain, hmarkup]
    decide +kernel
  · rw [hmarkup]
    decide +kernel

end DesignCompiler
