import DesignCompiler.Proofs.Markup.Rendering

/-!
# DesignCompiler — markup by recursion over children

What the loop over a stack of visits writes is the rendering of the root, which is said by recursion
over the lists of children. The recursion counts the levels that it goes down; the loop looks the
depths up that the nodes keep.

* `Markup.eq_line_iff` — a line is a text behind the blanks of its depth;
* `Markup.Renders` — the text of a node, by recursion;
* `rendersAll_iff` — along a forest, the recursion gives its rendering and no other text;
* `PageTree.WrittenByRecursion` — loop and recursion agree on the markup;
* `markup_recursive` — they do for every built tree.
-/

namespace DesignCompiler

namespace Markup

theorem eq_line_iff {indent depth : Nat} {text cs : List Char} :
    cs = line indent depth text ↔
      ∃ padding, cs = padding ++ text ++ ['\n'] ∧ padding.length = depth * indent ∧
        ∀ c ∈ padding, c = ' ' := by
  constructor
  · rintro rfl
    exact ⟨_, rfl, List.length_replicate, fun _ => List.eq_of_mem_replicate⟩
  · rintro ⟨padding, rfl, hlength, hblank⟩
    rw [line, ← List.eq_replicate_iff.mpr ⟨hlength, hblank⟩]

mutual

/-- The text of the node of a slot, `depth` levels below the root. -/
inductive Renders (s : Settings) (t : PageTree) (es : List PageElement) :
    (depth slot : Nat) → List Char → Prop where
  /-- A node without children is one line. -/
  | leaf {depth slot : Nat} {n : Node} {e : PageElement} (hn : t.nodes[slot]? = some n)
      (he : es[slot]? = some e) (hc : n.children = []) :
      Renders s t es depth slot (line s.indent depth (leaf s.dialect e))
  /-- A node with children is its start tag, its text one level deeper if it has one, the texts of
  its children, and its end tag. -/
  | box {depth slot : Nat} {n : Node} {e : PageElement} {inside : List Char}
      (hn : t.nodes[slot]? = some n) (he : es[slot]? = some e) (hc : n.children ≠ [])
      (h : RendersAll s t es (depth + 1) n.children inside) :
      Renders s t es depth slot
        (line s.indent depth (startTag s.dialect e) ++
          (e.contentLines?.elim [] fun lines =>
            line s.indent (depth + 1) (content s.dialect lines)) ++
          inside ++ line s.indent depth (endTag e))

/-- The texts of nodes, one behind the other. -/
inductive RendersAll (s : Settings) (t : PageTree) (es : List PageElement) :
    (depth : Nat) → List Nat → List Char → Prop where
  | nil {depth : Nat} : RendersAll s t es depth [] []
  | cons {depth slot : Nat} {slots : List Nat} {text behind : List Char}
      (h : Renders s t es depth slot text) (hbehind : RendersAll s t es depth slots behind) :
      RendersAll s t es depth (slot :: slots) (text ++ behind)

end

variable {s : Settings} {t : PageTree} {es : List PageElement} {depth : Nat}

theorem renders_iff_rendersAll {slot : Nat} {text : List Char} :
    Renders s t es depth slot text ↔ RendersAll s t es depth [slot] text := by
  constructor
  · intro h
    have hall := RendersAll.cons h .nil
    rwa [List.append_nil] at hall
  · rintro (_ | ⟨h, _ | _⟩)
    rwa [List.append_nil]

theorem opening_eq (s : Settings) (depth : Nat) (e : PageElement) :
    opening s depth e = line s.indent depth (startTag s.dialect e) ++
      e.contentLines?.elim [] fun lines =>
        line s.indent (depth + 1) (content s.dialect lines) := by
  rw [opening]
  cases e.contentLines? with
  | none => rfl
  | some lines => rfl

/-- What a node renders is decided by its page element and by what its children render. -/
theorem renders_iff {slot : Nat} {n : Node} {e : PageElement} (hn : t.nodes[slot]? = some n)
    (he : es[slot]? = some e) {text : List Char} :
    Renders s t es depth slot text ↔
      if n.children = [] then text = line s.indent depth (leaf s.dialect e)
      else ∃ inside, RendersAll s t es (depth + 1) n.children inside ∧
        text = opening s depth e ++ inside ++ line s.indent depth (endTag e) := by
  -- A position of the tree is a leaf or a box, as its children say.
  constructor
  · rintro (⟨hn', he', hc⟩ | ⟨hn', he', hc, h⟩)
    · obtain rfl := Option.some.inj (hn.symm.trans hn')
      obtain rfl := Option.some.inj (he.symm.trans he')
      rw [if_pos hc]
    · obtain rfl := Option.some.inj (hn.symm.trans hn')
      obtain rfl := Option.some.inj (he.symm.trans he')
      rw [if_neg hc, opening_eq]
      exact ⟨_, h, rfl⟩
  · split
    · rename_i hc
      rintro rfl
      exact .leaf hn he hc
    · rename_i hc
      rintro ⟨inside, h, rfl⟩
      rw [opening_eq]
      exact .box hn he hc h

/-- Along a forest, what its top slots render is the rendering of the forest. -/
theorem rendersAll_iff {f : Forest (Nat × PageElement)}
    (hfits : (f.map Prod.fst).Fits t.children)
    (hnodes : ∀ p ∈ f.labels, ∃ n, t.nodes[p.1]? = some n)
    (hes : ∀ p ∈ f.labels, es[p.1]? = some p.2) {text : List Char} :
    RendersAll s t es depth (f.map Prod.fst).tops text ↔
      text = rendering s depth (f.map Prod.snd) := by
  -- the depth is any, because the nodes below are one level deeper
  induction f generalizing depth text with
  | nil => exact ⟨fun h => by cases h; rfl, fun h => h ▸ .nil⟩
  | cons p below others ihb ihr =>
    obtain ⟨slot, e⟩ := p
    obtain ⟨htops, hb, hr⟩ := hfits
    simp only [Forest.labels, List.forall_mem_cons, List.forall_mem_append] at hnodes hes
    obtain ⟨⟨n, hn⟩, hnb, hnr⟩ := hnodes
    obtain ⟨he, heb, her⟩ := hes
    have hchildren : t.children slot = n.children := by simp only [PageTree.children, hn]
    rw [hchildren] at htops
    have hslot : ∀ {text}, Renders s t es depth slot text ↔
        text = rendering s depth (.cons e (below.map Prod.snd) .nil) := by
      intro text
      rw [renders_iff hn he, ← htops]
      cases below with
      | nil => simp [Forest.map, Forest.tops, rendering]
      | cons q below others' =>
        have hinside : ∀ inside,
            RendersAll s t es (depth + 1) ((Forest.cons q below others').map Prod.fst).tops inside ↔
              inside = rendering s (depth + 1) ((Forest.cons q below others').map Prod.snd) :=
          fun _ => ihb hb hnb heb
        simp only [hinside]
        simp [Forest.map, Forest.tops, rendering]
    rw [Forest.map, Forest.map, rendering_cons]
    constructor
    · rintro (_ | ⟨h, hbehind⟩)
      rw [hslot.mp h, (ihr hr hnr her).mp hbehind]
    · rintro rfl
      exact .cons (hslot.mpr rfl) ((ihr hr hnr her).mpr rfl)

end Markup

open Markup

/-- The loop over visits ends and writes what the recursion over children says. -/
structure PageTree.WrittenByRecursion (t : PageTree) (s : Settings) (es : List PageElement) :
    Prop where
  /-- The stack is empty after at most two visits for each node. -/
  ends : ∃ written, Yields (Markup.next s t es) [.enter t.root] written ∧
    written.length ≤ 2 * t.size
  loop : ∀ written, Yields (Markup.next s t es) [.enter t.root] written →
    written.flatten = (t.markup s es).toList
  recursion : ∀ text, Renders s t es 0 t.root text ↔ text = (t.markup s es).toList
  /-- The lines that both write are indented by blanks, `indent` for each level. -/
  padded : ∀ depth text cs, cs = line s.indent depth text ↔
    ∃ padding, cs = padding ++ text ++ ['\n'] ∧ padding.length = depth * s.indent ∧
      ∀ c ∈ padding, c = ' '

/--
**The loop is the recursion.** For every built tree and its page elements the loop over visits ends,
and it has written the one text that the recursion over the children gives for the root: one line for
a node without children, and for others their start tag and their text, all their children, and their
end tag, each line indented by the distance of its node from the root.
-/
theorem markup_recursive {cs : List Component} {t : PageTree} {lead : Option String}
    {es : List PageElement} (hb : PageTree.build cs = .ok t) (he : t.pageElements lead = .ok es)
    (s : Settings) : t.WrittenByRecursion s es := by
  obtain ⟨f, -, hlists, -, -, hes⟩ := exists_lists_of_pageElements hb he
  have hloop := hlists.yields_texts hes s
  have hmarkup : (t.markup s es).toList = rendering s 0 (f.map Prod.snd) := by
    rw [markup_eq_rendering hlists hes, String.toList_ofList]
  have hnodes : ∀ p ∈ f.labels, ∃ n, t.nodes[p.1]? = some n := fun p hp =>
    (hlists.describes p hp).imp fun _ h => h.1
  refine ⟨⟨_, hloop, hlists.length_texts_le s⟩, fun written h => ?_, fun text => ?_,
    fun _ _ _ => eq_line_iff⟩
  · rw [h.unique hloop, flatten_texts, hmarkup]
  · rw [renders_iff_rendersAll, ← hlists.unfolds.tops, hmarkup]
    exact rendersAll_iff hlists.unfolds.fits hnodes hes

/-- A picture that stands behind its caption. -/
def galleryPicture : Component :=
  { id := ⟨1⟩, parentId := some ⟨3⟩, kind := "img", order := 1,
    appearance := [("src", .string "a.png")] }

def galleryCaption : Component :=
  { id := ⟨2⟩, parentId := some ⟨3⟩, kind := "text", appearance := [("text", .string "A & B\nC")] }

/-- A picture around them. -/
def galleryWall : Component :=
  { id := ⟨3⟩, kind := "img", appearance := [("src", .string "\"wall\".png")] }

/-- A picture in the caption. -/
def gallerySign : Component :=
  { id := ⟨4⟩, parentId := some ⟨2⟩, kind := "img", appearance := [("src", .string "a.png")] }

def galleryPage : List Component :=
  [gallerySign, galleryWall, galleryCaption, galleryPicture]

def galleryTree : PageTree where
  nodes :=
    [{ component := galleryPicture, parent := some 2, children := [], depth := 1 },
      { component := galleryCaption, parent := some 2, children := [3], depth := 1 },
      { component := galleryWall, parent := none, children := [1, 0], depth := 0 },
      { component := gallerySign, parent := some 1, children := [], depth := 2 }]
  root := 2
  pageId := none

theorem build_galleryPage : PageTree.build galleryPage = .ok galleryTree := by
  cbv

theorem galleryPage_recursive :
    ∃ t es, PageTree.build galleryPage = .ok t ∧ t.pageElements none = .ok es ∧
      t.WrittenByRecursion { dialect := .jsx, indent := 1 } es ∧
      t.markup { dialect := .jsx, indent := 1 } es =
        "<div className=\"image\">\n <div className=\"text\">\n  A &amp; B<br />C\n" ++
          "  <img className=\"image-2\" src=\"a.png\" alt=\"\" />\n </div>\n" ++
          " <img className=\"image-3\" src=\"a.png\" alt=\"\" />\n</div>\n" := by
  have hmarkup : (galleryTree.pageElements none).map
        (galleryTree.markup { dialect := .jsx, indent := 1 }) =
      .ok ("<div className=\"image\">\n <div className=\"text\">\n  A &amp; B<br />C\n" ++
        "  <img className=\"image-2\" src=\"a.png\" alt=\"\" />\n </div>\n" ++
        " <img className=\"image-3\" src=\"a.png\" alt=\"\" />\n</div>\n") := by
    decide +kernel
  obtain ⟨es, hes, htext⟩ := map_eq_ok_iff.mp hmarkup
  exact ⟨galleryTree, es, build_galleryPage, hes, markup_recursive build_galleryPage hes _, htext⟩

end DesignCompiler
