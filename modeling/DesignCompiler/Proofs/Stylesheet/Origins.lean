import DesignCompiler.Proofs.Stylesheet.Agreement
import DesignCompiler.Proofs.Tree.Descent

/-!
# DesignCompiler — what offsets count from

The offsets of an element whose position is `absolute` count from the nearest element around it that
has a position at all, and from the page if there is none. A rule has a position exactly if its
component has a geometry. So the offsets of a component count from its parent if the parent has a
geometry; if it has none, they count from something farther out.

* `Forest.anchors` — every label with the nearest one above it that passes a test;
* `Block.position?`, `Component.position?` — the position that a rule declares, and a component has;
* `CountsFrom` — the component from which the offsets of another one count;
* `emit_places` — positions and origins in emitted code, and when all offsets count from parents;
* `loosePage_strays` — a page on which one does not.
-/

namespace DesignCompiler

/-! ## Nearest labels above -/

namespace Forest

variable {α : Type}

/-- Every label with the nearest one above it that passes a test. Nothing in the forest is above its
tops, so these have what is given for them. -/
def anchors (q : α → Bool) (above : Option α) : Forest α → List (α × Option α)
  | nil => []
  | cons a below rest =>
    (a, above) :: below.anchors q (if q a then some a else above) ++ rest.anchors q above

/-- What holds of the tops, and goes from a label to those directly below it, holds of all labels
with what is above them. -/
theorem forall_anchors {q : α → Bool} {R : α → Option α → Prop} {t : Forest α} {above : Option α}
    (htops : ∀ a ∈ t.tops, R a above)
    (hlink : ∀ x ∈ t.links, ∀ o, R x.1 o → R x.2 (if q x.1 then some x.1 else o)) :
    ∀ x ∈ t.anchors q above, R x.1 x.2 := by
  induction t generalizing above with
  | nil => exact fun _ hx => nomatch hx
  | cons a below rest ihb ihr =>
    simp only [tops, links, List.forall_mem_cons, List.forall_mem_append, List.forall_mem_map]
      at htops hlink
    obtain ⟨⟨htop, hbelow⟩, hrest⟩ := hlink
    simp only [anchors, List.forall_mem_append, List.forall_mem_cons]
    refine ⟨⟨htops.1, ?_⟩, ihr htops.2 hrest⟩
    exact ihb (fun b hb => htop b hb above htops.1) hbelow

theorem mem_labels_of_mem_anchors {q : α → Bool} {t : Forest α} {above : Option α}
    {x : α × Option α} (h : x ∈ t.anchors q above) : x.1 ∈ t.labels := by
  induction t generalizing above with
  | nil => exact nomatch h
  | cons a below rest ihb ihr =>
    simp only [anchors, labels, List.mem_append, List.mem_cons] at h ⊢
    rcases h with (rfl | hb) | hr
    · exact Or.inl rfl
    · exact Or.inr (Or.inl (ihb hb))
    · exact Or.inr (Or.inr (ihr hr))

theorem mem_descents_of_mem_links {t : Forest α} {x : α × α} (h : x ∈ t.links) :
    x ∈ t.descents := by
  induction t with
  | nil => exact nomatch h
  | cons a below rest ihb ihr =>
    simp only [links, descents, List.mem_append, List.mem_map] at h ⊢
    rcases h with (⟨b, hb, rfl⟩ | hb) | hr
    · exact Or.inl (Or.inl ⟨b, mem_labels_of_mem_tops hb, rfl⟩)
    · exact Or.inl (Or.inr (ihb hb))
    · exact Or.inr (ihr hr)

/-- Pairs of labels of which one is directly below the other are slots and their children. -/
theorem Fits.mem_links_iff {children : Nat → List Nat} {t : Forest Nat} (h : t.Fits children)
    {slot child : Nat} : (slot, child) ∈ t.links ↔ slot ∈ t.labels ∧ child ∈ children slot := by
  induction t with
  | nil => simp [links, labels]
  | cons a below rest ihb ihr =>
    obtain ⟨htops, hb, hr⟩ := h
    simp only [links, labels, List.mem_append, List.mem_map, List.mem_cons, ihb hb, ihr hr,
      Prod.mk.injEq, htops]
    grind

end Forest

/-! ## Positions -/

def Declaration.isPosition (d : Declaration) : Bool :=
  d.property == "position"

/-- The position that a rule declares. -/
def Block.position? (b : Block) : Option String :=
  (b.declarations.find? Declaration.isPosition).map Declaration.value

/-- The position of a component. The root stands where the page puts it. -/
def Component.position? (c : Component) : Option String :=
  c.geometry.map fun _ => if c.parentId.isNone then "relative" else "absolute"

theorem Component.isSome_position? (c : Component) :
    c.position?.isSome = c.geometry.isSome := by
  rw [position?, Option.isSome_map]

/-- The component from which the offsets of another one count: the first with a geometry on the way
up along the parents, and with none on the way the page. -/
inductive CountsFrom (cs : List Component) : Component → Option Component → Prop where
  | page {c : Component} (hc : c.parentId = none) : CountsFrom cs c none
  | parent {c p : Component} (hp : p ∈ cs) (hc : c.parentId = some p.id)
      (hplaced : p.geometry.isSome = true) : CountsFrom cs c (some p)
  | beyond {c p : Component} {o : Option Component} (hp : p ∈ cs) (hc : c.parentId = some p.id)
      (hfree : p.geometry = none) (hup : CountsFrom cs p o) : CountsFrom cs c o

namespace Stylesheet

theorem find?_declare {property : String} (h : property ≠ "position") (o : Option String) :
    (declare property o).find? Declaration.isPosition = none := by
  cases o <;> simp [declare, Declaration.isPosition, h]

theorem find?_background (e : PageElement) :
    (background e).find? Declaration.isPosition = none := by
  unfold background
  split
  · split <;> simp [Declaration.isPosition]
  · rfl

theorem find?_font (t : Typography) : (font t).find? Declaration.isPosition = none := by
  simp [font, List.find?_append, find?_declare]

theorem find?_behaviour (e : PageElement) :
    (behaviour e).find? Declaration.isPosition = none := by
  unfold behaviour
  split
  · split
    · rfl
    · exact find?_declare (by decide) _
  · simp [Declaration.isPosition]
  · rfl

end Stylesheet

open Stylesheet in
/-- A rule has the position of its placement: no other declaration is of this property. -/
theorem PageElement.position?_block (e : PageElement) : e.block.position? =
    e.geometry.map fun _ => if e.isRoot then "relative" else "absolute" := by
  simp only [Block.position?, block, declarations_eq, declared_eq, List.find?_append]
  cases e.geometry with
  | none =>
    cases e.element.typography? <;>
      simp [find?_declare, find?_background, find?_font, find?_behaviour]
  | some g =>
    cases e.isRoot <;> rfl

/-! ## Elements and components -/

/-- A geometry is checked, and not changed. -/
theorem Component.placement_eq_ok {c : Component} {r : Option Geometry}
    (h : c.placement = .ok r) : r = c.geometry := by
  unfold placement at h
  cases hg : c.geometry with
  | none =>
    rw [hg] at h
    exact (Except.ok.inj h).symm
  | some g =>
    simp only [hg] at h
    obtain ⟨-, -, h⟩ := bind_eq_ok_iff.mp h
    obtain ⟨-, -, h⟩ := bind_eq_ok_iff.mp h
    obtain ⟨-, -, h⟩ := bind_eq_ok_iff.mp h
    obtain ⟨-, -, h⟩ := bind_eq_ok_iff.mp h
    exact (Except.ok.inj h).symm

theorem PageElement.Describes.geometry_eq {e : PageElement} {root slot : Nat} {n : Node}
    (h : e.Describes root slot n) : e.geometry = n.component.geometry := by
  obtain ⟨element, -, hrest⟩ := bind_eq_ok_iff.mp h.lowered
  obtain ⟨geometry, hplacement, hpair⟩ := bind_eq_ok_iff.mp hrest
  obtain ⟨-, rfl⟩ := Prod.mk.inj (Except.ok.inj hpair)
  exact Component.placement_eq_ok hplacement

namespace PageTree

variable {cs : List Component} {t : PageTree} {f : Forest (Nat × PageElement)}

/-- The root is the component without a parent. -/
theorem eq_root_iff (hb : build cs = .ok t) {slot : Nat} {n : Node}
    (hn : t.nodes[slot]? = some n) : slot = t.root ↔ n.component.parentId = none := by
  obtain ⟨htree, ht, r, hroot, honly⟩ := build_eq_arena hb
  have hslot := (getElem?_nodes ht hn).1
  constructor
  · rintro rfl
    rw [Option.some.inj (hslot.symm.trans hroot)]
    exact parentId_of_only honly
  · exact eq_root (nodup_ids_sortById.mpr htree.distinct) hroot honly hslot

namespace Lists

theorem position?_eq (h : t.Lists f) (hb : build cs = .ok t) {p : Nat × PageElement}
    (hp : p ∈ f.labels) {n : Node} (hn : t.nodes[p.1]? = some n) :
    p.2.block.position? = n.component.position? := by
  obtain ⟨m, hm, hdescribes⟩ := h.describes p hp
  obtain rfl : n = m := Option.some.inj (hn.symm.trans hm)
  have hroot : p.2.isRoot = n.component.parentId.isNone := by
    rw [hdescribes.isRoot, Bool.eq_iff_iff, beq_iff_eq, Option.isNone_iff_eq_none]
    exact eq_root_iff hb hn
  rw [PageElement.position?_block, Component.position?, hdescribes.geometry_eq, hroot]

/-- The components of two elements of which one is directly inside the other. -/
theorem exists_parent_of_links (h : t.Lists f) (hb : build cs = .ok t)
    {x : (Nat × PageElement) × (Nat × PageElement)} (hx : x ∈ f.links) :
    ∃ p c : Node, t.nodes[x.1.1]? = some p ∧ t.nodes[x.2.1]? = some c ∧ x.1 ∈ f.labels ∧
      x.2 ∈ f.labels ∧ c.component.parentId = some p.component.id := by
  obtain ⟨hup, hdown⟩ := Forest.mem_labels_of_mem_descents (Forest.mem_descents_of_mem_links hx)
  obtain ⟨p, hp, -⟩ := h.describes x.1 hup
  obtain ⟨c, hc, -⟩ := h.describes x.2 hdown
  have hslots : (x.1.1, x.2.1) ∈ (f.map Prod.fst).links := by
    rw [Forest.links_map]
    exact List.mem_map_of_mem hx
  have hchild := (h.unfolds.fits.mem_links_iff.mp hslots).2
  exact ⟨p, c, hp, hc, hup, hdown, (mem_children_iff hb hp hc).mp hchild⟩

/-- The elements of a component and of its parent are directly inside each other. -/
theorem exists_links_of_parent (h : t.Lists f) (hb : build cs = .ok t) {c p : Component}
    (hc : c ∈ cs) (hp : p ∈ cs) (hparent : c.parentId = some p.id) :
    ∃ x ∈ f.links, ∃ m n : Node, t.nodes[x.1.1]? = some m ∧ t.nodes[x.2.1]? = some n ∧
      m.component = p ∧ n.component = c := by
  obtain ⟨i, m, hm, rfl⟩ := exists_slot hb hp
  obtain ⟨j, n, hn, rfl⟩ := exists_slot hb hc
  have hi : i ∈ (f.map Prod.fst).labels :=
    h.unfolds.mem_labels_iff.mpr (List.getElem?_eq_some_iff.mp hm).1
  have hlink := h.unfolds.fits.mem_links_iff.mpr ⟨hi, (mem_children_iff hb hm hn).mpr hparent⟩
  rw [Forest.links_map] at hlink
  obtain ⟨x, hx, heq⟩ := List.mem_map.mp hlink
  obtain ⟨rfl, rfl⟩ := Prod.mk.inj heq
  exact ⟨x, hx, m, n, hm, hn, rfl, rfl⟩

/-- The nearest element around another one that has a position is that of the component from which
its offsets count. -/
theorem countsFrom (h : t.Lists f) (hb : build cs = .ok t) :
    ∀ x ∈ f.anchors (·.2.block.position?.isSome) none, ∃ n, t.nodes[x.1.1]? = some n ∧
      ∃ o, CountsFrom cs n.component o ∧ x.2.map (·.2.id) = o.map Component.id := by
  let R (p : Nat × PageElement) (above : Option (Nat × PageElement)) : Prop :=
    ∃ n, t.nodes[p.1]? = some n ∧
      ∃ o, CountsFrom cs n.component o ∧ above.map (·.2.id) = o.map Component.id
  refine Forest.forall_anchors (R := R) ?_ ?_
  · -- around the root there is only the page
    intro p hp
    have hroot : p.1 ∈ (f.map Prod.fst).tops := by
      rw [Forest.tops_map]
      exact List.mem_map_of_mem hp
    rw [h.unfolds.tops, List.mem_singleton] at hroot
    obtain ⟨n, hn, -⟩ := h.describes p (Forest.mem_labels_of_mem_tops hp)
    exact ⟨n, hn, none, .page ((eq_root_iff hb hn).mp hroot), rfl⟩
  · -- one level down: either the element above has a position, or what is around it counts on
    rintro x hx above ⟨m, hm, o, hcounts, habove⟩
    obtain ⟨p, c, hp, hc, hup, -, hparent⟩ := h.exists_parent_of_links hb hx
    obtain rfl : m = p := Option.some.inj (hm.symm.trans hp)
    have hmem := component_mem hb hm
    refine ⟨c, hc, ?_⟩
    rw [h.position?_eq hb hup hm, Component.isSome_position?]
    cases hg : m.component.geometry with
    | none => exact ⟨o, .beyond hmem hparent hg hcounts, by simpa using habove⟩
    | some g =>
      obtain ⟨m', hm', hdescribes⟩ := h.describes x.1 hup
      obtain rfl : m = m' := Option.some.inj (hm.symm.trans hm')
      exact ⟨some m.component, .parent hmem hparent (by rw [hg]; rfl), by simp [hdescribes.id]⟩

/-- Every element that is lifted out stands in one with a position exactly if no component with a
geometry has a parent without one. -/
theorem anchored_iff (h : t.Lists f) (hb : build cs = .ok t) :
    (∀ x ∈ f.links, x.2.2.block.position? = some "absolute" →
        x.1.2.block.position?.isSome = true) ↔
      ∀ c ∈ cs, ∀ p ∈ cs, c.parentId = some p.id → c.geometry.isSome = true →
        p.geometry.isSome = true := by
  constructor
  · -- a component with a parent is no root, so with a geometry it is lifted out
    intro hall c hc p hp hparent hplaced
    obtain ⟨x, hx, m, n, hm, hn, rfl, rfl⟩ := h.exists_links_of_parent hb hc hp hparent
    obtain ⟨-, -, -, -, hup, hdown, -⟩ := h.exists_parent_of_links hb hx
    have hposition := hall x hx
    rw [h.position?_eq hb hup hm, h.position?_eq hb hdown hn, Component.isSome_position?] at hposition
    obtain ⟨g, hg⟩ := Option.isSome_iff_exists.mp hplaced
    exact hposition (by simp [Component.position?, hg, hparent])
  · intro hall x hx hposition
    obtain ⟨p, c, hp, hc, hup, hdown, hparent⟩ := h.exists_parent_of_links hb hx
    rw [h.position?_eq hb hdown hc] at hposition
    rw [h.position?_eq hb hup hp, Component.isSome_position?]
    refine hall _ (component_mem hb hc) _ (component_mem hb hp) hparent ?_
    rw [← Component.isSome_position?, hposition, Option.isSome_some]

end Lists

/-- Code that places its elements: how markup and rules nest, which positions the rules have, and
what the offsets count from. -/
structure Places (t : PageTree) (cs : List Component) (s : Settings) (code : Code)
    (f : Forest (Nat × PageElement)) : Prop where
  lists : t.Lists f
  markup : Markup.read s.dialect s.indent code.markup.toList =
    some (f.map fun p => p.2.entry s.dialect)
  blocks : Stylesheet.read code.stylesheet.toList = some (f.labels.map (·.2.block))
  position : ∀ p ∈ f.labels, ∀ c ∈ cs, c.id = p.2.id → p.2.block.position? = c.position?
  /-- What the offsets of a rule count from is the rule of what those of its component do. -/
  origin : ∀ x ∈ f.anchors (·.2.block.position?.isSome) none, ∀ c ∈ cs, c.id = x.1.2.id →
    ∃ o, CountsFrom cs c o ∧ x.2.map (·.2.id) = o.map Component.id
  anchored : (∀ x ∈ f.links, x.2.2.block.position? = some "absolute" →
      x.1.2.block.position?.isSome = true) ↔
    ∀ c ∈ cs, ∀ p ∈ cs, c.parentId = some p.id → c.geometry.isSome = true →
      p.geometry.isSome = true

/-- A component is found by its identifier. -/
theorem Lists.component_eq (h : t.Lists f) (hb : build cs = .ok t) {p : Nat × PageElement}
    (hp : p ∈ f.labels) {n : Node} (hn : t.nodes[p.1]? = some n) {c : Component} (hc : c ∈ cs)
    (hid : c.id = p.2.id) : c = n.component := by
  obtain ⟨m, hm, hdescribes⟩ := h.describes p hp
  obtain rfl : n = m := Option.some.inj (hn.symm.trans hm)
  obtain ⟨htree, -⟩ := build_eq_arena hb
  exact List.inj_on_of_nodup_map htree.distinct hc (component_mem hb hn)
    (hid.trans hdescribes.id)

end PageTree

open PageTree in
/--
**What offsets count from.** In emitted code exactly the components with a geometry have a position.
The offsets of a component count from the nearest one above it with a geometry, which is its parent
exactly if the parent has one. So every element that is lifted out stands in one with a position, and
counts its offsets from it, exactly if no component with a geometry has a parent without one.
-/
theorem emit_places {cs : List Component} {t : PageTree} {s : Settings} {code : Code}
    (hb : build cs = .ok t) (he : t.emit s = .ok code) : ∃ f, t.Places cs s code f := by
  obtain ⟨f, es, hlists, hes, rfl⟩ := exists_lists hb he
  refine ⟨f, hlists, ?_, hlists.read_stylesheet s.indent, ?_, ?_, hlists.anchored_iff hb⟩
  · simp only [markup_eq_rendering hlists hes, String.toList_ofList]
    exact (Markup.read_rendering hlists s).1
  · intro p hp c hc hid
    obtain ⟨n, hn, -⟩ := hlists.describes p hp
    rw [hlists.component_eq hb hp hn hc hid]
    exact hlists.position?_eq hb hp hn
  · intro x hx c hc hid
    obtain ⟨n, hn, o, hcounts, horigin⟩ := hlists.countsFrom hb x hx
    rw [hlists.component_eq hb (Forest.mem_labels_of_mem_anchors hx) hn hc hid]
    exact ⟨o, hcounts, horigin⟩

/-- A box that stands where the page puts it. -/
def firmBox (g : Geometry) : Component :=
  { id := ⟨1⟩, kind := "container", geometry := some g }

/-- A box in it without a geometry. -/
def looseBox : Component :=
  { id := ⟨2⟩, parentId := some ⟨1⟩, kind := "container" }

/-- A box in that one with a geometry. -/
def strayBox (g : Geometry) : Component :=
  { id := ⟨3⟩, parentId := some ⟨2⟩, kind := "container", geometry := some g }

def loosePage (outer inner : Geometry) : List Component :=
  [firmBox outer, looseBox, strayBox inner]

def looseTree (outer inner : Geometry) : PageTree where
  nodes := [⟨firmBox outer, none, [1], 0⟩, ⟨looseBox, some 0, [2], 1⟩, ⟨strayBox inner, some 1, [], 2⟩]
  root := 0
  pageId := none

theorem build_loosePage (outer inner : Geometry) :
    PageTree.build (loosePage outer inner) = .ok (looseTree outer inner) := by
  cbv

def wideGeometry : Geometry := ⟨.ofNat 0, .ofNat 0, .ofNat 800, .ofNat 600⟩

def smallGeometry : Geometry := ⟨.ofNat 10, .ofNat 20, .ofNat 100, .ofNat 50⟩

theorem loosePage_places :
    ∃ t code f, PageTree.build (loosePage wideGeometry smallGeometry) = .ok t ∧
      t.emit {} = .ok code ∧ t.Places (loosePage wideGeometry smallGeometry) {} code f := by
  have hbuild := build_loosePage wideGeometry smallGeometry
  obtain ⟨code, hcode⟩ := PageTree.exists_emit_of_all
    (t := looseTree wideGeometry smallGeometry) (by decide +kernel) {}
  obtain ⟨f, hplaces⟩ := emit_places hbuild hcode
  exact ⟨_, code, f, hbuild, hcode, hplaces⟩

/-- The innermost box is lifted out, and the box that it stands in has no position: its offsets count
from the outermost one. -/
theorem loosePage_strays :
    ∃ t code g bs, PageTree.build (loosePage wideGeometry smallGeometry) = .ok t ∧
      t.emit {} = .ok code ∧ Markup.read .html 2 code.markup.toList = some g ∧
      Stylesheet.read code.stylesheet.toList = some bs ∧
      ∃ x ∈ g.links, ∃ outer ∈ bs, ∃ inner ∈ bs,
        x.1.attributes = [("class", some "container-2")] ∧ outer.selector = ".container-2" ∧
        x.2.attributes = [("class", some "container-3")] ∧ inner.selector = ".container-3" ∧
        inner.position? = some "absolute" ∧ outer.position? = none ∧
        CountsFrom (loosePage wideGeometry smallGeometry) (strayBox smallGeometry)
          (some (firmBox wideGeometry)) := by
  -- markup and stylesheet are read back as texts: what is said is said of them
  have hcode : ((looseTree wideGeometry smallGeometry).emit {}).map
        (fun code => (code.markup, code.stylesheet)) =
      .ok ("<div class=\"container\">\n  <div class=\"container-2\">\n" ++
          "    <div class=\"container-3\"></div>\n  </div>\n</div>\n",
        ".container \x7b\n  position: relative;\n  width: 800px;\n  height: 600px;\n\x7d\n\n" ++
          ".container-2 \x7b\n\x7d\n\n" ++
          ".container-3 \x7b\n  position: absolute;\n  left: 10px;\n  top: 20px;\n" ++
          "  width: 100px;\n  height: 50px;\n\x7d\n") := by
    decide +kernel
  obtain ⟨code, hcode, hboth⟩ := map_eq_ok_iff.mp hcode
  obtain ⟨hmarkup, hstylesheet⟩ := Prod.mk.inj hboth
  have hread : Markup.read .html 2 code.markup.toList =
      some (.cons ⟨"div", [("class", some "container")], [[]]⟩
        (.cons ⟨"div", [("class", some "container-2")], [[]]⟩
          (.cons ⟨"div", [("class", some "container-3")], [[]]⟩ .nil .nil) .nil) .nil) := by
    rw [hmarkup]
    decide +kernel
  have hblocks : Stylesheet.read code.stylesheet.toList =
      some [⟨".container", [⟨"position", "relative"⟩, ⟨"width", "800px"⟩, ⟨"height", "600px"⟩]⟩,
        ⟨".container-2", []⟩,
        ⟨".container-3", [⟨"position", "absolute"⟩, ⟨"left", "10px"⟩, ⟨"top", "20px"⟩,
          ⟨"width", "100px"⟩, ⟨"height", "50px"⟩]⟩] := by
    rw [hstylesheet]
    decide +kernel
  have hcounts : CountsFrom (loosePage wideGeometry smallGeometry) (strayBox smallGeometry)
      (some (firmBox wideGeometry)) :=
    .beyond (p := looseBox) (by simp [loosePage]) rfl rfl
      (.parent (by simp [loosePage]) rfl rfl)
  refine ⟨_, code, _, _, build_loosePage _ _, hcode, hread, hblocks,
    (⟨"div", [("class", some "container-2")], [[]]⟩, ⟨"div", [("class", some "container-3")], [[]]⟩),
    by simp [Forest.links, Forest.tops], ⟨".container-2", []⟩, by simp, _,
    List.mem_cons_of_mem _ (List.mem_cons_of_mem _ (List.mem_cons_self ..)),
    rfl, rfl, rfl, rfl, rfl, rfl, hcounts⟩

end DesignCompiler
