import DesignCompiler.Proofs.Element.Renaming
import DesignCompiler.Proofs.Emission.Elements
import DesignCompiler.Proofs.Tree.Renaming

/-!
# DesignCompiler — what is written for renamed components

Markup and stylesheet never show an identifier, a page or an order. A renamed tree is walked in the
same pre-order, hands out the same classes to the same slots, and is written by the same steps.

* `PageElement.rename` — a page element under another identifier;
* `elementsOfSlots_rename`, `pageElements_rename` — the page elements of a renamed tree;
* `markup_rename`, `stylesheet_rename` — the texts that are written from them;
* `emit_rename` — the code of renamed components.
-/

namespace DesignCompiler

open ClassName

variable {r : Renaming}

def PageElement.rename (r : Renaming) (e : PageElement) : PageElement :=
  { e with id := r.id e.id }

theorem Component.showsSame_rename (c : Component) : c.ShowsSame (c.rename r) where
  kind := rfl
  geometry := rfl
  appearance := rfl

/-- A component that has an element has the same one when it is renamed. -/
theorem Component.lower_rename {c : Component} {x : Element × Option Geometry}
    (h : c.lower = .ok x) : (c.rename r).lower = .ok x := by
  rw [c.showsSame_rename.lower_eq, h, mapError_ok]

/-! ## Page elements -/

theorem PageElement.ofNode_rename {root slot : Nat} {n : Node} {names names' : Allocator}
    {e : PageElement} (h : PageElement.ofNode root slot n names = .ok (e, names')) :
    PageElement.ofNode root slot (n.rename r) names = .ok (e.rename r, names') := by
  rw [PageElement.ofNode] at h ⊢
  obtain ⟨⟨element, geometry⟩, hlower, h⟩ := bind_eq_ok_iff.mp h
  obtain ⟨rfl, rfl⟩ := Prod.mk.inj (Except.ok.inj h)
  exact bind_eq_ok_iff.mpr ⟨_, Component.lower_rename hlower, rfl⟩

namespace PageTree

variable {t : PageTree}

theorem getElem?_nodes_rename (t : PageTree) (slot : Nat) :
    (t.rename r).nodes[slot]? = t.nodes[slot]?.map (Node.rename r) :=
  List.getElem?_map

theorem size_rename (t : PageTree) : (t.rename r).size = t.size :=
  List.length_map _

theorem children_rename (t : PageTree) : (t.rename r).children = t.children := by
  funext slot
  rw [children, children, getElem?_nodes_rename]
  cases t.nodes[slot]? <;> rfl

theorem preorder_rename (t : PageTree) : (t.rename r).preorder = t.preorder := by
  rw [preorder, preorder, children_rename, size_rename]
  rfl

theorem elementsOfSlots_rename {slots : List Nat} {names : Allocator}
    {ps : List (Nat × PageElement)} (h : t.elementsOfSlots slots names = .ok ps) :
    (t.rename r).elementsOfSlots slots names = .ok (ps.map (Prod.map id (·.rename r))) := by
  induction slots generalizing names ps with
  | nil =>
    obtain rfl := Except.ok.inj h
    rfl
  | cons slot slots ih =>
    cases hn : t.nodes[slot]? with
    | none =>
      simp only [elementsOfSlots, hn] at h
      simp only [elementsOfSlots, getElem?_nodes_rename, hn, Option.map_none]
      exact ih h
    | some n =>
      simp only [elementsOfSlots, hn] at h
      obtain ⟨⟨e, names'⟩, he, h⟩ := bind_eq_ok_iff.mp h
      obtain ⟨rest, hrest, h⟩ := bind_eq_ok_iff.mp h
      obtain rfl := Except.ok.inj h
      -- the same name is allocated, so the others get the same names too
      simp only [elementsOfSlots, getElem?_nodes_rename, hn, Option.map_some]
      exact bind_eq_ok_iff.mpr ⟨_, PageElement.ofNode_rename he,
        bind_eq_ok_iff.mpr ⟨_, ih hrest, rfl⟩⟩

theorem lookup_map_rename (ps : List (Nat × PageElement)) (slot : Nat) :
    (ps.map (Prod.map id (·.rename r))).lookup slot = (ps.lookup slot).map (·.rename r) := by
  induction ps with
  | nil => rfl
  | cons p ps ih =>
    obtain ⟨k, e⟩ := p
    rw [List.map_cons, Prod.map_apply, List.lookup_cons, List.lookup_cons, ih, id_eq]
    cases slot == k <;> rfl

theorem pageElements_rename {lead : Option String} {es : List PageElement}
    (h : t.pageElements lead = .ok es) :
    (t.rename r).pageElements lead = .ok (es.map (·.rename r)) := by
  obtain ⟨ps, hps, h⟩ := bind_eq_ok_iff.mp h
  obtain rfl := Except.ok.inj h
  refine bind_eq_ok_iff.mpr ⟨ps.map (Prod.map id (·.rename r)), ?_, ?_⟩
  · rw [elementsInOrder, preorder_rename]
    exact elementsOfSlots_rename hps
  · rw [size_rename, List.map_filterMap]
    simp only [lookup_map_rename]
    rfl

end PageTree

/-! ## Texts -/

open Markup in
/-- Every visit writes the same lines. -/
theorem run_rename (s : Settings) (t : PageTree) (es : List PageElement) (limit : Nat)
    (visits : List Visit) :
    run s (t.rename r) (es.map (·.rename r)) limit visits = run s t es limit visits := by
  -- what a visit writes depends on neither identifiers nor pages
  have hstep : ∀ v, step s (t.rename r) (es.map (·.rename r)) v = step s t es v := by
    intro v
    cases v with
    | enter slot =>
      rw [step, step, PageTree.getElem?_nodes_rename, List.getElem?_map]
      cases t.nodes[slot]? <;> cases es[slot]? <;> rfl
    | leave slot =>
      rw [step, step, PageTree.getElem?_nodes_rename, List.getElem?_map]
      cases t.nodes[slot]? <;> cases es[slot]? <;> rfl
  induction limit generalizing visits with
  | zero => rfl
  | succ limit ih =>
    cases visits with
    | nil => rfl
    | cons v rest => simp only [run, hstep, ih]

theorem markup_rename (s : Settings) (t : PageTree) (es : List PageElement) :
    (t.rename r).markup s (es.map (·.rename r)) = t.markup s es := by
  rw [PageTree.markup, PageTree.markup, run_rename, PageTree.size_rename]
  rfl

theorem stylesheet_rename (indent : Nat) (es : List PageElement) :
    stylesheet indent (es.map (·.rename r)) = stylesheet indent es := by
  rw [stylesheet, List.map_map]
  rfl

/-- The code of renamed components. -/
def Code.rename (r : Renaming) (c : Code) : Code :=
  { c with classes := c.classes.map fun p => (r.id p.1, p.2) }

theorem PageTree.emit_rename {t : PageTree} {s : Settings} {code : Code}
    (h : t.emit s = .ok code) : (t.rename r).emit s = .ok (code.rename r) := by
  obtain ⟨es, hes, h⟩ := bind_eq_ok_iff.mp h
  obtain rfl := Except.ok.inj h
  refine bind_eq_ok_iff.mpr ⟨_, pageElements_rename hes, ?_⟩
  have hinOrder : t.preorder.filterMap ((es.map (·.rename r))[·]?) =
      (t.preorder.filterMap (es[·]?)).map (·.rename r) := by
    rw [List.map_filterMap]
    simp only [List.getElem?_map]
  simp only [preorder_rename, hinOrder, markup_rename, stylesheet_rename, Code.rename, List.map_map]
  rfl

/--
**Nothing but names.** If other identifiers ascend as the old ones do, and other orders rank the
children of each parent as the old ones do, then renamed components are emitted as well, on whatever
page. Markup and stylesheet are the same texts, and the same classes go to the renamed components.
-/
theorem emit_of_rename {cs : List Component} {t : PageTree} {s : Settings} {code : Code}
    (hb : PageTree.build cs = .ok t) (he : t.emit s = .ok code) (hr : r.Keeps cs) :
    ∃ renamed, PageTree.build (cs.map (·.rename r)) = .ok renamed ∧
      renamed.emit s = .ok
        { markup := code.markup
          stylesheet := code.stylesheet
          classes := code.classes.map fun p => (r.id p.1, p.2) } :=
  ⟨t.rename r, build_rename hr hb, PageTree.emit_rename he⟩

/-- Two cards with one name and one order, so that their identifiers decide which is first, in a box
whose identifier is greater than theirs. -/
def twinPage : List Component :=
  [{ id := ⟨9⟩, kind := "box", name := "Deck" },
    { id := ⟨4⟩, parentId := some ⟨9⟩, kind := "box", name := "Card", order := 5 },
    { id := ⟨2⟩, parentId := some ⟨9⟩, kind := "text", name := "Card", order := 5,
      appearance := [("text", .string "first")] }]

def twinTree : PageTree where
  nodes :=
    [{ component :=
        { id := ⟨2⟩, parentId := some ⟨9⟩, kind := "text", name := "Card", order := 5,
          appearance := [("text", .string "first")] },
       parent := some 2, children := [], depth := 1 },
      { component :=
        { id := ⟨4⟩, parentId := some ⟨9⟩, kind := "box", name := "Card", order := 5 },
        parent := some 2, children := [], depth := 1 },
      { component := { id := ⟨9⟩, kind := "box", name := "Deck" },
        parent := none, children := [0, 1], depth := 0 }]
  root := 2
  pageId := none

/-- Other identifiers and a page, and orders of which one is negative. -/
def twinRenaming : Renaming where
  id c := ⟨100 * c.value + 1⟩
  page := some ⟨7⟩
  order c := if c.kind = "text" then -3 else 0

theorem twinRenaming_keeps : twinRenaming.Keeps twinPage where
  ascending := by decide
  paintOrder := by decide

theorem twinPage_emit_of_rename :
    ∃ t s code, PageTree.build twinPage = .ok t ∧ t.emit s = .ok code ∧
      twinRenaming.Keeps twinPage ∧
      ∃ renamed, PageTree.build (twinPage.map (·.rename twinRenaming)) = .ok renamed ∧
        renamed.emit s = .ok
          { markup := code.markup
            stylesheet := code.stylesheet
            classes := code.classes.map fun p => (twinRenaming.id p.1, p.2) } := by
  have hb : PageTree.build twinPage = .ok twinTree := by cbv
  obtain ⟨code, hcode⟩ := PageTree.exists_emit_of_all (t := twinTree) (by decide +kernel)
    { dialect := .jsx, classPrefix := some "x" }
  exact ⟨twinTree, _, code, hb, hcode, twinRenaming_keeps,
    emit_of_rename hb hcode twinRenaming_keeps⟩

end DesignCompiler
