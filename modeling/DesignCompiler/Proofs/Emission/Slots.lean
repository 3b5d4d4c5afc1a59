import DesignCompiler.Proofs.Markup.Keeping
import DesignCompiler.Proofs.Markup.Recursion
import DesignCompiler.Proofs.Stylesheet.Agreement

/-!
# DesignCompiler — page elements by slot

Page elements are made in pre-order and looked up by slot. There is one for every slot, so whatever
asks for the page element of a node gets that of this node. Whether an element stands above others is
decided in three places, by its tag, by its declarations and by the loop that writes it, and all
three come to the same result: a picture is shown once, by its tag or by its rule.

* `Markup.Steps` — the steps of the loop, which never leave the slots of the tree;
* `Markup.Entry.sources`, `Block.backdrops` — where the source of a picture can be read;
* `PageElement.ShowsPicture` — it is read in one place, which is the right one for its element;
* `PageTree.FillsSlots` — page elements that belong to the slots of a tree;
* `pageElements_fill` — those of a built tree do.
-/

namespace DesignCompiler

namespace Markup

/-! ## Slots that the loop visits -/

def Visit.slot : Visit → Nat
  | enter slot => slot
  | leave slot => slot

/-- A step of the loop, whatever it writes. -/
def Steps (s : Settings) (t : PageTree) (es : List PageElement) (before after : List Visit) : Prop :=
  ∃ text, next s t es before = some (text, after)

variable {s : Settings} {t : PageTree} {es : List PageElement}

/-- A visit leads to its own slot and to those of the children, and to no others. -/
theorem slot_of_mem_step {v w : Visit} (h : w ∈ (step s t es v).2) :
    w.slot = v.slot ∨ w.slot ∈ t.children v.slot := by
  cases v with
  | enter slot =>
    cases hn : t.nodes[slot]? with
    | none => simp [step, hn] at h
    | some n =>
      cases he : es[slot]? with
      | none => simp [step, hn, he] at h
      | some e =>
        by_cases hc : n.children = []
        · simp [step, hn, he, hc] at h
        · -- the children come next, and the end tag of the slot itself
          have hslot : t.children slot = n.children := by simp only [PageTree.children, hn]
          simp only [step, hn, he, List.isEmpty_eq_false_iff.mpr hc, Bool.false_eq_true, if_false,
            List.mem_append, List.mem_singleton] at h
          rcases h with h | rfl
          · obtain ⟨child, hchild, rfl⟩ := List.mem_map.mp h
            exact Or.inr (hslot ▸ hchild)
          · exact Or.inl rfl
  | leave slot =>
    simp only [step] at h
    split at h <;> exact absurd h List.not_mem_nil

theorem Steps.slot_lt (hchildren : ∀ slot < t.size, ∀ child ∈ t.children slot, child < t.size)
    {before after : List Visit} (h : Steps s t es before after)
    (hbefore : ∀ v ∈ before, v.slot < t.size) : ∀ v ∈ after, v.slot < t.size := by
  obtain ⟨text, hnext⟩ := h
  cases before with
  | nil => exact nomatch hnext
  | cons v rest =>
    obtain ⟨-, rfl⟩ := Prod.mk.inj (Option.some.inj hnext)
    obtain ⟨hv, hrest⟩ := List.forall_mem_cons.mp hbefore
    refine List.forall_mem_append.mpr ⟨fun w hw => ?_, hrest⟩
    rcases slot_of_mem_step hw with heq | hchild
    · exact heq ▸ hv
    · exact hchildren _ hv _ hchild

/-- However far the loop has come, it never waits for a slot that is none of the tree. -/
theorem slot_lt_of_reaches
    (hchildren : ∀ slot < t.size, ∀ child ∈ t.children slot, child < t.size)
    {before after : List Visit} (h : Relation.ReflTransGen (Steps s t es) before after)
    (hbefore : ∀ v ∈ before, v.slot < t.size) : ∀ v ∈ after, v.slot < t.size := by
  induction h with
  | refl => exact hbefore
  | tail _ hstep ih => exact hstep.slot_lt hchildren ih

/-- The loop decides by the list of children what it writes, and the page element knows it too. -/
theorem step_enter {slot : Nat} {n : Node} {e : PageElement} (hn : t.nodes[slot]? = some n)
    (he : es[slot]? = some e) (hchildren : e.hasChildren = !n.children.isEmpty) :
    step s t es (.enter slot) =
      if e.hasChildren then (opening s n.depth e, n.children.map .enter ++ [.leave slot])
      else (line s.indent n.depth (leaf s.dialect e), []) := by
  simp only [step, hn, he, hchildren]
  cases n.children.isEmpty <;> rfl

/-! ## Where pictures are shown -/

/-- The sources that a tag names. -/
def Entry.sources (x : Entry) : List String :=
  x.attributes.filterMap fun a => if a.1 = "src" then a.2 else none

end Markup

/-- The background images that a rule names. -/
def Block.backdrops (b : Block) : List String :=
  b.declarations.filterMap fun d => if d.property = "background-image" then some d.value else none

namespace Stylesheet

theorem filterMap_declare {β : Type} (g : Declaration → Option β) (property : String)
    (o : Option String) :
    (declare property o).filterMap g = (o.bind fun value => g ⟨property, value⟩).toList := by
  cases o with
  | none => rfl
  | some value => cases h : g ⟨property, value⟩ <;> simp [declare, h]

end Stylesheet

open Markup Stylesheet

namespace PageElement

variable (e : PageElement)

theorem sources_entry (d : Dialect) :
    (e.entry d).sources = (e.inset?.map Picture.source).toList := by
  have hclass : d.classAttribute ≠ "src" := by
    cases d <;> decide
  -- the class comes first and is no source
  have hown : (e.entry d).sources =
      e.ownAttributes.filterMap fun a => if a.1 = "src" then a.2 else none := by
    rw [e.entry_eq]
    exact List.filterMap_cons_none (if_neg hclass)
  rw [hown, inset?, ownAttributes]
  cases e.element with
  | container style => rfl
  | text block => rfl
  | image p =>
    cases e.hasChildren with
    | true => cases halt : p.alt <;> simp [Element.picture?, halt]
    | false => rfl
  | button b =>
    cases hhref : b.href <;> cases hdisabled : b.disabled <;>
      simp [Element.picture?, hhref, hdisabled]

theorem backdrops_block : e.block.backdrops =
    (e.backdrop?.map fun p => "url(" ++ quote p.source ++ ")").toList := by
  rw [Block.backdrops, block, declarations_eq, declared, List.filterMap_flatMap]
  simp only [filterMap_declare, properties, List.flatMap_cons, List.flatMap_nil]
  -- all rows but one are of other properties
  simp

/-- The source of a picture is read in one place. -/
structure ShowsPicture (e : PageElement) (d : Dialect) : Prop where
  /-- A picture without children is a tag of its own. -/
  inset : ∀ p, e.element = .image p → e.hasChildren = false →
    (e.entry d).tag = "img" ∧ (e.entry d).sources = [p.source] ∧ e.block.backdrops = []
  /-- A picture with children is the background of a box. -/
  backdrop : ∀ p, e.element = .image p → e.hasChildren = true →
    (e.entry d).tag = "div" ∧ (e.entry d).sources = [] ∧
      e.block.backdrops = ["url(" ++ quote p.source ++ ")"]
  other : (∀ p, e.element ≠ .image p) →
    (e.entry d).tag ≠ "img" ∧ (e.entry d).sources = [] ∧ e.block.backdrops = []

theorem tag_ne_img_of_other (hne : ∀ p, e.element ≠ .image p) : e.tag ≠ "img" := by
  unfold tag
  split
  · decide
  · split <;> decide
  · rename_i p hp
    exact absurd hp (hne p)
  · split <;> decide

theorem showsPicture (d : Dialect) : e.ShowsPicture d := by
  constructor
  · -- without children the picture is a tag
    intro p hp hc
    obtain ⟨hbackdrop, hinset⟩ := inset_of_leaf hp hc
    refine ⟨by simp [tag, hp, hc], ?_, ?_⟩
    · rw [sources_entry, hinset]
      rfl
    · rw [backdrops_block, hbackdrop]
      rfl
  · -- with children it is a background
    intro p hp hc
    obtain ⟨hbackdrop, hinset⟩ := backdrop_of_hasChildren hp hc
    refine ⟨by simp [tag, hp, hc], ?_, ?_⟩
    · rw [sources_entry, hinset]
      rfl
    · rw [backdrops_block, hbackdrop]
      rfl
  · intro hne
    -- all other elements have no picture
    obtain ⟨hbackdrop, hinset⟩ := no_picture hne
    refine ⟨by simpa using e.tag_ne_img_of_other hne, ?_, ?_⟩
    · rw [sources_entry, hinset]
      rfl
    · rw [backdrops_block, hbackdrop]
      rfl

end PageElement

/-! ## Page elements of a tree -/

namespace PageTree

variable {cs : List Component} {t : PageTree} {f : Forest (Nat × PageElement)}

theorem Lists.exists_mem_labels (h : t.Lists f) {slot : Nat} (hslot : slot < t.size) :
    ∃ e, (slot, e) ∈ f.labels := by
  have hmem : slot ∈ (f.map Prod.fst).labels :=
    h.unfolds.mem_labels_iff.mpr hslot
  rw [Forest.labels_map, List.mem_map] at hmem
  obtain ⟨⟨_, e⟩, he, rfl⟩ := hmem
  exact ⟨e, he⟩

/-- The page element that is looked up for a node describes this node. -/
theorem Lists.exists_describes {es : List PageElement} (h : t.Lists f)
    (hes : ∀ p ∈ f.labels, es[p.1]? = some p.2) {slot : Nat} {n : Node}
    (hn : t.nodes[slot]? = some n) : ∃ e, es[slot]? = some e ∧ e.Describes t.root slot n := by
  obtain ⟨e, hmem⟩ := h.exists_mem_labels (List.getElem?_eq_some_iff.mp hn).1
  obtain ⟨m, hm, hd⟩ := h.describes _ hmem
  obtain rfl : n = m := Option.some.inj (hn.symm.trans hm)
  exact ⟨e, hes _ hmem, hd⟩

/-- The children of a slot are slots of the tree. -/
theorem Unfolds.child_lt {g : Forest Nat} (h : t.Unfolds g) {slot child : Nat}
    (hslot : slot < t.size) (hchild : child ∈ t.children slot) : child < t.size :=
  h.mem_labels_iff.mp (h.fits.mem_labels (h.mem_labels_iff.mpr hslot) hchild)

theorem Unfolds.root_lt {g : Forest Nat} (h : t.Unfolds g) : t.root < t.size :=
  h.mem_labels_iff.mp (Forest.mem_labels_of_mem_tops (h.tops ▸ List.mem_singleton_self _))

/-- Page elements that belong to the slots of a tree, and what is written from them. -/
structure FillsSlots (t : PageTree) (s : Settings) (es : List PageElement) : Prop where
  length : es.length = t.size
  /-- The page element of a slot is that of the node there. -/
  entry : ∀ (slot : Nat) (n : Node), t.nodes[slot]? = some n → ∃ e, es[slot]? = some e ∧
    e.id = n.component.id ∧ (e.isRoot = true ↔ slot = t.root) ∧
    (e.hasChildren = true ↔ n.children ≠ [])
  /-- All look-ups in pre-order find a page element. -/
  preorder : ∀ slot ∈ t.preorder, slot < es.length
  /-- So do all look-ups of the loop, whatever it has written before. -/
  visited : ∀ visits, Relation.ReflTransGen (Steps s t es) [.enter t.root] visits →
    ∀ v ∈ visits, v.slot < es.length
  /-- The loop writes an element with others inside it exactly if the page element says so. -/
  decided : ∀ (slot : Nat) (n : Node) (e : PageElement), t.nodes[slot]? = some n →
    es[slot]? = some e → step s t es (.enter slot) =
      if e.hasChildren then (opening s n.depth e, n.children.map .enter ++ [.leave slot])
      else (line s.indent n.depth (leaf s.dialect e), [])
  /-- In the code that is emitted, the source of each picture can be read in one place. -/
  shown : ∃ code f, t.emit s = .ok code ∧ t.Lists f ∧ (∀ p ∈ f.labels, es[p.1]? = some p.2) ∧
    Markup.read s.dialect s.indent code.markup.toList =
      some (f.map fun p => p.2.entry s.dialect) ∧
    Stylesheet.read code.stylesheet.toList = some (f.labels.map (·.2.block)) ∧
    (∀ p ∈ f.labels, p.2.ShowsPicture s.dialect) ∧
    ∀ x ∈ (f.map fun p => p.2.entry s.dialect).links, x.1.tag ≠ "img"

end PageTree

open PageTree in
/--
**Page elements are where they are looked up.** A built tree has one page element for each slot, the
one of the node there, and nothing else is looked up by what writes the code. The tag, the
declarations and the loop agree on which elements stand above others: a picture is read back once, as
the source of a tag with nothing inside if it has no children, and else as the background of its rule.
-/
theorem pageElements_fill {cs : List Component} {t : PageTree} {s : Settings}
    {es : List PageElement} (hb : build cs = .ok t)
    (he : t.pageElements s.classPrefix = .ok es) : t.FillsSlots s es := by
  obtain ⟨f, -, hlists, hpre, hlength, hes⟩ := exists_lists_of_pageElements hb he
  have hchildren : ∀ slot < t.size, ∀ child ∈ t.children slot, child < t.size :=
    fun _ hslot _ hchild => hlists.unfolds.child_lt hslot hchild
  constructor
  case length => exact hlength
  case entry =>
    intro slot n hn
    obtain ⟨e, hget, hd⟩ := hlists.exists_describes hes hn
    refine ⟨e, hget, hd.id, ?_, ?_⟩
    · rw [hd.isRoot, beq_iff_eq]
    · rw [hd.hasChildren, Bool.not_eq_true', List.isEmpty_eq_false_iff]
  case preorder =>
    intro slot hslot
    rw [hpre, ← Forest.labels_map] at hslot
    exact hlength ▸ hlists.unfolds.mem_labels_iff.mp hslot
  -- the loop starts at the root and goes to children only
  case visited =>
    intro visits hreaches
    rw [hlength]
    exact slot_lt_of_reaches hchildren hreaches
      (by simpa [Visit.slot] using hlists.unfolds.root_lt)
  case decided =>
    intro slot n e hn hget
    obtain ⟨e', hget', hd⟩ := hlists.exists_describes hes hn
    obtain rfl : e = e' := Option.some.inj (hget.symm.trans hget')
    exact step_enter hn hget hd.hasChildren
  case shown =>
    refine ⟨_, f, emit_of_pageElements he hpre hes, hlists, hes, ?_, hlists.read_stylesheet s.indent,
      fun p _ => p.2.showsPicture s.dialect, fun x hx => (hlists.leaves s.dialect x hx).2⟩
    simp only [markup_eq_rendering hlists hes, String.toList_ofList]
    exact (read_rendering hlists s).1

theorem galleryPage_fills :
    ∃ t es, PageTree.build galleryPage = .ok t ∧ t.pageElements none = .ok es ∧
      t.FillsSlots {} es := by
  obtain ⟨code, hcode⟩ := PageTree.exists_emit_of_all (t := galleryTree) (by decide +kernel) {}
  obtain ⟨es, hes, -⟩ := bind_eq_ok_iff.mp hcode
  exact ⟨galleryTree, es, build_galleryPage, hes, pageElements_fill build_galleryPage hes⟩

end DesignCompiler
