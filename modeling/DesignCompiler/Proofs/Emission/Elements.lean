import DesignCompiler.Emission.Code
import DesignCompiler.Proofs.ClassName.Allocation
import DesignCompiler.Proofs.Tree.Unfolding

/-!
# DesignCompiler — the page elements of a tree

Emission gives every node its page element before it writes anything. So all that is written for a
page is written along one forest: the shape of the tree, each slot with its page element.

* `PageElement.Describes` — a page element says what the component of a slot says;
* `elementsOfSlots_eq_ok` — the page elements that a list of slots gets, and their classes;
* `outcome_emit` — a tree is emitted as its components are lowered in pre-order;
* `PageTree.Lists` — a forest of slots and page elements that is the tree;
* `exists_lists_of_pageElements`, `exists_lists` — what is emitted is written along such a forest.
-/

namespace DesignCompiler

open ClassName

/-- The page element of a slot: what its component lowers to, its place in the tree, and a class. -/
structure PageElement.Describes (e : PageElement) (root slot : Nat) (n : Node) : Prop where
  id : e.id = n.component.id
  lowered : n.component.lower = .ok (e.element, e.geometry)
  isRoot : e.isRoot = (slot == root)
  hasChildren : e.hasChildren = !n.children.isEmpty
  className : isClassName e.className

/-! ## One slot after the other -/

theorem PageElement.ofNode_eq_ok {root slot : Nat} {n : Node} {names names' : Allocator}
    {e : PageElement} (h : PageElement.ofNode root slot n names = .ok (e, names')) :
    e.Describes root slot n ∧ e.className ∉ names.taken ∧
      names'.taken = e.className :: names.taken := by
  rw [PageElement.ofNode] at h
  obtain ⟨⟨element, geometry⟩, hlower, h⟩ := bind_eq_ok_iff.mp h
  obtain ⟨rfl, rfl⟩ := Prod.mk.inj (Except.ok.inj h)
  refine ⟨⟨rfl, hlower, rfl, rfl, ?_⟩, ?_, rfl⟩
  · exact allocate_isClassName names _ _
  · exact allocate_notMem names _ _

namespace PageTree

variable {t : PageTree}

/-- Every slot gets its page element, and a class that nothing before it has. -/
theorem elementsOfSlots_eq_ok {slots : List Nat} (hslots : ∀ slot ∈ slots, slot < t.size)
    {names : Allocator} {ps : List (Nat × PageElement)}
    (h : t.elementsOfSlots slots names = .ok ps) :
    ps.map Prod.fst = slots ∧
      (∀ p ∈ ps, ∃ n, t.nodes[p.1]? = some n ∧ p.2.Describes t.root p.1 n) ∧
      (ps.map (·.2.className)).Nodup ∧ ∀ p ∈ ps, p.2.className ∉ names.taken := by
  induction slots generalizing names ps with
  | nil =>
    obtain rfl := Except.ok.inj h
    simp
  | cons slot slots ih =>
    have hn := List.getElem?_eq_getElem (hslots slot (List.mem_cons_self ..))
    simp only [elementsOfSlots, hn] at h
    obtain ⟨⟨e, names'⟩, he, h⟩ := bind_eq_ok_iff.mp h
    obtain ⟨rest, hrest, h⟩ := bind_eq_ok_iff.mp h
    obtain rfl := Except.ok.inj h
    obtain ⟨hdescribes, hfresh, htaken⟩ := PageElement.ofNode_eq_ok he
    obtain ⟨hfst, hall, hnodup, hapart⟩ :=
      ih (fun s hs => hslots s (List.mem_cons_of_mem _ hs)) hrest
    rw [htaken] at hapart
    refine ⟨by rw [List.map_cons, hfst], ?_, ?_, ?_⟩
    · -- each describes its slot
      exact List.forall_mem_cons.mpr ⟨⟨_, hn, hdescribes⟩, hall⟩
    · -- the class of `e` is taken when the others get theirs
      rw [List.map_cons, List.nodup_cons, List.mem_map]
      refine ⟨?_, hnodup⟩
      rintro ⟨p, hp, heq⟩
      exact hapart p hp (heq ▸ List.mem_cons_self ..)
    · exact List.forall_mem_cons.mpr
        ⟨hfresh, fun p hp hmem => hapart p hp (List.mem_cons_of_mem _ hmem)⟩

/-- Slots get their page elements as the components there are lowered, one after the other. Which
classes are handed out makes no difference. -/
theorem outcome_elementsOfSlots (slots : List Nat) (names : Allocator) :
    outcome (t.elementsOfSlots slots names) =
      forM (slots.filterMap (t.nodes[·]?)) fun n => outcome n.component.lower := by
  induction slots generalizing names with
  | nil => rfl
  | cons slot slots ih =>
    cases hn : t.nodes[slot]? with
    | none =>
      rw [List.filterMap_cons_none hn, ← ih names]
      simp only [elementsOfSlots, hn]
    | some n =>
      rw [List.filterMap_cons_some hn, List.forM_cons]
      simp only [elementsOfSlots, hn, PageElement.ofNode]
      cases n.component.lower with
      | error r => rfl
      | ok x =>
        -- the names that have been allocated do not change the outcome
        have hrest := ih (names.allocate n.component.name x.1.kind.name).2
        exact (outcome_bind_pure _ _).trans hrest

/-- A tree is emitted as the components of its nodes are lowered in pre-order. -/
theorem outcome_emit (t : PageTree) (s : Settings) :
    outcome (t.emit s) = forM t.preorderNodes fun n => outcome n.component.lower := by
  have hcode : outcome (t.emit s) = outcome (t.pageElements s.classPrefix) := outcome_bind_pure _ _
  have helements : outcome (t.pageElements s.classPrefix) =
      outcome (t.elementsInOrder s.classPrefix) := outcome_bind_pure _ _
  rw [hcode, helements]
  exact outcome_elementsOfSlots _ _

/-- A tree whose components have elements is emitted. -/
theorem exists_emit (h : ∀ n ∈ t.nodes, ∃ r, n.component.lower = .ok r) (s : Settings) :
    ∃ code, t.emit s = .ok code := by
  rw [← outcome_eq_ok_iff, outcome_emit, forM_eq_ok_iff]
  intro n hn
  obtain ⟨slot, -, hslot⟩ := List.mem_filterMap.mp hn
  exact outcome_eq_ok_iff.mpr (h n (List.mem_of_getElem? hslot))

/-- Whether all components have elements can be evaluated. -/
theorem exists_emit_of_all (h : (t.nodes.all fun n => n.component.lower.isOk) = true)
    (s : Settings) : ∃ code, t.emit s = .ok code := by
  refine exists_emit (fun n hn => ?_) s
  have hok := List.all_eq_true.mp h n hn
  cases hlower : n.component.lower with
  | ok r => exact ⟨r, rfl⟩
  | error e =>
    rw [hlower] at hok
    exact nomatch hok

end PageTree

/-! ## By slot -/

theorem map_some_filterMap {α β : Type} {f : α → Option β} {l : List α}
    (h : ∀ a ∈ l, (f a).isSome) : (l.filterMap f).map some = l.map f := by
  induction l with
  | nil => rfl
  | cons a l ih =>
    obtain ⟨b, hb⟩ := Option.isSome_iff_exists.mp (h a (List.mem_cons_self ..))
    rw [List.filterMap_cons_some hb, List.map_cons, List.map_cons, hb,
      ih fun x hx => h x (List.mem_cons_of_mem _ hx)]

/-- Pairs with different first components are found by them. -/
theorem lookup_eq_some {ps : List (Nat × PageElement)} (hnodup : (ps.map Prod.fst).Nodup)
    {p : Nat × PageElement} (hp : p ∈ ps) : ps.lookup p.1 = some p.2 := by
  induction ps with
  | nil => simp at hp
  | cons q ps ih =>
    obtain ⟨k, v⟩ := q
    rw [List.map_cons, List.nodup_cons] at hnodup
    rcases List.mem_cons.mp hp with rfl | hp
    · exact List.lookup_cons_self
    · have hne : p.1 ≠ k := fun heq => hnodup.1 (List.mem_map.mpr ⟨p, hp, heq⟩)
      rw [List.lookup_cons, beq_false_of_ne hne]
      exact ih hnodup.2 hp

/-- Pairs for all slots below `n` give a list with one entry for each slot, in the order of the
slots. -/
theorem bySlot_of_perm {ps : List (Nat × PageElement)} {n : Nat}
    (hperm : (ps.map Prod.fst).Perm (List.range n)) :
    ((List.range n).filterMap (ps.lookup ·)).length = n ∧
      ∀ p ∈ ps, ((List.range n).filterMap (ps.lookup ·))[p.1]? = some p.2 := by
  have hnodup : (ps.map Prod.fst).Nodup := hperm.nodup_iff.mpr List.nodup_range
  have hsome : ∀ slot ∈ List.range n, (ps.lookup slot).isSome := by
    intro slot hslot
    obtain ⟨q, hq, rfl⟩ := List.mem_map.mp (hperm.mem_iff.mpr hslot)
    rw [lookup_eq_some hnodup hq, Option.isSome_some]
  -- no slot goes without an entry, so none of them moves
  have hall := map_some_filterMap hsome
  constructor
  · have hlength := congrArg List.length hall
    rwa [List.length_map, List.length_map, List.length_range] at hlength
  · intro p hp
    have hlt : p.1 < n := List.mem_range.mp (hperm.mem_iff.mp (List.mem_map_of_mem hp))
    have hget := congrArg (·[p.1]?) hall
    simp only [List.getElem?_map, List.getElem?_range hlt, Option.map_some,
      lookup_eq_some hnodup hp] at hget
    obtain ⟨e, he, heq⟩ := Option.map_eq_some_iff.mp hget
    exact heq ▸ he

/-! ## Along a forest -/

/-- A forest of slots with their page elements, which has the shape of the tree. -/
structure PageTree.Lists (t : PageTree) (f : Forest (Nat × PageElement)) : Prop where
  unfolds : t.Unfolds (f.map Prod.fst)
  describes : ∀ p ∈ f.labels, ∃ n, t.nodes[p.1]? = some n ∧ p.2.Describes t.root p.1 n
  classes : (f.labels.map (·.2.className)).Nodup

/-- The page elements that the slots get in pre-order are the labels of a forest that is the tree. By
slot there is one for every slot, and it is the one that the slot has in the forest. -/
theorem exists_lists_of_pageElements {cs : List Component} {t : PageTree} {lead : Option String}
    {es : List PageElement} (hb : PageTree.build cs = .ok t) (he : t.pageElements lead = .ok es) :
    ∃ f, t.elementsInOrder lead = .ok f.labels ∧ t.Lists f ∧
      t.preorder = f.labels.map Prod.fst ∧ es.length = t.size ∧
      ∀ p ∈ f.labels, es[p.1]? = some p.2 := by
  obtain ⟨f, hunfolds, hpre⟩ := exists_unfolds hb
  obtain ⟨ps, hps, hlist⟩ := bind_eq_ok_iff.mp he
  obtain rfl := Except.ok.inj hlist
  -- every slot that is visited is one of the tree
  have hslots : ∀ slot ∈ t.preorder, slot < t.size := by
    intro slot hslot
    rw [hpre] at hslot
    exact hunfolds.mem_labels_iff.mp hslot
  obtain ⟨hfst, hdescribes, hnodup, -⟩ := PageTree.elementsOfSlots_eq_ok hslots hps
  -- the elements come in the order of the slots, so they are the labels of the same forest
  obtain ⟨g, hg, rfl⟩ := Forest.exists_labels_eq (hfst.trans hpre)
  obtain ⟨hlength, hget⟩ := bySlot_of_perm (hfst.trans hpre ▸ hunfolds.slots)
  exact ⟨g, hps, ⟨hg ▸ hunfolds, hdescribes, hnodup⟩, hfst.symm, hlength, hget⟩

/-- All that is emitted is written from the page elements of that forest. -/
theorem emit_of_pageElements {t : PageTree} {s : Settings} {es : List PageElement}
    {f : Forest (Nat × PageElement)} (he : t.pageElements s.classPrefix = .ok es)
    (hpre : t.preorder = f.labels.map Prod.fst) (hget : ∀ p ∈ f.labels, es[p.1]? = some p.2) :
    t.emit s = .ok
      { markup := t.markup s es
        stylesheet := DesignCompiler.stylesheet s.indent (f.labels.map Prod.snd)
        classes := f.labels.map fun p => (p.2.id, p.2.className) } := by
  -- in pre-order again, every page element is found
  have hinOrder : t.preorder.filterMap (es[·]?) = f.labels.map Prod.snd := by
    rw [hpre, List.filterMap_map, ← List.filterMap_eq_map]
    exact List.filterMap_congr hget
  simp only [PageTree.emit, he, bind, Except.bind, hinOrder, List.map_map]
  rfl

theorem exists_lists_inOrder {cs : List Component} {t : PageTree} {s : Settings} {code : Code}
    (hb : PageTree.build cs = .ok t) (he : t.emit s = .ok code) :
    ∃ f es, t.elementsInOrder s.classPrefix = .ok f.labels ∧ t.Lists f ∧
      (∀ p ∈ f.labels, es[p.1]? = some p.2) ∧
      code = { markup := t.markup s es
               stylesheet := DesignCompiler.stylesheet s.indent (f.labels.map Prod.snd)
               classes := f.labels.map fun p => (p.2.id, p.2.className) } := by
  obtain ⟨es, hes, -⟩ := bind_eq_ok_iff.mp he
  obtain ⟨f, hps, hlists, hpre, -, hget⟩ := exists_lists_of_pageElements hb hes
  have hcode := emit_of_pageElements hes hpre hget
  exact ⟨f, es, hps, hlists, hget, Except.ok.inj (he.symm.trans hcode)⟩

/--
**What is emitted.** Markup, stylesheet and classes are written from the page elements of a forest
that is the tree: the markup from the page elements by slot, the others in pre-order.
-/
theorem exists_lists {cs : List Component} {t : PageTree} {s : Settings} {code : Code}
    (hb : PageTree.build cs = .ok t) (he : t.emit s = .ok code) :
    ∃ f es, t.Lists f ∧ (∀ p ∈ f.labels, es[p.1]? = some p.2) ∧
      code = { markup := t.markup s es
               stylesheet := DesignCompiler.stylesheet s.indent (f.labels.map Prod.snd)
               classes := f.labels.map fun p => (p.2.id, p.2.className) } := by
  obtain ⟨f, es, -, hlists⟩ := exists_lists_inOrder hb he
  exact ⟨f, es, hlists⟩

/-- Every component of the list has one page element. -/
theorem PageTree.Lists.ids_perm {cs : List Component} {t : PageTree}
    {f : Forest (Nat × PageElement)} (h : t.Lists f) (hb : PageTree.build cs = .ok t) :
    (f.labels.map (·.2.id)).Perm (cs.map Component.id) := by
  let idAt (slot : Nat) : ComponentId := (t.nodes[slot]?.map (·.component.id)).getD default
  have hids : f.labels.map (·.2.id) = (f.labels.map Prod.fst).map idAt := by
    rw [List.map_map]
    refine List.map_congr_left fun p hp => ?_
    obtain ⟨n, hn, hd⟩ := h.describes p hp
    simp only [Function.comp_apply, idAt, hn, Option.map_some, Option.getD_some, hd.id]
  -- the nodes are the sorted components, slot for slot
  have hslots : (List.range t.size).map idAt = (sortById cs).map Component.id := by
    rw [← map_component_nodes hb, List.map_map]
    refine List.ext_getElem (by simp [PageTree.size]) fun slot hslot hslot' => ?_
    have hlt : slot < t.nodes.length := by simpa [PageTree.size] using hslot
    simp [idAt, List.getElem?_eq_getElem hlt]
  have hperm : (f.labels.map Prod.fst).Perm (List.range t.size) := by
    rw [← Forest.labels_map]
    exact h.unfolds.slots
  rw [hids]
  exact (hperm.map idAt).trans (hslots ▸ (sortById_perm cs).map Component.id)

end DesignCompiler
