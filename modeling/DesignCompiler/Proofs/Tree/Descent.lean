import DesignCompiler.Proofs.Emission.Elements
import Mathlib.Logic.Relation

/-!
# DesignCompiler — what stands below what

A component stands below another if the chain of its parents leads there. In a forest these are the
pairs of a label and one of those below it, so a property of such pairs can be read off the components
themselves.

* `StandsBelow` — the relation on components;
* `Forest.links`, `Forest.descents` — the pairs of a forest: with the next level, with all levels;
* `Forest.Fits.mem_descents_iff` — the pairs of a fitting forest are the chains of children;
* `PageTree.Lists.descent_iff` — they are the pairs of components of which one stands below the other.
-/

namespace DesignCompiler

/-- The chain of parents leads from a component to another one. -/
def StandsBelow (cs : List Component) : Component → Component → Prop :=
  Relation.TransGen fun c p => c ∈ cs ∧ p ∈ cs ∧ c.parentId = some p.id

/-! ## Pairs in a forest -/

namespace Forest

variable {α β : Type}

/-- Every label with each of those directly below it. -/
def links : Forest α → List (α × α)
  | nil => []
  | cons a below rest => below.tops.map (a, ·) ++ below.links ++ rest.links

/-- Every label with each of those below it, at any depth. -/
def descents : Forest α → List (α × α)
  | nil => []
  | cons a below rest => below.labels.map (a, ·) ++ below.descents ++ rest.descents

theorem tops_map (f : α → β) (t : Forest α) : (t.map f).tops = t.tops.map f := by
  induction t with
  | nil => rfl
  | cons a below rest _ ihr => rw [map, tops, ihr, tops, List.map_cons]

theorem links_map (f : α → β) (t : Forest α) :
    (t.map f).links = t.links.map (Prod.map f f) := by
  induction t with
  | nil => rfl
  | cons a below rest ihb ihr => simp [map, links, tops_map, ihb, ihr]

theorem descents_map (f : α → β) (t : Forest α) :
    (t.map f).descents = t.descents.map (Prod.map f f) := by
  induction t with
  | nil => rfl
  | cons a below rest ihb ihr => simp [map, descents, ihb, ihr]

theorem mem_labels_of_mem_descents {t : Forest α} {x : α × α} (h : x ∈ t.descents) :
    x.1 ∈ t.labels ∧ x.2 ∈ t.labels := by
  induction t with
  | nil => exact nomatch h
  | cons a below rest ihb ihr =>
    simp only [descents, labels, List.mem_append, List.mem_map, List.mem_cons] at h ⊢
    rcases h with (⟨b, hb, rfl⟩ | hb) | hr
    · exact ⟨Or.inl rfl, Or.inr (Or.inl hb)⟩
    · exact ⟨Or.inr (Or.inl (ihb hb).1), Or.inr (Or.inl (ihb hb).2)⟩
    · exact ⟨Or.inr (Or.inr (ihr hr).1), Or.inr (Or.inr (ihr hr).2)⟩

/-! ## Fitting forests -/

variable {children : Nat → List Nat} {t : Forest Nat}

/-- Every slot of a fitting forest is a top or comes down from one. -/
theorem Fits.exists_top (h : t.Fits children) {slot : Nat} (hs : slot ∈ t.labels) :
    ∃ top ∈ t.tops, Relation.ReflTransGen (fun i j => j ∈ children i) top slot := by
  induction t with
  | nil => exact nomatch hs
  | cons a below rest ihb ihr =>
    obtain ⟨htops, hb, hr⟩ := h
    simp only [labels, List.mem_cons, List.mem_append] at hs
    rcases hs with rfl | hs | hs
    · exact ⟨slot, List.mem_cons_self .., .refl⟩
    · -- from a top below, one more step leads up
      obtain ⟨top, htop, hdown⟩ := ihb hb hs
      exact ⟨a, List.mem_cons_self .., .head (htops ▸ htop) hdown⟩
    · obtain ⟨top, htop, hdown⟩ := ihr hr hs
      exact ⟨top, List.mem_cons_of_mem _ htop, hdown⟩

/-- A child is one level below. -/
theorem Fits.child_mem_descents (h : t.Fits children) {slot child : Nat} (hs : slot ∈ t.labels)
    (hc : child ∈ children slot) : (slot, child) ∈ t.descents := by
  induction t with
  | nil => exact nomatch hs
  | cons a below rest ihb ihr =>
    obtain ⟨htops, hb, hr⟩ := h
    simp only [labels, descents, List.mem_cons, List.mem_append, List.mem_map] at hs ⊢
    rcases hs with rfl | hs | hs
    · exact Or.inl (Or.inl ⟨child, mem_labels_of_mem_tops (htops ▸ hc), rfl⟩)
    · exact Or.inl (Or.inr (ihb hb hs))
    · exact Or.inr (ihr hr hs)

/-- A child of something below is below too. -/
theorem Fits.descents_child (h : t.Fits children) {slot lower child : Nat}
    (hs : (slot, lower) ∈ t.descents) (hc : child ∈ children lower) :
    (slot, child) ∈ t.descents := by
  induction t with
  | nil => exact nomatch hs
  | cons a below rest ihb ihr =>
    obtain ⟨htops, hb, hr⟩ := h
    simp only [descents, List.mem_append, List.mem_map] at hs ⊢
    rcases hs with (⟨b, hlower, heq⟩ | hs) | hs
    · obtain ⟨rfl, rfl⟩ := Prod.mk.inj heq
      exact Or.inl (Or.inl ⟨child, hb.mem_labels hlower hc, rfl⟩)
    · exact Or.inl (Or.inr (ihb hb hs))
    · exact Or.inr (ihr hr hs)

/-- Below a slot of a fitting forest stands what chains of children lead to. -/
theorem Fits.mem_descents_iff (h : t.Fits children) {slot lower : Nat} (hs : slot ∈ t.labels) :
    (slot, lower) ∈ t.descents ↔ Relation.TransGen (fun i j => j ∈ children i) slot lower := by
  constructor
  · intro hmem
    induction t with
    | nil => exact nomatch hmem
    | cons a below rest ihb ihr =>
      obtain ⟨htops, hb, hr⟩ := h
      simp only [descents, List.mem_append, List.mem_map] at hmem
      rcases hmem with (⟨b, hlower, heq⟩ | hmem) | hmem
      · -- the first step goes to a child, which is a top of what is below
        obtain ⟨rfl, rfl⟩ := Prod.mk.inj heq
        obtain ⟨top, htop, hdown⟩ := hb.exists_top hlower
        exact .head' (htops ▸ htop) hdown
      · exact ihb hb (mem_labels_of_mem_descents hmem).1 hmem
      · exact ihr hr (mem_labels_of_mem_descents hmem).1 hmem
  · intro hdown
    induction hdown with
    | single hc => exact h.child_mem_descents hs hc
    | tail _ hc ih => exact h.descents_child ih hc

end Forest

/-! ## Components -/

namespace PageTree

variable {cs : List Component} {t : PageTree}

/-- The slots of a built tree are linked as child as the components are linked as parent. -/
theorem mem_children_iff (h : build cs = .ok t) {i j : Nat} {p c : Node}
    (hp : t.nodes[i]? = some p) (hc : t.nodes[j]? = some c) :
    j ∈ t.children i ↔ c.component.parentId = some p.component.id := by
  obtain ⟨-, ht, -⟩ := build_eq_arena h
  rw [children, hp]
  simp only
  rw [DesignCompiler.mem_children_iff ht hp]
  constructor
  · rintro ⟨c', hc', hparent⟩
    obtain rfl : c = c' := Option.some.inj (hc.symm.trans hc')
    exact hparent
  · exact fun hparent => ⟨c, hc, hparent⟩

theorem component_mem (h : build cs = .ok t) {i : Nat} {n : Node} (hn : t.nodes[i]? = some n) :
    n.component ∈ cs := by
  rw [← mem_sortById, ← map_component_nodes h]
  exact List.mem_map_of_mem (List.mem_of_getElem? hn)

theorem exists_slot (h : build cs = .ok t) {c : Component} (hc : c ∈ cs) :
    ∃ (i : Nat) (n : Node), t.nodes[i]? = some n ∧ n.component = c := by
  rw [← mem_sortById, ← map_component_nodes h] at hc
  obtain ⟨n, hn, hcomponent⟩ := List.mem_map.mp hc
  obtain ⟨i, hi⟩ := List.mem_iff_getElem?.mp hn
  exact ⟨i, n, hi, hcomponent⟩

/-- What stands below a slot is what stands below its component. -/
theorem standsBelow_of_children (h : build cs = .ok t) {i j : Nat} {p c : Node}
    (hp : t.nodes[i]? = some p) (hc : t.nodes[j]? = some c)
    (hdown : Relation.TransGen (fun i j => j ∈ t.children i) i j) :
    StandsBelow cs c.component p.component := by
  induction hdown generalizing c with
  | single hchild =>
    exact .single ⟨component_mem h hc, component_mem h hp, (mem_children_iff h hp hc).mp hchild⟩
  | @tail k j _ hchild ih =>
    -- the slot before the last one has a node, because it has children
    obtain ⟨m, hm⟩ : ∃ m, t.nodes[k]? = some m := by
      cases hk : t.nodes[k]? with
      | some m => exact ⟨m, rfl⟩
      | none =>
        rw [PageTree.children, hk] at hchild
        cases hchild
    exact .head ⟨component_mem h hc, component_mem h hm, (mem_children_iff h hm hc).mp hchild⟩ (ih hm)

/-- The components of a chain of parents have slots, which are a chain of children. -/
theorem children_of_standsBelow (h : build cs = .ok t) {c p : Component}
    (hbelow : StandsBelow cs c p) {j : Nat} {n : Node} (hn : t.nodes[j]? = some n)
    (hcomponent : n.component = c) :
    ∃ (i : Nat) (m : Node), t.nodes[i]? = some m ∧ m.component = p ∧
      Relation.TransGen (fun i j => j ∈ t.children i) i j := by
  induction hbelow with
  | single hlink =>
    obtain ⟨-, hp, hparent⟩ := hlink
    obtain ⟨i, m, hm, rfl⟩ := exists_slot h hp
    exact ⟨i, m, hm, rfl, .single ((mem_children_iff h hm hn).mpr (hcomponent ▸ hparent))⟩
  | tail _ hlink ih =>
    obtain ⟨-, hp, hparent⟩ := hlink
    obtain ⟨k, l, hl, rfl, hdown⟩ := ih
    obtain ⟨i, m, hm, rfl⟩ := exists_slot h hp
    exact ⟨i, m, hm, rfl, .head ((mem_children_iff h hm hl).mpr hparent) hdown⟩

namespace Lists

variable {f : Forest (Nat × PageElement)}

/-- Of two elements of which one is inside the other, the components stand below each other. -/
theorem standsBelow_of_descents (h : t.Lists f) (hb : build cs = .ok t)
    {x y : Nat × PageElement} (hxy : (x, y) ∈ f.descents) {p c : Node}
    (hp : t.nodes[x.1]? = some p) (hc : t.nodes[y.1]? = some c) :
    StandsBelow cs c.component p.component := by
  have hdown : (x.1, y.1) ∈ (f.map Prod.fst).descents := by
    rw [Forest.descents_map]
    exact List.mem_map_of_mem hxy
  have hlabel : x.1 ∈ (f.map Prod.fst).labels := by
    rw [Forest.labels_map]
    exact List.mem_map_of_mem (Forest.mem_labels_of_mem_descents hxy).1
  rw [h.unfolds.fits.mem_descents_iff hlabel] at hdown
  exact standsBelow_of_children hb hp hc hdown

/-- Of two components of which one stands below the other, the element of one is inside the other's. -/
theorem descents_of_standsBelow (h : t.Lists f) (hb : build cs = .ok t) {c p : Component}
    (hbelow : StandsBelow cs c p) : ∃ x y, ∃ m n : Node, (x, y) ∈ f.descents ∧
      t.nodes[x.1]? = some m ∧ m.component = p ∧ t.nodes[y.1]? = some n ∧ n.component = c := by
  have hmem : c ∈ cs := by
    obtain ⟨_, hlink, -⟩ := Relation.TransGen.head'_iff.mp hbelow
    exact hlink.1
  obtain ⟨j, n, hn, hnc⟩ := exists_slot hb hmem
  obtain ⟨i, m, hm, hmp, hdown⟩ := children_of_standsBelow hb hbelow hn hnc
  -- every slot of the tree is one of the forest
  have hi : i ∈ (f.map Prod.fst).labels :=
    h.unfolds.mem_labels_iff.mpr (List.getElem?_eq_some_iff.mp hm).1
  rw [← h.unfolds.fits.mem_descents_iff hi, Forest.descents_map] at hdown
  obtain ⟨⟨x, y⟩, hxy, heq⟩ := List.mem_map.mp hdown
  obtain ⟨rfl, rfl⟩ := Prod.mk.inj heq
  exact ⟨x, y, m, n, hxy, hm, hmp, hn, hnc⟩

/-- In the forest of a built tree an element with one property stands over one with another if a
component stands below another one, where the properties of elements come from their components. -/
theorem descent_iff (h : t.Lists f) (hb : build cs = .ok t)
    {q : PageElement → Prop} {r : Component → Prop}
    (hqr : ∀ x ∈ f.labels, ∀ n, t.nodes[x.1]? = some n → (q x.2 ↔ r n.component)) :
    (∃ x ∈ (f.map Prod.snd).descents, q x.1 ∧ q x.2) ↔
      ∃ c p, StandsBelow cs c p ∧ r p ∧ r c := by
  -- The pairs of the forest and those of the components are the same.
  rw [Forest.descents_map]
  constructor
  · rintro ⟨_, hx, hq⟩
    obtain ⟨⟨x, y⟩, hxy, rfl⟩ := List.mem_map.mp hx
    obtain ⟨hxmem, hymem⟩ := Forest.mem_labels_of_mem_descents hxy
    obtain ⟨p, hp, -⟩ := h.describes x hxmem
    obtain ⟨c, hc, -⟩ := h.describes y hymem
    exact ⟨c.component, p.component, h.standsBelow_of_descents hb hxy hp hc,
      (hqr x hxmem p hp).mp hq.1, (hqr y hymem c hc).mp hq.2⟩
  · rintro ⟨c, p, hbelow, hrp, hrc⟩
    obtain ⟨x, y, m, n, hxy, hm, rfl, hn, rfl⟩ := h.descents_of_standsBelow hb hbelow
    obtain ⟨hxmem, hymem⟩ := Forest.mem_labels_of_mem_descents hxy
    exact ⟨_, List.mem_map_of_mem hxy, (hqr x hxmem m hm).mpr hrp, (hqr y hymem n hn).mpr hrc⟩

end Lists

end PageTree

end DesignCompiler
