import Mathlib
import DesignCompiler.Proofs.Tree.Classification

/-!
# DesignCompiler — what an arena says of its components

A tree that was built has the components of the list, neither more nor fewer, and its slots, links
and lists of children say just what the components say of themselves. Its search by halving finds
every identifier that is there.

* `bisect_eq` — halving ends at the place of a number that is in the list;
* `PaintsBefore`, `childSlots_paintOrder` — lists of children ascend in paint order;
* `PageTree.Represents` — all that an arena says, as properties of its components;
* `build_represents` — built trees have these properties.
-/

namespace DesignCompiler

/-! ## Search -/

/-- The place of the target stays among the `count` places that are left. -/
theorem bisect_eq {keys : List Nat} (hs : keys.Pairwise (· < ·)) {target low count place : Nat}
    (hplace : keys[place]? = some target) (hlow : low ≤ place) (hhigh : place < low + count)
    (hlen : low + count ≤ keys.length) : bisect keys target low count = place := by
  induction count using Nat.strongRecOn generalizing low with
  | ind count ih =>
    rw [bisect]
    split
    · omega
    · obtain ⟨hlt, rfl⟩ := List.getElem?_eq_some_iff.mp hplace
      have hmiddle : low + count / 2 < keys.length := by omega
      have hget : keys.getD (low + count / 2) 0 = keys[low + count / 2] := by
        rw [List.getD_eq_getElem?_getD, List.getElem?_eq_getElem hmiddle, Option.getD_some]
      have hkeys := List.pairwise_iff_getElem.mp hs
      -- which half is left out depends on which side of the middle the place is
      have hside : keys[place] < keys.getD (low + count / 2) 0 ↔ place < low + count / 2 := by
        rw [hget]
        constructor
        · intro h
          refine Nat.lt_of_not_le fun hle => ?_
          rcases Nat.lt_or_eq_of_le hle with hlt' | heq
          · have := hkeys _ _ hmiddle hlt hlt'
            omega
          · simp [heq] at h
        · exact hkeys _ _ hlt hmiddle
      by_cases hupper : place < low + count / 2
      · -- the lower half
        simp only [if_pos (hside.mpr hupper)]
        exact ih _ (by omega) hlow (by omega) (by omega)
      · -- the middle and the upper half
        simp only [if_neg (mt hside.mp hupper)]
        exact ih _ (by omega) (by omega) (by omega) (by omega)

/-! ## Paint order -/

/-- A component comes before another: its order is smaller, or the same with a smaller
identifier. -/
def PaintsBefore (a b : Component) : Prop :=
  a.order.toInt < b.order.toInt ∨ a.order.toInt = b.order.toInt ∧ a.id.toNat < b.id.toNat

instance (a b : Component) : Decidable (PaintsBefore a b) :=
  inferInstanceAs (Decidable (_ ∨ _))

theorem paintsFirst_iff {a b : Component} :
    paintsFirst a b = true ↔ a.order.toInt < b.order.toInt ∨
      a.order.toInt = b.order.toInt ∧ a.id.toNat ≤ b.id.toNat := by
  simp [paintsFirst]

theorem paintsFirst_trans (a b c : Component) (hab : paintsFirst a b = true)
    (hbc : paintsFirst b c = true) : paintsFirst a c = true := by
  rw [paintsFirst_iff] at *
  omega

theorem paintsFirst_total (a b : Component) : (paintsFirst a b || paintsFirst b a) = true := by
  rw [Bool.or_eq_true, paintsFirst_iff, paintsFirst_iff]
  omega

/-- Components that are painted in some order with different identifiers have a strict order. -/
theorem paintsBefore_of_ne {a b : Component} (h : paintsFirst a b = true) (hne : a.id ≠ b.id) :
    PaintsBefore a b := by
  have hid : a.id.toNat ≠ b.id.toNat := fun heq => hne (ComponentId.toNat_inj.mp heq)
  rw [paintsFirst_iff] at h
  rw [PaintsBefore]
  omega

/-- Slots of different components in paint order. -/
private theorem paintOrder_of_pairs {ss : List Component} (hd : (ss.map Component.id).Nodup)
    {l : List (Component × Nat)} (hget : ∀ x ∈ l, ss[x.2]? = some x.1)
    (hpaint : l.Pairwise fun x y => paintsFirst x.1 y.1 = true) (hnodup : (l.map (·.2)).Nodup) :
    (l.map (·.2)).Pairwise fun i j =>
      ∃ a b, ss[i]? = some a ∧ ss[j]? = some b ∧ PaintsBefore a b := by
  rw [List.Nodup, List.pairwise_map] at hnodup
  rw [List.pairwise_map]
  refine List.Pairwise.imp_of_mem ?_ (hpaint.and hnodup)
  intro x y hx hy ⟨hxy, hne⟩
  have hid : x.1.id ≠ y.1.id := fun heq => hne (getElem?_inj_of_ids hd (hget x hx) (hget y hy) heq)
  exact ⟨x.1, y.1, hget x hx, hget y hy, paintsBefore_of_ne hxy hid⟩

theorem childSlots_paintOrder {ss : List Component} (hd : (ss.map Component.id).Nodup)
    (p : Component) :
    (childSlots ss p).Pairwise fun i j =>
      ∃ a b, ss[i]? = some a ∧ ss[j]? = some b ∧ PaintsBefore a b := by
  have htrans : ∀ x y z : Component × Nat, paintsFirst x.1 y.1 = true →
      paintsFirst y.1 z.1 = true → paintsFirst x.1 z.1 = true :=
    fun x y z => paintsFirst_trans x.1 y.1 z.1
  have htotal : ∀ x y : Component × Nat, (paintsFirst x.1 y.1 || paintsFirst y.1 x.1) = true :=
    fun x y => paintsFirst_total x.1 y.1
  refine paintOrder_of_pairs hd ?_ ?_ (nodup_childSlots ss p)
  · intro x hx
    rw [List.mem_mergeSort] at hx
    exact List.mk_mem_zipIdx_iff_getElem?.mp (List.mem_filter.mp hx).1
  · exact List.pairwise_mergeSort htrans htotal _

/-! ## Arenas -/

/-- What an arena that was built from components says of them. -/
structure PageTree.Represents (t : PageTree) (cs : List Component) : Prop where
  /-- The slots hold the components, neither more nor fewer. -/
  members : (t.nodes.map Node.component).Perm cs
  ascending : t.nodes.Pairwise fun a b => a.component.id.toNat < b.component.id.toNat
  root : ∃ r, t.nodes[t.root]? = some r ∧ r.component.parentId = none
  /-- No other slot holds a component without a parent. -/
  onlyRoot : ∀ (slot : Nat) (n : Node), t.nodes[slot]? = some n → n.component.parentId = none →
    slot = t.root
  parent : ∀ (slot : Nat) (n : Node), t.nodes[slot]? = some n → ∀ up, n.parent = some up ↔
    ∃ p, t.nodes[up]? = some p ∧ n.component.parentId = some p.component.id
  /-- A parent that is named has a slot. -/
  parent_none : ∀ (slot : Nat) (n : Node), t.nodes[slot]? = some n →
    (n.parent = none ↔ n.component.parentId = none)
  children : ∀ (slot : Nat) (n : Node), t.nodes[slot]? = some n → ∀ child, child ∈ n.children ↔
    ∃ c, t.nodes[child]? = some c ∧ c.component.parentId = some n.component.id
  once : ∀ (slot : Nat) (n : Node), t.nodes[slot]? = some n → n.children.Nodup
  paintOrder : ∀ (slot : Nat) (n : Node), t.nodes[slot]? = some n → n.children.Pairwise fun i j =>
    ∃ a b, t.nodes[i]? = some a ∧ t.nodes[j]? = some b ∧ PaintsBefore a.component b.component
  oneList : ∀ child < t.size, child ≠ t.root → ∃! slot, child ∈ t.children slot
  rootAlone : ∀ slot, t.root ∉ t.children slot
  find_some : ∀ id slot, t.find? id = some slot ↔
    ∃ n, t.nodes[slot]? = some n ∧ n.component.id = id
  find_none : ∀ id, t.find? id = none ↔ ∀ c ∈ cs, c.id ≠ id

theorem getElem?_arena (ss : List Component) (met : List (Nat × Nat)) (slot : Nat) :
    (PageTree.arena ss met)[slot]? = ss[slot]?.map fun c =>
      { component := c, parent := parentSlot ss slot, children := childrenOf ss slot,
        depth := (met.lookup slot).getD 0 } := by
  rw [PageTree.arena, List.getElem?_map, List.getElem?_zipIdx, Option.map_map]
  cases hc : ss[slot]? with
  | none => rfl
  | some c => simp [parentSlot, childrenOf, hc]

theorem map_component_arena (ss : List Component) (met : List (Nat × Nat)) :
    (PageTree.arena ss met).map Node.component = ss := by
  refine List.ext_getElem? fun slot => ?_
  rw [List.getElem?_map, getElem?_arena, Option.map_map]
  rw [Function.comp_def, Option.map_id']

/-- A built tree is the arena of the sorted components. -/
theorem build_eq_arena {cs : List Component} {t : PageTree} (h : PageTree.build cs = .ok t) :
    IsTree cs ∧ t.nodes = PageTree.arena (sortById cs) (reached (sortById cs) t.root) ∧
      ∃ r, (sortById cs)[t.root]? = some r ∧ (sortById cs).filter (·.parentId = none) = [r] := by
  refine ⟨exists_build_iff.mp ⟨t, h⟩, ?_⟩
  obtain ⟨first, rest, root, -, -, hroot, -, -, rfl⟩ := build_eq_ok_iff.mp h
  exact ⟨rfl, onlyRoot_eq_ok hroot⟩

theorem map_component_nodes {cs : List Component} {t : PageTree}
    (h : PageTree.build cs = .ok t) : t.nodes.map Node.component = sortById cs := by
  obtain ⟨-, ht, -⟩ := build_eq_arena h
  rw [ht, map_component_arena]

section Built

variable {ss : List Component} {t : PageTree} {met : List (Nat × Nat)}

theorem getElem?_nodes (ht : t.nodes = PageTree.arena ss met) {slot : Nat} {n : Node}
    (hn : t.nodes[slot]? = some n) :
    ss[slot]? = some n.component ∧ n.parent = parentSlot ss slot ∧
      n.children = childrenOf ss slot := by
  rw [ht, getElem?_arena, Option.map_eq_some_iff] at hn
  obtain ⟨c, hc, rfl⟩ := hn
  exact ⟨hc, rfl, rfl⟩

/-- A condition on the component of a slot is one on the component of its node. -/
theorem exists_component_iff (ht : t.nodes = PageTree.arena ss met) {slot : Nat}
    (p : Component → Prop) :
    (∃ c, ss[slot]? = some c ∧ p c) ↔ ∃ n, t.nodes[slot]? = some n ∧ p n.component := by
  constructor
  · rintro ⟨c, hc, hp⟩
    have hn := getElem?_arena ss met slot
    rw [← ht, hc, Option.map_some] at hn
    exact ⟨_, hn, hp⟩
  · rintro ⟨n, hn, hp⟩
    exact ⟨n.component, (getElem?_nodes ht hn).1, hp⟩

theorem children_eq (ht : t.nodes = PageTree.arena ss met) (slot : Nat) :
    t.children slot = childrenOf ss slot := by
  rw [PageTree.children, ht, getElem?_arena]
  cases hc : ss[slot]? with
  | none => rw [childrenOf_eq_nil hc, Option.map_none]
  | some c => rw [Option.map_some]

theorem size_eq (ht : t.nodes = PageTree.arena ss met) : t.size = ss.length := by
  rw [PageTree.size, ht, ← List.length_map, map_component_arena]

theorem find?_eq_some_iff (hs : ss.Pairwise fun a b => a.id.toNat < b.id.toNat)
    (ht : t.nodes = PageTree.arena ss met) {id : ComponentId} {slot : Nat} :
    t.find? id = some slot ↔ ∃ n, t.nodes[slot]? = some n ∧ n.component.id = id := by
  -- The search compares identifiers only, and they ascend.
  have hkeys : t.nodes.map (·.component.id.toNat) = ss.map (·.id.toNat) := by
    rw [ht, ← map_component_arena ss met, List.map_map, map_component_arena]
    rfl
  constructor
  · intro h
    simp only [PageTree.find?] at h
    split at h
    · rename_i n hn
      obtain ⟨hid, hslot⟩ := Option.ite_none_right_eq_some.mp h
      exact ⟨n, Option.some.inj hslot ▸ hn, hid⟩
    · exact nomatch h
  · rintro ⟨n, hn, rfl⟩
    have hplace : (t.nodes.map (·.component.id.toNat))[slot]? = some n.component.id.toNat := by
      rw [List.getElem?_map, hn, Option.map_some]
    have hlt : slot < t.size := (List.getElem?_eq_some_iff.mp hn).1
    have hfound := bisect_eq (hkeys ▸ List.pairwise_map.mpr hs) hplace (Nat.zero_le _)
      (by rwa [Nat.zero_add]) (by simp [PageTree.size])
    simp only [PageTree.find?, hfound, hn, if_true]

theorem find?_eq_none_iff (hs : ss.Pairwise fun a b => a.id.toNat < b.id.toNat)
    (ht : t.nodes = PageTree.arena ss met) {id : ComponentId} :
    t.find? id = none ↔ ∀ c ∈ ss, c.id ≠ id := by
  have hslot : (∃ slot, t.find? id = some slot) ↔ ∃ c ∈ ss, c.id = id := by
    simp only [find?_eq_some_iff hs ht, ← exists_component_iff ht (·.id = id)]
    rw [exists_comm]
    simp only [exists_and_right, ← List.mem_iff_getElem?]
  rw [Option.eq_none_iff_forall_ne_some, ← not_iff_not]
  simpa only [ne_eq, Classical.not_forall, Classical.not_not, exists_prop] using hslot

theorem parent_eq_some_iff (hd : (ss.map Component.id).Nodup)
    (ht : t.nodes = PageTree.arena ss met) {slot : Nat} {n : Node} (hn : t.nodes[slot]? = some n)
    {up : Nat} :
    n.parent = some up ↔
      ∃ p, t.nodes[up]? = some p ∧ n.component.parentId = some p.component.id := by
  obtain ⟨hc, hparent, -⟩ := getElem?_nodes ht hn
  rw [hparent, parentSlot_eq_some_iff hd,
    ← exists_component_iff ht (n.component.parentId = some ·.id)]
  simp [hc]

theorem mem_children_iff (ht : t.nodes = PageTree.arena ss met) {slot : Nat} {n : Node}
    (hn : t.nodes[slot]? = some n) {child : Nat} :
    child ∈ n.children ↔
      ∃ c, t.nodes[child]? = some c ∧ c.component.parentId = some n.component.id := by
  obtain ⟨hc, -, hchildren⟩ := getElem?_nodes ht hn
  rw [hchildren, mem_childrenOf, ← exists_component_iff ht (·.parentId = some n.component.id)]
  simp [hc]

theorem children_paintOrder (hd : (ss.map Component.id).Nodup)
    (ht : t.nodes = PageTree.arena ss met) {slot : Nat} {n : Node}
    (hn : t.nodes[slot]? = some n) :
    n.children.Pairwise fun i j => ∃ a b, t.nodes[i]? = some a ∧ t.nodes[j]? = some b ∧
      PaintsBefore a.component b.component := by
  obtain ⟨hc, -, hchildren⟩ := getElem?_nodes ht hn
  rw [hchildren, childrenOf_eq hc]
  refine (childSlots_paintOrder hd n.component).imp ?_
  rintro i j ⟨a, b, ha, hb, hab⟩
  obtain ⟨x, hx, rfl⟩ := (exists_component_iff ht (· = a)).mp ⟨a, ha, rfl⟩
  obtain ⟨y, hy, rfl⟩ := (exists_component_iff ht (· = b)).mp ⟨b, hb, rfl⟩
  exact ⟨x, y, hx, hy, hab⟩

end Built

/--
**The arena is faithful.** Its slots hold the components by ascending identifier; root, parents and
lists of children are what the components say of their parents, in paint order; and the search finds
the slot of each identifier that a component has, and nothing for the others.
-/
theorem build_represents {cs : List Component} {t : PageTree} (h : PageTree.build cs = .ok t) :
    t.Represents cs := by
  obtain ⟨htree, ht, r, hroot, honly⟩ := build_eq_arena h
  have hd := nodup_ids_sortById.mpr htree.distinct
  have hs := sortById_strict htree.distinct
  have hlinks := links hd hroot (parentId_of_only honly)
  have hparents : ∀ c ∈ sortById cs, ∀ id, c.parentId = some id → ∃ p ∈ sortById cs, p.id = id := by
    simpa only [mem_sortById] using htree.parents
  refine
    { members := ?_, ascending := ?_, root := ?_, onlyRoot := ?_,
      parent := fun _ _ hn _ => parent_eq_some_iff hd ht hn, parent_none := ?_,
      children := fun _ _ hn _ => mem_children_iff ht hn, once := ?_,
      paintOrder := fun _ _ hn => children_paintOrder hd ht hn, oneList := ?_, rootAlone := ?_,
      find_some := fun _ _ => find?_eq_some_iff hs ht, find_none := ?_ }
  · -- members
    rw [ht, map_component_arena]
    exact sortById_perm cs
  · -- ascending
    rw [← map_component_arena (sortById cs) (reached (sortById cs) t.root), ← ht,
      List.pairwise_map] at hs
    exact hs
  · -- root
    exact (exists_component_iff ht (·.parentId = none)).mp ⟨r, hroot, parentId_of_only honly⟩
  · -- no other slot without a parent
    intro slot n hn hnone
    exact eq_root hd hroot honly (getElem?_nodes ht hn).1 hnone
  · -- no parent slot: every parent that is named is in the list
    intro slot n hn
    obtain ⟨hc, hparent, -⟩ := getElem?_nodes ht hn
    rw [hparent, parentSlot_eq_none_iff hparents hc]
  · -- no child twice
    intro slot n hn
    rw [(getElem?_nodes ht hn).2.2]
    exact nodup_childrenOf _ _
  · -- a slot other than the root has a parent slot, and only there is it a child
    intro child hlt hne
    rw [size_eq ht] at hlt
    have hc := List.getElem?_eq_getElem hlt
    have hparent : parentSlot (sortById cs) child ≠ none := by
      rw [ne_eq, parentSlot_eq_none_iff hparents hc]
      exact fun hnone => hne (eq_root hd hroot honly hc hnone)
    obtain ⟨up, hup⟩ := Option.ne_none_iff_exists'.mp hparent
    simp only [children_eq ht, hlinks.mem_children]
    exact ⟨up, hup, fun other hother => Option.some.inj (hother.symm.trans hup)⟩
  · -- the root has no parent slot
    intro slot hmem
    rw [children_eq ht, hlinks.mem_children, hlinks.parent_root] at hmem
    exact nomatch hmem
  · -- not found
    intro id
    rw [find?_eq_none_iff hs ht]
    simp only [mem_sortById]

/-- A root behind one of its three children. One child has a negative order, the others share one. -/
def tiedChildren : List Component :=
  [{ id := ⟨3⟩, parentId := some ⟨9⟩, kind := "text" },
    { id := ⟨9⟩, kind := "container", order := 5 },
    { id := ⟨4⟩, parentId := some ⟨9⟩, kind := "image", order := -2 },
    { id := ⟨1⟩, parentId := some ⟨9⟩, kind := "button" }]

/-- The tree of these components: the tie goes to the smaller identifier. -/
def tiedTree : PageTree where
  nodes :=
    [{ component := { id := ⟨1⟩, parentId := some ⟨9⟩, kind := "button" },
       parent := some 3, children := [], depth := 1 },
      { component := { id := ⟨3⟩, parentId := some ⟨9⟩, kind := "text" },
        parent := some 3, children := [], depth := 1 },
      { component := { id := ⟨4⟩, parentId := some ⟨9⟩, kind := "image", order := -2 },
        parent := some 3, children := [], depth := 1 },
      { component := { id := ⟨9⟩, kind := "container", order := 5 },
        parent := none, children := [2, 0, 1], depth := 0 }]
  root := 3
  pageId := none

theorem tiedTree_represents :
    PageTree.build tiedChildren = .ok tiedTree ∧ tiedTree.Represents tiedChildren :=
  ⟨by cbv, build_represents (by cbv)⟩

end DesignCompiler
