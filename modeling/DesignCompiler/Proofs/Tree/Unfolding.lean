import DesignCompiler.Proofs.Tree.Arena

/-!
# DesignCompiler — built trees as forests

The slots of a built tree are the labels of one forest, whose only top is the root. What is written
for a page is written along this forest.

* `PageTree.Unfolds` — a forest is the tree: the same root, the same children, every slot once;
* `exists_unfolds` — every built tree has one, and its pre-order is that of the forest;
* `forall_mem_preorderNodes_iff` — the pre-order leaves no component out.
-/

namespace DesignCompiler

/-- A forest of slots that has the shape of a tree. -/
structure PageTree.Unfolds (t : PageTree) (f : Forest Nat) : Prop where
  tops : f.tops = [t.root]
  fits : f.Fits t.children
  /-- Every slot stands in the forest, and only once. -/
  slots : f.labels.Perm (List.range t.size)
  depth : ∀ slot d, (slot, d) ∈ f.depths 0 → ∃ n, t.nodes[slot]? = some n ∧ n.depth = d

theorem PageTree.Unfolds.mem_labels_iff {t : PageTree} {f : Forest Nat} (h : t.Unfolds f)
    {slot : Nat} : slot ∈ f.labels ↔ slot < t.size :=
  h.slots.mem_iff.trans List.mem_range

/-- Every slot of a built tree has a chain to the root. -/
theorem IsTree.exists_chain {cs : List Component} (h : IsTree cs) {root : Nat} {r : Component}
    (hroot : (sortById cs)[root]? = some r)
    (honly : (sortById cs).filter (·.parentId = none) = [r]) {slot : Nat}
    (hslot : slot < (sortById cs).length) :
    ∃ k, Chain (parentSlot (sortById cs)) root slot k := by
  have hc := List.getElem?_eq_getElem hslot
  rw [exists_chain_iff (nodup_ids_sortById.mpr h.distinct) hroot honly hc, reachesRoot_sortById]
  exact h.rooted _ (mem_sortById.mp (List.mem_of_getElem? hc))

/-- The depth of a node is looked up, and it is the length of the only chain of its slot. -/
theorem depth_eq {ss : List Component} {t : PageTree} {f : Forest Nat}
    (ht : t.nodes = PageTree.arena ss (f.depths 0)) (hroot : parentSlot ss t.root = none)
    (hchain : ∀ slot d, (slot, d) ∈ f.depths 0 ↔ Chain (parentSlot ss) t.root slot d)
    {slot d : Nat} (hslot : (slot, d) ∈ f.depths 0) {n : Node} (hn : t.nodes[slot]? = some n) :
    n.depth = d := by
  rw [ht, getElem?_arena, Option.map_eq_some_iff] at hn
  obtain ⟨c, -, rfl⟩ := hn
  show ((f.depths 0).lookup slot).getD 0 = d
  cases hlookup : (f.depths 0).lookup slot with
  | none => exact absurd hslot (lookup_eq_none_iff.mp hlookup d)
  | some k =>
    have hk := (hchain _ _).mp (mem_of_lookup_eq_some hlookup)
    exact Chain.unique hroot hk ((hchain _ _).mp hslot)

/-- **A built tree is a forest**, and its pre-order is that of the forest. -/
theorem exists_unfolds {cs : List Component} {t : PageTree} (h : PageTree.build cs = .ok t) :
    ∃ f, t.Unfolds f ∧ t.preorder = f.labels := by
  obtain ⟨htree, ht, r, hroot, honly⟩ := build_eq_arena h
  have hd := nodup_ids_sortById.mpr htree.distinct
  have hparent : r.parentId = none := parentId_of_only honly
  obtain ⟨f, htops, hfits, hnodup, hreached, hchain⟩ := reached_forest hd hroot hparent
  have hchildren : t.children = childrenOf (sortById cs) := funext (children_eq ht)
  have hmem : ∀ slot, slot ∈ f.labels ↔ slot < t.size := by
    intro slot
    rw [← f.map_fst_depths 0, size_eq ht, List.mem_map]
    constructor
    · rintro ⟨⟨_, d⟩, hslot, rfl⟩
      exact (links hd hroot hparent).chain_slot_lt ((hchain _ _).mp hslot)
    · intro hlt
      obtain ⟨k, hk⟩ := htree.exists_chain hroot honly hlt
      exact ⟨(slot, k), (hchain _ _).mpr hk, rfl⟩
  refine ⟨f, ⟨htops, hchildren ▸ hfits, ?_, ?_⟩, ?_⟩
  · -- slots
    rw [List.perm_ext_iff_of_nodup hnodup List.nodup_range]
    intro slot
    rw [hmem, List.mem_range]
  · -- depths
    intro slot d hslot
    have hlt : slot < t.size := (hmem slot).mp <| by
      rw [← f.map_fst_depths 0]
      exact List.mem_map.mpr ⟨_, hslot, rfl⟩
    have hn := List.getElem?_eq_getElem hlt
    rw [hreached] at ht
    exact ⟨_, hn, depth_eq ht (links hd hroot hparent).parent_root hchain hslot hn⟩
  · -- pre-order
    rw [PageTree.preorder, hchildren, size_eq ht]
    exact (congrArg _ hreached).trans (f.map_fst_depths 0)

theorem mem_preorderNodes_iff {cs : List Component} {t : PageTree}
    (h : PageTree.build cs = .ok t) {n : Node} : n ∈ t.preorderNodes ↔ n ∈ t.nodes := by
  obtain ⟨f, hf, hpre⟩ := exists_unfolds h
  rw [PageTree.preorderNodes, List.mem_filterMap]
  constructor
  · rintro ⟨slot, -, hn⟩
    exact List.mem_of_getElem? hn
  · intro hn
    obtain ⟨slot, hslot⟩ := List.mem_iff_getElem?.mp hn
    have hlt : slot < t.size := (List.getElem?_eq_some_iff.mp hslot).1
    exact ⟨slot, hpre ▸ hf.mem_labels_iff.mpr hlt, hslot⟩

/-- What holds of all components holds of all nodes, met in pre-order. -/
theorem forall_mem_preorderNodes_iff {cs : List Component} {t : PageTree}
    (h : PageTree.build cs = .ok t) {p : Component → Prop} :
    (∀ n ∈ t.preorderNodes, p n.component) ↔ ∀ c ∈ cs, p c := by
  have hcomponents : (∀ n ∈ t.nodes, p n.component) ↔ ∀ c ∈ t.nodes.map Node.component, p c :=
    List.forall_mem_map.symm
  simp only [mem_preorderNodes_iff h]
  rw [hcomponents, map_component_nodes h]
  simp only [mem_sortById]

end DesignCompiler
