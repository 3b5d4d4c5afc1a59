import DesignCompiler.Proofs.Tree.Arena

/-!
# DesignCompiler — components under other identifiers

Identifiers and orders steer how a tree is built: slots follow the identifiers, children follow
order and identifier. Nothing else about them counts. If other identifiers ascend as the old ones
do, and other orders rank the children of each parent as the old ones do, the tree is the same but
for what its components are called.

* `Renaming`, `Component.rename` — other identifiers, another page and other orders;
* `Renaming.Keeps` — the renamings that keep all comparisons which building makes;
* `sortById_rename`, `childLists_rename`, `arena_rename` — the parts of an arena;
* `build_rename` — the tree of renamed components.
-/

namespace DesignCompiler

/-- What components are to be called. -/
structure Renaming where
  id : ComponentId → ComponentId
  page : Option PageId
  order : Component → Int64

def Component.rename (r : Renaming) (c : Component) : Component :=
  { c with id := r.id c.id, parentId := c.parentId.map r.id, pageId := r.page, order := r.order c }

def Node.rename (r : Renaming) (n : Node) : Node :=
  { n with component := n.component.rename r }

def PageTree.rename (r : Renaming) (t : PageTree) : PageTree :=
  { t with nodes := t.nodes.map (Node.rename r), pageId := r.page }

/-- Identifiers ascend as before, and so do the children of each parent in paint order. -/
structure Renaming.Keeps (r : Renaming) (cs : List Component) : Prop where
  ascending : ∀ a ∈ cs, ∀ b ∈ cs, a.id.toNat < b.id.toNat →
    (r.id a.id).toNat < (r.id b.id).toNat
  paintOrder : ∀ a ∈ cs, ∀ b ∈ cs, a.parentId ≠ none → a.parentId = b.parentId →
    (PaintsBefore (a.rename r) (b.rename r) ↔ PaintsBefore a b)

namespace Renaming

variable {r : Renaming} {cs : List Component}

theorem Keeps.of_mem_iff {ds : List Component} (h : r.Keeps cs) (hmem : ∀ c, c ∈ ds ↔ c ∈ cs) :
    r.Keeps ds where
  ascending a ha b hb := h.ascending a ((hmem a).mp ha) b ((hmem b).mp hb)
  paintOrder a ha b hb := h.paintOrder a ((hmem a).mp ha) b ((hmem b).mp hb)

theorem Keeps.toNat_le_iff (h : r.Keeps cs) {a b : Component} (ha : a ∈ cs) (hb : b ∈ cs) :
    (r.id a.id).toNat ≤ (r.id b.id).toNat ↔ a.id.toNat ≤ b.id.toNat := by
  rcases Nat.lt_trichotomy a.id.toNat b.id.toNat with hlt | heq | hlt
  · have := h.ascending a ha b hb hlt
    omega
  · rw [ComponentId.toNat_inj.mp heq]
    exact iff_of_true (Nat.le_refl _) (Nat.le_refl _)
  · have := h.ascending b hb a ha hlt
    omega

/-- Different components stay different. -/
theorem Keeps.id_inj (h : r.Keeps cs) {a b : Component} (ha : a ∈ cs) (hb : b ∈ cs) :
    r.id a.id = r.id b.id ↔ a.id = b.id := by
  have hab := h.toNat_le_iff ha hb
  have hba := h.toNat_le_iff hb ha
  rw [← ComponentId.toNat_inj, ← ComponentId.toNat_inj]
  omega

theorem Keeps.nodup_ids (h : r.Keeps cs) (hd : (cs.map Component.id).Nodup) :
    ((cs.map (·.rename r)).map Component.id).Nodup := by
  rw [List.map_map, List.Nodup, List.pairwise_map]
  refine List.Pairwise.imp_of_mem ?_ (List.pairwise_map.mp hd)
  intro a b ha hb hne heq
  exact hne ((h.id_inj ha hb).mp heq)

/-- The children of one parent are painted in the same order. -/
theorem Keeps.paintsFirst_eq (h : r.Keeps cs) {a b : Component} (ha : a ∈ cs) (hb : b ∈ cs)
    (hparent : a.parentId ≠ none) (hsame : a.parentId = b.parentId) :
    paintsFirst (a.rename r) (b.rename r) = paintsFirst a b := by
  -- a component is painted first unless the other one is strictly before it
  have hnot : ∀ x y : Component, paintsFirst x y = true ↔ ¬ PaintsBefore y x := by
    intro x y
    rw [paintsFirst_iff, PaintsBefore]
    omega
  rw [Bool.eq_iff_iff, hnot, hnot, h.paintOrder b hb a ha (hsame ▸ hparent) hsame.symm]

end Renaming

section Arena

variable {r : Renaming} {cs : List Component}

theorem sortById_rename (h : r.Keeps cs) :
    sortById (cs.map (·.rename r)) = (sortById cs).map (·.rename r) := by
  refine (List.map_mergeSort fun a ha b hb => ?_).symm
  exact decide_eq_decide.mpr (h.toNat_le_iff ha hb).symm

section Linked

variable (h : r.Keeps cs)
  (hparents : ∀ c ∈ cs, ∀ id, c.parentId = some id → ∃ p ∈ cs, p.id = id)

include h hparents

/-- A component has the same parent as before. -/
theorem parentId_rename_iff {c p : Component} (hc : c ∈ cs) (hp : p ∈ cs) :
    (c.rename r).parentId = some (p.rename r).id ↔ c.parentId = some p.id := by
  rw [Component.rename, Component.rename, Option.map_eq_some_iff]
  constructor
  · rintro ⟨id, hid, heq⟩
    obtain ⟨q, hq, rfl⟩ := hparents c hc id hid
    rw [hid, (h.id_inj hq hp).mp heq]
  · intro hid
    exact ⟨p.id, hid, rfl⟩

theorem slot?_rename (hd : (cs.map Component.id).Nodup) {c : Component} (hc : c ∈ cs) :
    (c.rename r).parentId.bind (slot? (cs.map (·.rename r))) = c.parentId.bind (slot? cs) := by
  cases hid : c.parentId with
  | none => simp [Component.rename, hid]
  | some id =>
    obtain ⟨p, hp, rfl⟩ := hparents c hc id hid
    have hparent : (c.rename r).parentId = some (r.id p.id) := by simp [Component.rename, hid]
    rw [hparent, Option.bind_some, Option.bind_some]
    refine Option.ext fun slot => ?_
    rw [slot?_eq_some_iff (h.nodup_ids hd), slot?_eq_some_iff hd, List.getElem?_map]
    constructor
    · rintro ⟨_, hslot, heq⟩
      obtain ⟨q, hq, rfl⟩ := Option.map_eq_some_iff.mp hslot
      exact ⟨q, hq, (h.id_inj (List.mem_of_getElem? hq) hp).mp heq⟩
    · rintro ⟨q, hq, heq⟩
      exact ⟨q.rename r, by rw [hq, Option.map_some], congrArg r.id heq⟩

theorem childSlots_rename {p : Component} (hp : p ∈ cs) :
    childSlots (cs.map (·.rename r)) (p.rename r) = childSlots cs p := by
  -- the children are the same
  have hfilter : (cs.map (·.rename r)).zipIdx.filter
      (·.1.parentId == some (p.rename r).id) =
        (cs.zipIdx.filter (·.1.parentId == some p.id)).map (Prod.map (·.rename r) id) := by
    rw [List.zipIdx_map, List.filter_map]
    refine congrArg _ (List.filter_congr fun x hx => ?_)
    rw [Bool.eq_iff_iff]
    simpa using parentId_rename_iff h hparents (List.fst_mem_of_mem_zipIdx hx) hp
  -- and so is their order
  have hsort : ((cs.zipIdx.filter (·.1.parentId == some p.id)).map
      (Prod.map (·.rename r) id)).mergeSort (fun a b => paintsFirst a.1 b.1) =
        ((cs.zipIdx.filter (·.1.parentId == some p.id)).mergeSort
          (fun a b => paintsFirst a.1 b.1)).map (Prod.map (·.rename r) id) := by
    refine (List.map_mergeSort fun a ha b hb => ?_).symm
    rw [List.mem_filter, beq_iff_eq] at ha hb
    refine (h.paintsFirst_eq (List.fst_mem_of_mem_zipIdx ha.1) (List.fst_mem_of_mem_zipIdx hb.1)
      ?_ (ha.2.trans hb.2.symm)).symm
    rw [ha.2]
    exact Option.some_ne_none _
  rw [childSlots, hfilter, hsort, List.map_map, childSlots]
  rfl

theorem childLists_rename : childLists (cs.map (·.rename r)) = childLists cs := by
  rw [childLists, List.map_map, childLists]
  exact List.map_congr_left fun p hp => childSlots_rename h hparents hp

theorem reached_rename (root : Nat) :
    reached (cs.map (·.rename r)) root = reached cs root := by
  simp only [reached, childLists_rename h hparents, List.length_map]

theorem arena_rename (hd : (cs.map Component.id).Nodup) (met : List (Nat × Nat)) :
    PageTree.arena (cs.map (·.rename r)) met = (PageTree.arena cs met).map (Node.rename r) := by
  simp only [PageTree.arena, childLists_rename h hparents]
  rw [List.zipIdx_map, List.map_map, List.map_map]
  refine List.map_congr_left fun x hx => ?_
  simp only [Function.comp_apply, Prod.map, Node.rename, id_eq,
    slot?_rename h hparents hd (List.fst_mem_of_mem_zipIdx hx)]

/-- A chain of parents goes through the same components. -/
theorem ReachesRoot.rename {c : Component} (hc : ReachesRoot cs c) :
    ReachesRoot (cs.map (·.rename r)) (c.rename r) := by
  induction hc with
  | root hc hroot =>
    exact .root (List.mem_map_of_mem hc) (by simp [Component.rename, hroot])
  | child hc hparent hp ih =>
    refine .child (List.mem_map_of_mem hc) ?_ ih
    exact (parentId_rename_iff h hparents hc hp.mem).mpr hparent

end Linked

theorem IsTree.rename (h : r.Keeps cs) (htree : IsTree cs) : IsTree (cs.map (·.rename r)) where
  nonempty := by simpa using htree.nonempty
  samePage := by
    intro a ha b hb
    obtain ⟨c, -, rfl⟩ := List.mem_map.mp ha
    obtain ⟨d, -, rfl⟩ := List.mem_map.mp hb
    rfl
  distinct := h.nodup_ids htree.distinct
  oneRoot := by
    rw [List.filter_map, List.length_map, ← htree.oneRoot]
    refine congrArg _ (List.filter_congr fun c _ => ?_)
    simp [Component.rename]
  parents := by
    intro c hc id hid
    obtain ⟨d, hd, rfl⟩ := List.mem_map.mp hc
    obtain ⟨old, hold, rfl⟩ := Option.map_eq_some_iff.mp hid
    obtain ⟨p, hp, rfl⟩ := htree.parents d hd old hold
    exact ⟨p.rename r, List.mem_map_of_mem hp, rfl⟩
  rooted := by
    intro c hc
    obtain ⟨d, hd, rfl⟩ := List.mem_map.mp hc
    exact (htree.rooted d hd).rename h htree.parents

/--
**A renamed tree.** Renamed components make the tree of the old ones, slot by slot, with the same
links and depths.
-/
theorem build_rename {t : PageTree} (h : r.Keeps cs) (hb : PageTree.build cs = .ok t) :
    PageTree.build (cs.map (·.rename r)) = .ok (t.rename r) := by
  obtain ⟨htree, hnodes, c, hroot, honly⟩ := build_eq_arena hb
  obtain ⟨t', hb'⟩ := exists_build_iff.mpr (htree.rename h)
  obtain ⟨htree', hnodes', c', hroot', honly'⟩ := build_eq_arena hb'
  have hkeeps : r.Keeps (sortById cs) := h.of_mem_iff fun _ => mem_sortById
  have hd := nodup_ids_sortById.mpr htree.distinct
  have hparents : ∀ c ∈ sortById cs, ∀ id, c.parentId = some id → ∃ p ∈ sortById cs, p.id = id := by
    simpa only [mem_sortById] using htree.parents
  rw [sortById_rename h] at hnodes' hroot' honly'
  -- the only component without a parent stands in the same slot
  have hsame : t.root = t'.root := by
    have hslot : ((sortById cs).map (·.rename r))[t.root]? = some (c.rename r) := by
      rw [List.getElem?_map, hroot, Option.map_some]
    have hnone : (c.rename r).parentId = none := by
      rw [Component.rename, parentId_of_only honly, Option.map_none]
    exact eq_root (hkeeps.nodup_ids hd) hroot' honly' hslot hnone
  rw [← hsame, reached_rename hkeeps hparents, arena_rename hkeeps hparents hd, ← hnodes] at hnodes'
  -- the page is that of the first component
  have hpage : t'.pageId = r.page := by
    obtain ⟨first, rest, root, hs, -, -, -, -, rfl⟩ := build_eq_ok_iff.mp hb'
    rw [sortById_rename h] at hs
    obtain ⟨d, ds, -, rfl, -⟩ := List.map_eq_cons_iff.mp hs
    rfl
  rw [hb']
  obtain ⟨nodes, root, pageId⟩ := t'
  simp only at hnodes' hsame hpage
  rw [PageTree.rename, hnodes', ← hsame, hpage]

end Arena

end DesignCompiler
