import DesignCompiler.Proofs.Tree.Chain
import DesignCompiler.Proofs.Tree.Checks

/-!
# DesignCompiler — the slots of components

Components with different identifiers are known by their slots: what a component says of its parent
becomes a link between two slots, and the lists of children are the same links seen from the other
end. So the walk from the only root meets exactly the components whose chain of parents reaches it.

* `parentSlot` — the slot of the parent that a slot's component names;
* `links` — parents and lists of children agree;
* `exists_chain_iff` — chains of slots are chains of components;
* `reached_forest`, `unreached_areIds` — what the walk meets, and what it leaves out.
-/

namespace DesignCompiler

/-- The slot of the parent that the component of a slot names. -/
def parentSlot (ss : List Component) (slot : Nat) : Option Nat :=
  ss[slot]?.bind fun c => c.parentId.bind (slot? ss)

/-- The slots of the children of a slot's component. -/
def childrenOf (ss : List Component) (slot : Nat) : List Nat :=
  (childLists ss).getD slot []

theorem getElem?_inj_of_ids {ss : List Component} (hd : (ss.map Component.id).Nodup) {i j : Nat}
    {a b : Component} (hi : ss[i]? = some a) (hj : ss[j]? = some b) (hab : a.id = b.id) :
    i = j := by
  obtain ⟨hilt, -⟩ := List.getElem?_eq_some_iff.mp hi
  have hmap : (ss.map Component.id)[i]? = (ss.map Component.id)[j]? := by
    rw [List.getElem?_map, List.getElem?_map, hi, hj, Option.map_some, Option.map_some, hab]
  exact (List.getElem?_inj (by simpa using hilt) hd).mp hmap

theorem slot?_eq_some_iff {ss : List Component} (hd : (ss.map Component.id).Nodup)
    {id : ComponentId} {slot : Nat} :
    slot? ss id = some slot ↔ ∃ c, ss[slot]? = some c ∧ c.id = id := by
  rw [slot?, List.findIdx?_eq_some_iff_getElem]
  constructor
  · rintro ⟨hlt, hid, -⟩
    exact ⟨ss[slot], List.getElem?_eq_getElem hlt, by simpa using hid⟩
  · rintro ⟨c, hc, rfl⟩
    obtain ⟨hlt, rfl⟩ := List.getElem?_eq_some_iff.mp hc
    refine ⟨hlt, by simp, fun j hj hid => ?_⟩
    -- an earlier slot with this identifier would be the same slot
    have hj' := List.getElem?_eq_getElem (Nat.lt_trans hj hlt)
    have heq := getElem?_inj_of_ids hd hj' hc (by simpa using hid)
    omega

theorem parentSlot_eq_some_iff {ss : List Component} (hd : (ss.map Component.id).Nodup)
    {slot up : Nat} :
    parentSlot ss slot = some up ↔
      ∃ c p, ss[slot]? = some c ∧ ss[up]? = some p ∧ c.parentId = some p.id := by
  simp only [parentSlot, Option.bind_eq_some_iff, slot?_eq_some_iff hd]
  constructor
  · rintro ⟨c, hc, _, hparent, p, hp, rfl⟩
    exact ⟨c, p, hc, hp, hparent⟩
  · rintro ⟨c, p, hc, hp, hparent⟩
    exact ⟨c, hc, p.id, hparent, p, hp, rfl⟩

/-- A parent that is a component of the list has a slot. -/
theorem parentSlot_eq_none_iff {ss : List Component}
    (hparents : ∀ c ∈ ss, ∀ id, c.parentId = some id → ∃ p ∈ ss, p.id = id) {slot : Nat}
    {c : Component} (hc : ss[slot]? = some c) :
    parentSlot ss slot = none ↔ c.parentId = none := by
  rw [parentSlot, hc, Option.bind_some]
  cases hid : c.parentId with
  | none => simp
  | some id =>
    obtain ⟨p, hp, heq⟩ := hparents c (List.mem_of_getElem? hc) id hid
    rw [Option.bind_some, slot?_eq_none_iff]
    exact ⟨fun hall => absurd heq (hall p hp), nofun⟩

/-! ## Lists of children -/

theorem mem_childSlots {ss : List Component} {p : Component} {slot : Nat} :
    slot ∈ childSlots ss p ↔ ∃ c, ss[slot]? = some c ∧ c.parentId = some p.id := by
  simp only [childSlots, List.mem_map, List.mem_mergeSort, List.mem_filter, beq_iff_eq]
  constructor
  · rintro ⟨⟨c, i⟩, ⟨hc, hparent⟩, rfl⟩
    exact ⟨c, List.mk_mem_zipIdx_iff_getElem?.mp hc, hparent⟩
  · rintro ⟨c, hc, hparent⟩
    exact ⟨(c, slot), ⟨List.mk_mem_zipIdx_iff_getElem?.mpr hc, hparent⟩, rfl⟩

theorem nodup_childSlots (ss : List Component) (p : Component) : (childSlots ss p).Nodup := by
  have hall : ((ss.zipIdx.filter (·.1.parentId == some p.id)).map (·.2)).Nodup := by
    have hsnd : (ss.zipIdx.map (·.2)).Nodup := by
      rw [List.zipIdx_map_snd]
      exact List.nodup_range'
    exact (List.filter_sublist.map _).nodup hsnd
  exact ((List.mergeSort_perm _ _).map _).nodup_iff.mpr hall

theorem childrenOf_eq {ss : List Component} {slot : Nat} {p : Component}
    (hp : ss[slot]? = some p) : childrenOf ss slot = childSlots ss p := by
  rw [childrenOf, childLists, List.getD_eq_getElem?_getD, List.getElem?_map, hp]
  rfl

theorem childrenOf_eq_nil {ss : List Component} {slot : Nat} (hp : ss[slot]? = none) :
    childrenOf ss slot = [] := by
  rw [childrenOf, childLists, List.getD_eq_getElem?_getD, List.getElem?_map, hp]
  rfl

theorem mem_childrenOf {ss : List Component} {slot child : Nat} :
    child ∈ childrenOf ss slot ↔
      ∃ c p, ss[child]? = some c ∧ ss[slot]? = some p ∧ c.parentId = some p.id := by
  cases hp : ss[slot]? with
  | none => simp [childrenOf_eq_nil hp]
  | some p => simp [childrenOf_eq hp, mem_childSlots]

theorem nodup_childrenOf (ss : List Component) (slot : Nat) : (childrenOf ss slot).Nodup := by
  cases hp : ss[slot]? with
  | none =>
    rw [childrenOf_eq_nil hp]
    exact List.nodup_nil
  | some p =>
    rw [childrenOf_eq hp]
    exact nodup_childSlots ss p

/-! ## Chains -/

section Chains

variable {ss : List Component} {root : Nat} {r : Component}

theorem links (hd : (ss.map Component.id).Nodup) (hroot : ss[root]? = some r)
    (hparent : r.parentId = none) :
    Links ss.length root (parentSlot ss) (childrenOf ss) where
  root_lt := (List.getElem?_eq_some_iff.mp hroot).1
  parent_root := by simp [parentSlot, hroot, hparent]
  slot_lt := by
    intro slot up hup
    obtain ⟨c, -, hc, -⟩ := (parentSlot_eq_some_iff hd).mp hup
    exact (List.getElem?_eq_some_iff.mp hc).1
  mem_children := by
    intro slot child
    rw [mem_childrenOf, parentSlot_eq_some_iff hd]
  nodup_children := nodup_childrenOf ss

theorem ReachesRoot.mem {cs : List Component} {c : Component} (h : ReachesRoot cs c) : c ∈ cs := by
  cases h with
  | root hc _ => exact hc
  | child hc _ _ => exact hc

theorem parentId_of_only (honly : ss.filter (·.parentId = none) = [r]) : r.parentId = none := by
  have hr : r ∈ ss.filter (·.parentId = none) := honly ▸ List.mem_cons_self ..
  simpa using (List.mem_filter.mp hr).2

theorem eq_root (hd : (ss.map Component.id).Nodup) (hroot : ss[root]? = some r)
    (honly : ss.filter (·.parentId = none) = [r]) {slot : Nat} {c : Component}
    (hc : ss[slot]? = some c) (hnone : c.parentId = none) : slot = root := by
  have hmem : c ∈ ss.filter (·.parentId = none) :=
    List.mem_filter.mpr ⟨List.mem_of_getElem? hc, by simpa using hnone⟩
  rw [honly, List.mem_singleton] at hmem
  exact getElem?_inj_of_ids hd hc hroot (by rw [hmem])

/-- Chains of slots are the chains of their components. -/
theorem exists_chain_iff (hd : (ss.map Component.id).Nodup) (hroot : ss[root]? = some r)
    (honly : ss.filter (·.parentId = none) = [r]) {slot : Nat} {c : Component}
    (hc : ss[slot]? = some c) :
    (∃ k, Chain (parentSlot ss) root slot k) ↔ ReachesRoot ss c := by
  have hparent : r.parentId = none := parentId_of_only honly
  constructor
  · -- each step of the chain goes to the component that is named
    rintro ⟨k, hchain⟩
    induction hchain generalizing c with
    | root =>
      obtain rfl : r = c := Option.some.inj (hroot.symm.trans hc)
      exact .root (List.mem_of_getElem? hc) hparent
    | child hp _ ih =>
      obtain ⟨c', p, hc', hup, hcp⟩ := (parentSlot_eq_some_iff hd).mp hp
      obtain rfl : c = c' := Option.some.inj (hc.symm.trans hc')
      exact .child (List.mem_of_getElem? hc) hcp (ih hup)
  · -- each component on the way has a slot
    intro hreach
    induction hreach generalizing slot with
    | root _ hnone =>
      rw [eq_root hd hroot honly hc hnone]
      exact ⟨0, .root⟩
    | child hmem hcp hp ih =>
      obtain ⟨up, hup⟩ := List.mem_iff_getElem?.mp hp.mem
      obtain ⟨k, hk⟩ := ih hup
      exact ⟨k + 1, .child ((parentSlot_eq_some_iff hd).mpr ⟨_, _, hc, hup, hcp⟩) hk⟩

/-! ## The walk -/

/-- The walk from the root is the pre-order of a forest of slots. -/
theorem reached_forest (hd : (ss.map Component.id).Nodup) (hroot : ss[root]? = some r)
    (hparent : r.parentId = none) :
    ∃ t : Forest Nat, t.tops = [root] ∧ t.Fits (childrenOf ss) ∧ t.labels.Nodup ∧
      reached ss root = t.depths 0 ∧
      ∀ slot d, (slot, d) ∈ t.depths 0 ↔ Chain (parentSlot ss) root slot d :=
  (links hd hroot hparent).walk_chain

end Chains

theorem lookup_eq_none_iff {met : List (Nat × Nat)} {slot : Nat} :
    met.lookup slot = none ↔ ∀ d, (slot, d) ∉ met := by
  rw [List.lookup_eq_none_iff]
  constructor
  · intro h d hmem
    simpa using h _ hmem
  · rintro h ⟨s, d⟩ hmem
    have hne : slot ≠ s := fun heq => h d (heq ▸ hmem)
    simpa using hne

theorem mem_of_lookup_eq_some {α β : Type} [BEq α] [LawfulBEq α] {l : List (α × β)} {a : α} {b : β}
    (h : l.lookup a = some b) : (a, b) ∈ l := by
  obtain ⟨l₁, l₂, rfl, -⟩ := List.lookup_eq_some_iff.mp h
  simp

/-- The walk leaves out exactly the components whose parents do not lead to the root. -/
theorem unreached_areIds {ss : List Component} {root : Nat} {r : Component}
    (hs : ss.Pairwise fun a b => a.id.toNat < b.id.toNat) (hd : (ss.map Component.id).Nodup)
    (hroot : ss[root]? = some r) (honly : ss.filter (·.parentId = none) = [r]) :
    AreIds (unreached ss (reached ss root)) ss fun c => ¬ ReachesRoot ss c := by
  obtain ⟨t, -, -, -, hreached, hchain⟩ := reached_forest hd hroot (parentId_of_only honly)
  have hnone : ∀ {slot c}, ss[slot]? = some c →
      ((reached ss root).lookup slot = none ↔ ¬ ReachesRoot ss c) := by
    intro slot c hc
    rw [← exists_chain_iff hd hroot honly hc, lookup_eq_none_iff, hreached]
    simp only [hchain, not_exists]
  constructor
  · -- leaving components out keeps the others in order
    rw [unreached, List.pairwise_map]
    have hzip : ss.zipIdx.Pairwise fun a b => a.1.id.toNat < b.1.id.toNat := by
      rw [← List.zipIdx_map_fst 0 ss, List.pairwise_map] at hs
      exact hs
    exact hzip.sublist List.filter_sublist
  · intro id
    simp only [unreached, List.mem_map, List.mem_filter, Option.isNone_iff_eq_none]
    constructor
    · rintro ⟨⟨c, slot⟩, ⟨hmem, hlookup⟩, rfl⟩
      have hc := List.mk_mem_zipIdx_iff_getElem?.mp hmem
      exact ⟨c, List.mem_of_getElem? hc, (hnone hc).mp hlookup, rfl⟩
    · rintro ⟨c, hmem, hreach, rfl⟩
      obtain ⟨slot, hc⟩ := List.mem_iff_getElem?.mp hmem
      exact ⟨(c, slot), ⟨List.mk_mem_zipIdx_iff_getElem?.mpr hc, (hnone hc).mpr hreach⟩, rfl⟩

end DesignCompiler
