import DesignCompiler.Proofs.Tree.Forest
import Mathlib.Data.List.Perm.Subperm

/-!
# DesignCompiler — chains of parents

A slot belongs to the tree of a root if the chain of its parents ends there. The chain of a slot has
one length only, because the root has no parent, and it is shorter than the number of slots, because
its slots have different lengths. So a walk from the root can neither meet a slot twice nor be cut
off by a limit of that number.

* `Chain` — the chain from a slot up to the root, with its length;
* `Links` — parents and lists of children that say the same about finitely many slots;
* `Links.chain_lt` — chains are shorter than the number of slots;
* `Links.walk_chain` — a walk from the root is the pre-order of a forest without repetitions, and it
  meets just the slots that have a chain, at the depths that are the lengths of their chains.
-/

namespace DesignCompiler

/-- The chain of parents from a slot to the root, with the number of its steps. -/
inductive Chain (parent : Nat → Option Nat) (root : Nat) : Nat → Nat → Prop where
  | root : Chain parent root root 0
  | child {slot up k : Nat} (hp : parent slot = some up) (hc : Chain parent root up k) :
      Chain parent root slot (k + 1)

/-- The slot some steps above a slot. -/
def above (parent : Nat → Option Nat) : (steps slot : Nat) → Option Nat
  | 0, slot => some slot
  | j + 1, slot => (parent slot).bind (above parent j)

/-- Parents and children of the slots below `n`, seen from a root. -/
structure Links (n root : Nat) (parent : Nat → Option Nat) (children : Nat → List Nat) :
    Prop where
  root_lt : root < n
  parent_root : parent root = none
  slot_lt : ∀ {slot up}, parent slot = some up → slot < n
  mem_children : ∀ {slot child}, child ∈ children slot ↔ parent child = some slot
  nodup_children : ∀ slot, (children slot).Nodup

/-! ## Lengths of chains -/

section Lengths

variable {parent : Nat → Option Nat} {root : Nat}

theorem Chain.unique (hroot : parent root = none) {slot k l : Nat} (hk : Chain parent root slot k)
    (hl : Chain parent root slot l) : k = l := by
  induction hk generalizing l with
  | root =>
    cases hl with
    | root => rfl
    | child hp _ => simp [hroot] at hp
  | child hp _ ih =>
    cases hl with
    | root => simp [hroot] at hp
    | child hp' hl' =>
      rw [hp, Option.some.injEq] at hp'
      rw [ih (hp' ▸ hl')]

theorem above_succ {j slot up upper : Nat} (h : above parent j slot = some up)
    (hp : parent up = some upper) : above parent (j + 1) slot = some upper := by
  induction j generalizing slot with
  | zero =>
    rw [above, Option.some.injEq] at h
    simp [above, h, hp]
  | succ j ih =>
    rw [above, Option.bind_eq_some_iff] at h
    obtain ⟨next, hnext, h⟩ := h
    rw [above, hnext]
    exact ih h

theorem Chain.of_above {j slot up k : Nat} (h : above parent j slot = some up)
    (hc : Chain parent root up k) : Chain parent root slot (k + j) := by
  induction j generalizing slot with
  | zero =>
    rw [above, Option.some.injEq] at h
    exact h ▸ hc
  | succ j ih =>
    rw [above, Option.bind_eq_some_iff] at h
    obtain ⟨next, hnext, h⟩ := h
    exact .child hnext (ih h)

end Lengths

namespace Links

variable {n root : Nat} {parent : Nat → Option Nat} {children : Nat → List Nat}

theorem chain_slot_lt (h : Links n root parent children) {slot k : Nat}
    (hc : Chain parent root slot k) : slot < n := by
  cases hc with
  | root => exact h.root_lt
  | child hp _ => exact h.slot_lt hp

/-- The slots of a chain are all different: each has a chain of another length. -/
theorem exists_path (h : Links n root parent children) {slot k : Nat}
    (hc : Chain parent root slot k) :
    ∃ path : List Nat, path.length = k + 1 ∧ path.Nodup ∧
      ∀ s ∈ path, s < n ∧ ∃ j ≤ k, Chain parent root s j := by
  induction hc with
  | root =>
    refine ⟨[root], rfl, by simp, ?_⟩
    intro s hs
    rw [List.mem_singleton] at hs
    subst hs
    exact ⟨h.root_lt, 0, Nat.le_refl _, .root⟩
  | @child slot up k hp hc ih =>
    obtain ⟨path, hlen, hnodup, hpath⟩ := ih
    refine ⟨slot :: path, by rw [List.length_cons, hlen], List.nodup_cons.mpr ⟨?_, hnodup⟩, ?_⟩
    · -- the chain of `slot` is longer than those of all slots above it
      intro hmem
      obtain ⟨-, j, hj, hchain⟩ := hpath slot hmem
      have := Chain.unique h.parent_root hchain (.child hp hc)
      omega
    · intro s hs
      rcases List.mem_cons.mp hs with rfl | hs
      · exact ⟨h.slot_lt hp, k + 1, Nat.le_refl _, .child hp hc⟩
      · obtain ⟨hlt, j, hj, hchain⟩ := hpath s hs
        exact ⟨hlt, j, by omega, hchain⟩

/-- A chain is shorter than the number of slots. -/
theorem chain_lt (h : Links n root parent children) {slot k : Nat}
    (hc : Chain parent root slot k) : k < n := by
  obtain ⟨path, hlen, hnodup, hpath⟩ := h.exists_path hc
  have hsub : path ⊆ List.range n := fun s hs => List.mem_range.mpr (hpath s hs).1
  have hle := (hnodup.subperm hsub).length_le
  rw [List.length_range] at hle
  omega

/-! ## Fitting forests -/

/-- Above every slot of a fitting forest stands one of its top slots. -/
theorem exists_above (h : Links n root parent children) {t : Forest Nat} (ht : t.Fits children)
    {slot : Nat} (hs : slot ∈ t.labels) :
    ∃ j, ∃ top ∈ t.tops, above parent j slot = some top := by
  induction t with
  | nil => simp [Forest.labels] at hs
  | cons a below rest ihb ihr =>
    obtain ⟨htops, hb, hr⟩ := ht
    rw [Forest.labels, List.mem_cons, List.mem_append] at hs
    rcases hs with rfl | hs | hs
    · exact ⟨0, slot, List.mem_cons_self .., rfl⟩
    · -- the tops below `a` are children of `a`
      obtain ⟨j, top, htop, habove⟩ := ihb hb hs
      have hp : parent top = some a := h.mem_children.mp (htops ▸ htop)
      exact ⟨j + 1, a, List.mem_cons_self .., above_succ habove hp⟩
    · obtain ⟨j, top, htop, habove⟩ := ihr hr hs
      exact ⟨j, top, List.mem_cons_of_mem _ htop, habove⟩

/-- Depths in a fitting forest are lengths of chains. -/
theorem chain_of_mem_depths (h : Links n root parent children) {t : Forest Nat}
    (ht : t.Fits children) {k : Nat} (htops : ∀ top ∈ t.tops, Chain parent root top k)
    {slot d : Nat} (hs : (slot, d) ∈ t.depths k) : Chain parent root slot d := by
  induction t generalizing k with
  | nil => simp [Forest.depths] at hs
  | cons a below rest ihb ihr =>
    obtain ⟨hbtops, hb, hr⟩ := ht
    have ha : Chain parent root a k := htops a (List.mem_cons_self ..)
    rw [Forest.depths, List.mem_cons, List.mem_append] at hs
    -- The node itself, a node below it, or one of the rest of the forest.
    rcases hs with hs | hs | hs
    · rw [Prod.mk.injEq] at hs
      rw [hs.1, hs.2]
      exact ha
    · refine ihb hb (fun top htop => ?_) hs
      exact .child (h.mem_children.mp (hbtops ▸ htop)) ha
    · exact ihr hr (fun top htop => htops top (List.mem_cons_of_mem _ htop)) hs

/--
A fitting forest repeats no slot if its top slots are different ones at one level: two trees that
shared a slot would have the same slot above it at that level, hence the same top.
-/
theorem nodup_labels (h : Links n root parent children) {t : Forest Nat} (ht : t.Fits children)
    {k : Nat} (hnodup : t.tops.Nodup) (htops : ∀ top ∈ t.tops, Chain parent root top k) :
    t.labels.Nodup := by
  induction t generalizing k with
  | nil => exact List.nodup_nil
  | cons a below rest ihb ihr =>
    obtain ⟨hbtops, hb, hr⟩ := ht
    obtain ⟨ha, hrest⟩ := List.nodup_cons.mp hnodup
    have hchain : Chain parent root a k := htops a (List.mem_cons_self ..)
    have hrtops : ∀ top ∈ rest.tops, Chain parent root top k := fun top htop =>
      htops top (List.mem_cons_of_mem _ htop)
    -- a slot of the trees behind `a` that lies some steps below `a` has its top at the same level
    have hapart : ∀ j slot, slot ∈ rest.labels → above parent j slot ≠ some a := by
      intro j slot hs habove
      obtain ⟨i, top, htop, htopAbove⟩ := h.exists_above hr hs
      have hji : k + j = k + i := Chain.unique h.parent_root (.of_above habove hchain)
        (.of_above htopAbove (hrtops top htop))
      obtain rfl : j = i := by omega
      rw [habove, Option.some.injEq] at htopAbove
      exact ha (htopAbove ▸ htop)
    have hbelow : ∀ slot ∈ below.labels, ∃ j, above parent (j + 1) slot = some a := by
      intro slot hs
      obtain ⟨j, top, htop, habove⟩ := h.exists_above hb hs
      exact ⟨j, above_succ habove (h.mem_children.mp (hbtops ▸ htop))⟩
    rw [Forest.labels, List.nodup_cons, List.mem_append, List.nodup_append]
    refine ⟨?_, ?_, ihr hr hrest hrtops, ?_⟩
    · -- `a` stands neither below itself nor in the trees behind it
      rintro (hs | hs)
      · obtain ⟨j, habove⟩ := hbelow a hs
        have := Chain.unique h.parent_root hchain (.of_above habove hchain)
        omega
      · exact hapart 0 a hs rfl
    · -- one level deeper the tops are the children of `a`
      have hbtopsChain : ∀ top ∈ below.tops, Chain parent root top (k + 1) := fun top htop =>
        .child (h.mem_children.mp (hbtops ▸ htop)) hchain
      exact ihb hb (hbtops ▸ h.nodup_children a) hbtopsChain
    · rintro s hs _ hs' rfl
      obtain ⟨j, habove⟩ := hbelow s hs
      exact hapart (j + 1) s hs' habove

/-! ## The walk from the root -/

/-- The root is the top of a fitting forest. -/
theorem exists_forest (h : Links n root parent children) :
    ∃ t : Forest Nat, t.tops = [root] ∧ t.Fits children := by
  refine Forest.exists_fits (Chain parent root) h.chain_lt
    (fun hk hc => .child (h.mem_children.mp hc) hk) n [root] ?_
  intro slot hs
  rw [List.mem_singleton] at hs
  exact ⟨0, hs ▸ .root, by omega⟩

/-- Every slot that has a chain stands in the forest of the root. -/
theorem mem_labels_of_chain (h : Links n root parent children) {t : Forest Nat}
    (ht : t.Fits children) (htops : t.tops = [root]) {slot k : Nat}
    (hc : Chain parent root slot k) : slot ∈ t.labels := by
  induction hc with
  | root => exact Forest.mem_labels_of_mem_tops (htops ▸ List.mem_cons_self ..)
  | child hp _ ih => exact ht.mem_labels ih (h.mem_children.mpr hp)

/--
**The walk from the root.** It is the pre-order of a forest in which every slot stands once, and the
slots that it meets are those whose parents lead to the root. The limit is never reached early,
since the forest has at most `n` slots.
-/
theorem walk_chain (h : Links n root parent children) :
    ∃ t : Forest Nat, t.tops = [root] ∧ t.Fits children ∧ t.labels.Nodup ∧
      walk children n [(root, 0)] = t.depths 0 ∧
      ∀ slot d, (slot, d) ∈ t.depths 0 ↔ Chain parent root slot d := by
  obtain ⟨t, htops, ht⟩ := h.exists_forest
  have hroot : ∀ top ∈ t.tops, Chain parent root top 0 := by
    intro top htop
    rw [htops, List.mem_singleton] at htop
    exact htop ▸ .root
  have hnodup : t.labels.Nodup := h.nodup_labels ht (by simp [htops]) hroot
  have hchain : ∀ {slot d}, (slot, d) ∈ t.depths 0 → Chain parent root slot d :=
    fun hs => h.chain_of_mem_depths ht hroot hs
  refine ⟨t, htops, ht, hnodup, ?_, fun slot d => ⟨hchain, ?_⟩⟩
  · -- the limit is enough: no slot is met twice
    have hsub : t.labels ⊆ List.range n := by
      intro slot hs
      rw [← t.map_fst_depths 0, List.mem_map] at hs
      obtain ⟨⟨s, d⟩, hs, rfl⟩ := hs
      exact List.mem_range.mpr (h.chain_slot_lt (hchain hs))
    have hle := (hnodup.subperm hsub).length_le
    rw [List.length_range] at hle
    have hwalk := walk_fits ht (n - t.labels.length) 0 []
    rw [htops, Nat.add_sub_cancel' hle, walk_nil] at hwalk
    simpa using hwalk
  · -- a slot with a chain stands in the forest, at a depth that can only be its own
    intro hc
    have hmem := h.mem_labels_of_chain ht htops hc
    rw [← t.map_fst_depths 0, List.mem_map] at hmem
    obtain ⟨⟨s, d'⟩, hs, rfl⟩ := hmem
    rw [Chain.unique h.parent_root hc (hchain hs)]
    exact hs

end Links

end DesignCompiler
