import DesignCompiler.Proofs.Tree.Unfolding

/-!
# DesignCompiler — walks through a tree and its levels

The pre-order of a tree is met by an iterator, which keeps a stack of slots and knows no bound: it
stops when the stack is empty. On a built tree this happens after every slot was met once, and the
slots come in the order that a recursion over the lists of children gives. The depths of the nodes
are their distances from the root.

* `Yields`, `PageTree.next` — iterators, and a step of the one that walks through a tree;
* `PageTree.PreorderFrom` — the pre-order below a slot, by recursion;
* `PageTree.IsPath` — a path from the root down to some node;
* `yields_fits`, `preorderFrom_fits` — both pre-orders along a forest;
* `PageTree.Traversed` — what the walk and the depths of a tree are;
* `build_traversed` — it holds of every built tree.
-/

namespace DesignCompiler

/-! ## Iterators -/

/-- Stepping on from a state until there is no next item yields these items. -/
inductive Yields {σ α : Type} (next : σ → Option (α × σ)) : σ → List α → Prop where
  | done {s : σ} (h : next s = none) : Yields next s []
  | item {s s' : σ} {a : α} {as : List α} (h : next s = some (a, s')) (hrest : Yields next s' as) :
      Yields next s (a :: as)

theorem Yields.unique {σ α : Type} {next : σ → Option (α × σ)} {s : σ} {as bs : List α}
    (ha : Yields next s as) (hb : Yields next s bs) : as = bs := by
  induction ha generalizing bs with
  | done h =>
    cases hb with
    | done _ => rfl
    | item h' _ => exact nomatch h.symm.trans h'
  | item h _ ih =>
    cases hb with
    | done h' => exact nomatch h.symm.trans h'
    | item h' hrest =>
      obtain ⟨rfl, rfl⟩ := Prod.mk.inj (Option.some.inj (h.symm.trans h'))
      rw [ih hrest]

namespace PageTree

/-- A step of the walk: the slot on top of the stack, and the stack with its children in its
place. -/
def next (t : PageTree) : List Nat → Option (Nat × List Nat)
  | [] => none
  | slot :: rest => some (slot, t.children slot ++ rest)

/-- The pre-order below a slot: the slot, and then the pre-orders below its children, one after the
other. -/
inductive PreorderFrom (t : PageTree) : Nat → List Nat → Prop where
  | node {slot : Nat} {parts : List (List Nat)}
      (h : List.Forall₂ t.PreorderFrom (t.children slot) parts) :
      PreorderFrom t slot (slot :: parts.flatten)

/-- A path of slots that starts at the root and goes from a node to one of its children. -/
def IsPath (t : PageTree) (path : List Nat) : Prop :=
  path.head? = some t.root ∧ path.IsChain fun up child => child ∈ t.children up

end PageTree

/-! ## Along a forest -/

/-- The walk meets a forest on top of the stack in pre-order, and then what waits behind it. -/
theorem yields_fits {t : PageTree} {f : Forest Nat} (hf : f.Fits t.children)
    {rest slots : List Nat} (h : Yields t.next rest slots) :
    Yields t.next (f.tops ++ rest) (f.labels ++ slots) := by
  induction f generalizing rest slots with
  | nil => exact h
  | cons slot below others ihb ihr =>
    obtain ⟨htops, hb, hr⟩ := hf
    have hbelow := ihb hb (ihr hr h)
    rw [htops, ← List.append_assoc below.labels] at hbelow
    exact .item rfl hbelow

/-- Below the top slots of a forest stand its labels, cut into one part for each of them. -/
theorem preorderFrom_fits {t : PageTree} {f : Forest Nat} (hf : f.Fits t.children) :
    ∃ parts, List.Forall₂ t.PreorderFrom f.tops parts ∧ f.labels = parts.flatten := by
  induction f with
  | nil => exact ⟨[], .nil, rfl⟩
  | cons slot below others ihb ihr =>
    obtain ⟨htops, hb, hr⟩ := hf
    obtain ⟨bparts, hbparts, hblabels⟩ := ihb hb
    obtain ⟨rparts, hrparts, hrlabels⟩ := ihr hr
    refine ⟨(slot :: bparts.flatten) :: rparts, .cons (.node (htops ▸ hbparts)) hrparts, ?_⟩
    rw [Forest.labels, hblabels, hrlabels, List.flatten_cons, List.cons_append]

/-- No other lists are pre-orders below the top slots. -/
theorem flatten_eq_labels {t : PageTree} {f : Forest Nat} (hf : f.Fits t.children)
    {parts : List (List Nat)} (h : List.Forall₂ t.PreorderFrom f.tops parts) :
    parts.flatten = f.labels := by
  induction f generalizing parts with
  | nil =>
    cases h
    rfl
  | cons slot below others ihb ihr =>
    obtain ⟨htops, hb, hr⟩ := hf
    obtain _ | ⟨hslot, hothers⟩ := h
    obtain ⟨hparts⟩ := hslot
    rw [List.flatten_cons, ihb hb (htops ▸ hparts), ihr hr hothers]
    rfl

namespace Forest

variable {children : Nat → List Nat} {f : Forest Nat}

theorem mem_depths_of_mem_tops {slot : Nat} (h : slot ∈ f.tops) (k : Nat) :
    (slot, k) ∈ f.depths k := by
  induction f with
  | nil => exact nomatch h
  | cons a below rest _ ihr =>
    rcases List.mem_cons.mp h with rfl | h
    · exact List.mem_cons_self ..
    · exact List.mem_cons_of_mem _ (List.mem_append_right _ (ihr h))

/-- The children of a slot are one level deeper. -/
theorem Fits.child_mem_depths (hf : f.Fits children) {k slot d child : Nat}
    (hs : (slot, d) ∈ f.depths k) (hc : child ∈ children slot) :
    (child, d + 1) ∈ f.depths k := by
  induction f generalizing k with
  | nil => exact nomatch hs
  | cons a below rest ihb ihr =>
    obtain ⟨htops, hb, hr⟩ := hf
    rw [depths, List.mem_cons, List.mem_append] at hs ⊢
    rcases hs with hs | hs | hs
    · obtain ⟨rfl, rfl⟩ := Prod.mk.inj hs
      exact Or.inr (Or.inl (mem_depths_of_mem_tops (htops ▸ hc) _))
    · exact Or.inr (Or.inl (ihb hb hs))
    · exact Or.inr (Or.inr (ihr hr hs))

/-- A slot stands at the top, or one level below the slot whose child it is. -/
theorem Fits.top_or_child (hf : f.Fits children) {k slot d : Nat} (hs : (slot, d) ∈ f.depths k) :
    (slot ∈ f.tops ∧ d = k) ∨
      ∃ up e, (up, e) ∈ f.depths k ∧ slot ∈ children up ∧ d = e + 1 := by
  induction f generalizing k with
  | nil => exact nomatch hs
  | cons a below rest ihb ihr =>
    obtain ⟨htops, hb, hr⟩ := hf
    have hmem : ∀ {p}, p ∈ below.depths (k + 1) ∨ p ∈ rest.depths k →
        p ∈ (cons a below rest).depths k := by
      intro p hp
      rw [depths, List.mem_cons, List.mem_append]
      exact Or.inr hp
    rw [depths, List.mem_cons, List.mem_append] at hs
    rcases hs with hs | hs | hs
    · obtain ⟨rfl, rfl⟩ := Prod.mk.inj hs
      exact Or.inl ⟨List.mem_cons_self .., rfl⟩
    · -- the tops below `a` are its children
      rcases ihb hb hs with ⟨htop, rfl⟩ | ⟨up, e, hup, hchild, rfl⟩
      · exact Or.inr ⟨a, k, List.mem_cons_self .., htops ▸ htop, rfl⟩
      · exact Or.inr ⟨up, e, hmem (Or.inl hup), hchild, rfl⟩
    · rcases ihr hr hs with ⟨htop, rfl⟩ | ⟨up, e, hup, hchild, rfl⟩
      · exact Or.inl ⟨List.mem_cons_of_mem _ htop, rfl⟩
      · exact Or.inr ⟨up, e, hmem (Or.inr hup), hchild, rfl⟩

end Forest

/-! ## Depths -/

namespace PageTree.Unfolds

variable {t : PageTree} {f : Forest Nat}

theorem mem_depths (h : t.Unfolds f) {slot : Nat} {n : Node} (hn : t.nodes[slot]? = some n) :
    (slot, n.depth) ∈ f.depths 0 := by
  have hlt : slot < t.size := (List.getElem?_eq_some_iff.mp hn).1
  have hslot : slot ∈ f.labels := h.mem_labels_iff.mpr hlt
  rw [← f.map_fst_depths 0, List.mem_map] at hslot
  obtain ⟨⟨_, d⟩, hd, rfl⟩ := hslot
  obtain ⟨m, hm, hmd⟩ := h.depth _ d hd
  obtain rfl : n = m := Option.some.inj (hn.symm.trans hm)
  exact hmd ▸ hd

theorem root_depth (h : t.Unfolds f) : ∃ r, t.nodes[t.root]? = some r ∧ r.depth = 0 :=
  h.depth _ _ (Forest.mem_depths_of_mem_tops (h.tops ▸ List.mem_cons_self ..) 0)

/-- Another node than the root is a child one level below its parent. -/
theorem exists_up (h : t.Unfolds f) {slot : Nat} {n : Node} (hn : t.nodes[slot]? = some n)
    (hroot : slot ≠ t.root) :
    ∃ up p, t.nodes[up]? = some p ∧ slot ∈ t.children up ∧ n.depth = p.depth + 1 := by
  rcases h.fits.top_or_child (h.mem_depths hn) with ⟨htop, -⟩ | ⟨up, e, hup, hchild, hd⟩
  · rw [h.tops, List.mem_singleton] at htop
    exact absurd htop hroot
  · obtain ⟨p, hp, rfl⟩ := h.depth up e hup
    exact ⟨up, p, hp, hchild, hd⟩

/-- Every node has a path with as many steps as its depth says. -/
theorem exists_path (h : t.Unfolds f) {slot d : Nat} (hs : (slot, d) ∈ f.depths 0) :
    ∃ path, t.IsPath path ∧ path.getLast? = some slot ∧ path.length = d + 1 := by
  -- a path to the parent, which is one level up, and one step more
  induction d generalizing slot with
  | zero =>
    rcases h.fits.top_or_child hs with ⟨htop, -⟩ | ⟨_, _, _, _, hd⟩
    · rw [h.tops, List.mem_singleton] at htop
      subst htop
      exact ⟨[t.root], ⟨rfl, .singleton _⟩, rfl, rfl⟩
    · exact nomatch hd
  | succ d ih =>
    rcases h.fits.top_or_child hs with ⟨-, hd⟩ | ⟨up, e, hup, hchild, hd⟩
    · exact nomatch hd
    · obtain rfl : d = e := Nat.succ.inj hd
      obtain ⟨path, ⟨hhead, hlinks⟩, hlast, hlen⟩ := ih hup
      refine ⟨path ++ [slot], ⟨?_, ?_⟩, by simp, by simp [hlen]⟩
      · rw [List.head?_append, hhead]
        rfl
      · refine List.isChain_append.mpr ⟨hlinks, .singleton _, ?_⟩
        simp [hlast, hchild]

/-- The last node of a path is as deep as the path has steps. -/
theorem mem_depths_of_isPath (h : t.Unfolds f) {path : List Nat} {slot : Nat}
    (hpath : t.IsPath (path ++ [slot])) : (slot, path.length) ∈ f.depths 0 := by
  -- from the end of the path, whose last step goes one level down
  induction path using List.reverseRecOn generalizing slot with
  | nil =>
    obtain rfl : slot = t.root := by simpa using hpath.1
    exact Forest.mem_depths_of_mem_tops (h.tops ▸ List.mem_cons_self ..) 0
  | append_singleton path up ih =>
    obtain ⟨hhead, hlinks⟩ := hpath
    obtain ⟨hup, -, hlink⟩ := List.isChain_append.mp hlinks
    have hbefore : t.IsPath (path ++ [up]) := ⟨by simpa using hhead, hup⟩
    rw [List.length_append, List.length_singleton]
    exact h.fits.child_mem_depths (ih hbefore) (hlink up (by simp) slot (by simp))

end PageTree.Unfolds

/-- The number of levels is one more than the greatest depth. -/
theorem PageTree.depth_eq_succ {t : PageTree} {n : Node} (hn : n ∈ t.nodes)
    (hmax : ∀ m ∈ t.nodes, m.depth ≤ n.depth) : t.depth = n.depth + 1 := by
  have hdeepest : (t.nodes.map Node.depth).max? = some n.depth := by
    rw [List.max?_eq_some_iff]
    refine ⟨List.mem_map_of_mem hn, fun d hd => ?_⟩
    obtain ⟨m, hm, rfl⟩ := List.mem_map.mp hd
    exact hmax m hm
  rw [PageTree.depth, List.foldl_max, hdeepest, Option.getD_some, Nat.zero_max]

/-- A list that is not empty has a node of greatest depth. -/
theorem exists_deepest {ns : List Node} (h : ns ≠ []) : ∃ n ∈ ns, ∀ m ∈ ns, m.depth ≤ n.depth := by
  obtain ⟨d, hd⟩ : ∃ d, (ns.map Node.depth).max? = some d :=
    Option.ne_none_iff_exists'.mp (by simpa [List.max?_eq_none_iff] using h)
  obtain ⟨hmem, hle⟩ := List.max?_eq_some_iff.mp hd
  obtain ⟨n, hn, rfl⟩ := List.mem_map.mp hmem
  exact ⟨n, hn, fun m hm => hle _ (List.mem_map_of_mem hm)⟩

/-- The number of levels is the number of nodes on the longest path from the root. -/
theorem PageTree.Unfolds.isGreatest_depth {t : PageTree} {f : Forest Nat} (h : t.Unfolds f) :
    IsGreatest {k | ∃ path, t.IsPath path ∧ path.length = k} t.depth := by
  obtain ⟨r, hr, -⟩ := h.root_depth
  obtain ⟨n, hn, hmax⟩ := exists_deepest (List.ne_nil_of_mem (List.mem_of_getElem? hr))
  rw [PageTree.depth_eq_succ hn hmax]
  constructor
  · obtain ⟨slot, hslot⟩ := List.mem_iff_getElem?.mp hn
    obtain ⟨path, hpath, -, hlen⟩ := h.exists_path (h.mem_depths hslot)
    exact ⟨path, hpath, hlen⟩
  · rintro _ ⟨path, hpath, rfl⟩
    -- a path has a last node, whose depth is at most the greatest
    rcases List.eq_nil_or_concat path with rfl | ⟨before, slot, rfl⟩
    · exact Nat.zero_le _
    · rw [List.concat_eq_append] at hpath ⊢
      obtain ⟨m, hm, hd⟩ := h.depth _ _ (h.mem_depths_of_isPath hpath)
      have hle := hmax m (List.mem_of_getElem? hm)
      rw [List.length_append, List.length_singleton]
      omega

/-! ## Built trees -/

/-- The walk from the root meets the labels of the forest, and stops then. -/
theorem PageTree.Unfolds.yields_iff {t : PageTree} {f : Forest Nat} (h : t.Unfolds f)
    {slots : List Nat} : Yields t.next [t.root] slots ↔ slots = f.labels := by
  have hwalk : Yields t.next [t.root] f.labels := by
    have hempty : Yields t.next [] [] := .done rfl
    have hyields := yields_fits h.fits hempty
    rwa [h.tops, List.append_nil, List.append_nil] at hyields
  exact ⟨fun hslots => hslots.unique hwalk, fun heq => heq ▸ hwalk⟩

theorem PageTree.Unfolds.preorderFrom_iff {t : PageTree} {f : Forest Nat} (h : t.Unfolds f)
    {slots : List Nat} : t.PreorderFrom t.root slots ↔ slots = f.labels := by
  constructor
  · intro hslots
    have hparts : List.Forall₂ t.PreorderFrom f.tops [slots] := h.tops ▸ .cons hslots .nil
    rw [← flatten_eq_labels h.fits hparts, List.flatten_cons, List.flatten_nil, List.append_nil]
  · rintro rfl
    obtain ⟨parts, hparts, hlabels⟩ := preorderFrom_fits h.fits
    -- the root is the only top slot, so there is one part
    rw [h.tops] at hparts
    obtain _ | ⟨hroot, hnil⟩ := hparts
    cases hnil
    rwa [hlabels, List.flatten_cons, List.flatten_nil, List.append_nil]

/-- The walk through a tree, and the depths of its nodes. -/
structure PageTree.Traversed (t : PageTree) : Prop where
  /-- The walk ends, and what it met until then is the pre-order of the tree. -/
  walk : ∀ slots, Yields t.next [t.root] slots ↔ slots = t.preorder
  length : t.preorder.length = t.size
  /-- Every slot is met, and only once. -/
  once : t.preorder.Perm (List.range t.size)
  recursion : ∀ slots, t.PreorderFrom t.root slots ↔ slots = t.preorder
  rootDepth : ∃ r, t.nodes[t.root]? = some r ∧ r.depth = 0
  depth : ∀ (slot : Nat) (n : Node), t.nodes[slot]? = some n → slot ≠ t.root →
    ∃ up p, n.parent = some up ∧ t.nodes[up]? = some p ∧ n.depth = p.depth + 1
  levels : IsGreatest {k | ∃ path, t.IsPath path ∧ path.length = k} t.depth

/-- Slots that are linked as child are linked as parent. -/
theorem parent_eq_of_mem_children {cs : List Component} {t : PageTree}
    (h : PageTree.build cs = .ok t) {slot up : Nat} {n p : Node} (hn : t.nodes[slot]? = some n)
    (hp : t.nodes[up]? = some p) (hchild : slot ∈ t.children up) : n.parent = some up := by
  obtain ⟨htree, ht, -⟩ := build_eq_arena h
  rw [PageTree.children, hp] at hchild
  obtain ⟨c, hc, hparent⟩ := (mem_children_iff ht hp).mp hchild
  obtain rfl : n = c := Option.some.inj (hn.symm.trans hc)
  exact (parent_eq_some_iff (nodup_ids_sortById.mpr htree.distinct) ht hn).mpr ⟨p, hp, hparent⟩

/--
**Walks end, and depths are distances.** The walk through a built tree meets every slot once and then
stops, in the order of the recursion over children. The root has depth 0, other nodes one more than
their parents, and the number of levels is the length of the longest path.
-/
theorem build_traversed {cs : List Component} {t : PageTree} (h : PageTree.build cs = .ok t) :
    t.Traversed := by
  obtain ⟨f, hf, hpre⟩ := exists_unfolds h
  refine
    { walk := fun slots => hpre ▸ hf.yields_iff, length := ?_, once := hpre ▸ hf.slots,
      recursion := fun slots => hpre ▸ hf.preorderFrom_iff, rootDepth := hf.root_depth,
      depth := ?_, levels := hf.isGreatest_depth }
  · rw [hpre, hf.slots.length_eq, List.length_range]
  · intro slot n hn hroot
    obtain ⟨up, p, hp, hchild, hd⟩ := hf.exists_up hn hroot
    exact ⟨up, p, parent_eq_of_mem_children h hn hp hchild, hp, hd⟩

/-- A box with a given place among the children of its parent. -/
def nestedBox (id : UInt64) (parent : Option UInt64) (order : Int64) : Component :=
  { id := ⟨id⟩, parentId := parent.map .mk, kind := "box", order }

/-- A root with two children, the later one painted first, and below these three more. -/
def nestedPage : List Component :=
  [nestedBox 1 (some 2) 0, nestedBox 2 (some 5) 1, nestedBox 3 (some 4) 0, nestedBox 4 (some 5) 0,
    nestedBox 5 none 0, nestedBox 6 (some 4) 0]

def nestedTree : PageTree where
  nodes :=
    [{ component := nestedBox 1 (some 2) 0, parent := some 1, children := [], depth := 2 },
      { component := nestedBox 2 (some 5) 1, parent := some 4, children := [0], depth := 1 },
      { component := nestedBox 3 (some 4) 0, parent := some 3, children := [], depth := 2 },
      { component := nestedBox 4 (some 5) 0, parent := some 4, children := [2, 5], depth := 1 },
      { component := nestedBox 5 none 0, parent := none, children := [3, 1], depth := 0 },
      { component := nestedBox 6 (some 4) 0, parent := some 3, children := [], depth := 2 }]
  root := 4
  pageId := none

theorem nestedTree_traversed :
    PageTree.build nestedPage = .ok nestedTree ∧ nestedTree.Traversed ∧
      nestedTree.preorder = [4, 3, 2, 5, 1, 0] ∧ nestedTree.depth = 3 :=
  ⟨by cbv, build_traversed (show PageTree.build nestedPage = _ by cbv), by cbv, by cbv⟩

end DesignCompiler
