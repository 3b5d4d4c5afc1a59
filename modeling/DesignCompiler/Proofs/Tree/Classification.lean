import DesignCompiler.Proofs.Outcome
import DesignCompiler.Proofs.Tree.Checks
import DesignCompiler.Proofs.Tree.Slots

/-!
# DesignCompiler — which component lists are trees

Building a tree succeeds on the lists of components that are trees, and refuses every other list
with the first condition that it fails. The checks run on sorted components; here each of them is
turned into the condition on the list as it was given.

* `build_eq_ok_iff`, `build_eq_error_iff` — building, stage by stage;
* `soundMembers_iff`, `rootedMembers_iff`, `linkedMembers_iff`, `isTree_iff` — what the stages
  accept;
* `build_classifies` — the lists that are accepted, and the defect of each other one.
-/

namespace DesignCompiler

/-! ## Stages -/

theorem build_eq_ok_iff {cs : List Component} {t : PageTree} :
    PageTree.build cs = .ok t ↔
      ∃ first rest root, sortById cs = first :: rest ∧
        checkMembers first.pageId none (sortById cs) = .ok () ∧
        onlyRoot (sortById cs) = .ok root ∧ checkParents (sortById cs) = .ok () ∧
        checkMet (sortById cs) (reached (sortById cs) root) = .ok () ∧
        { nodes := PageTree.arena (sortById cs) (reached (sortById cs) root), root,
          pageId := first.pageId } = t := by
  unfold PageTree.build
  cases hs : sortById cs with
  | nil => simp [bind, Except.bind]
  | cons first rest =>
    simp only [pure_bind, bind_eq_ok_iff]
    constructor
    · rintro ⟨⟨⟩, hmembers, root, hroot, ⟨⟩, hparents, ⟨⟩, hmet, h⟩
      exact ⟨first, rest, root, rfl, hmembers, hroot, hparents, hmet, Except.ok.inj h⟩
    · rintro ⟨_, _, root, heq, hmembers, hroot, hparents, hmet, rfl⟩
      obtain ⟨rfl, rfl⟩ := List.cons.inj heq
      exact ⟨(), hmembers, root, hroot, (), hparents, (), hmet, rfl⟩

theorem build_eq_error_iff {cs : List Component} {d : Defect} :
    PageTree.build cs = .error d ↔
      sortById cs = [] ∧ d = .empty ∨
      ∃ first rest, sortById cs = first :: rest ∧
        (checkMembers first.pageId none (sortById cs) = .error d ∨
        checkMembers first.pageId none (sortById cs) = .ok () ∧
          (onlyRoot (sortById cs) = .error d ∨
          ∃ root, onlyRoot (sortById cs) = .ok root ∧
            (checkParents (sortById cs) = .error d ∨
            checkParents (sortById cs) = .ok () ∧
              checkMet (sortById cs) (reached (sortById cs) root) = .error d))) := by
  unfold PageTree.build
  cases hs : sortById cs with
  | nil => simp [bind, Except.bind, eq_comm]
  | cons first rest =>
    -- The last step cannot fail: only a check can.
    have hpure : ∀ t : PageTree, (pure t : Except Defect PageTree) ≠ .error d := nofun
    simp only [pure_bind, bind_eq_error_iff, hpure, and_false, exists_false, or_false]
    constructor
    · rintro (h | ⟨⟨⟩, hmembers, h⟩)
      · exact Or.inr ⟨first, rest, rfl, Or.inl h⟩
      · refine Or.inr ⟨first, rest, rfl, Or.inr ⟨hmembers, h.imp_right ?_⟩⟩
        rintro ⟨root, hroot, h⟩
        exact ⟨root, hroot, h.imp_right fun ⟨_, hparents, h⟩ => ⟨hparents, h⟩⟩
    · rintro (⟨h, -⟩ | ⟨_, _, heq, h⟩)
      · exact nomatch h
      · obtain ⟨rfl, rfl⟩ := List.cons.inj heq
        refine h.imp_right fun ⟨hmembers, h⟩ => ⟨(), hmembers, h.imp_right ?_⟩
        rintro ⟨root, hroot, h⟩
        exact ⟨root, hroot, h.imp_right fun ⟨hparents, h⟩ => ⟨(), hparents, h⟩⟩

/-! ## What the stages accept -/

theorem sortById_eq_nil {cs : List Component} : sortById cs = [] ↔ cs = [] := by
  rw [← List.length_eq_zero_iff, (sortById_perm cs).length_eq, List.length_eq_zero_iff]

theorem nodup_ids_sortById {cs : List Component} :
    ((sortById cs).map Component.id).Nodup ↔ (cs.map Component.id).Nodup :=
  ((sortById_perm cs).map _).nodup_iff

/-- Different identifiers ascend strictly. -/
theorem sortById_strict {cs : List Component} (hd : (cs.map Component.id).Nodup) :
    (sortById cs).Pairwise fun a b => a.id.toNat < b.id.toNat := by
  have hne := List.pairwise_map.mp (nodup_ids_sortById.mpr hd)
  refine (sortById_ascending cs).imp₂ (fun a b hle hab => ?_) hne
  exact Nat.lt_of_le_of_ne hle fun h => hab (ComponentId.toNat_inj.mp h)

/-- Which chains of parents end at a root does not depend on the order of the components. -/
theorem ReachesRoot.of_subset {cs ss : List Component} (h : ∀ c ∈ cs, c ∈ ss) {c : Component}
    (hc : ReachesRoot cs c) : ReachesRoot ss c := by
  induction hc with
  | root hc hroot => exact .root (h _ hc) hroot
  | child hc hparent _ ih => exact .child (h _ hc) hparent ih

theorem reachesRoot_sortById {cs : List Component} {c : Component} :
    ReachesRoot (sortById cs) c ↔ ReachesRoot cs c :=
  ⟨.of_subset fun _ => mem_sortById.mp, .of_subset fun _ => mem_sortById.mpr⟩

theorem areIds_sortById {ids : List ComponentId} {cs : List Component} {p : Component → Prop} :
    AreIds ids (sortById cs) p ↔ AreIds ids cs p := by
  constructor
  · intro h
    exact ⟨h.ascending, by simpa only [mem_sortById] using h.mem_iff⟩
  · intro h
    exact ⟨h.ascending, by simpa only [mem_sortById] using h.mem_iff⟩

/-- Only one list has the identifiers of the same components in ascending order. -/
theorem AreIds.unique {ids ids' : List ComponentId} {cs : List Component} {p : Component → Prop}
    (h : AreIds ids cs p) (h' : AreIds ids' cs p) : ids = ids' := by
  have hnodup : ∀ {l : List ComponentId}, l.Pairwise (fun a b => a.toNat < b.toNat) → l.Nodup :=
    fun hl => hl.imp fun hab heq => by simp [heq] at hab
  have hperm : ids.Perm ids' := by
    rw [List.perm_ext_iff_of_nodup (hnodup h.ascending) (hnodup h'.ascending)]
    intro id
    rw [h.mem_iff, h'.mem_iff]
  refine hperm.eq_of_pairwise (fun a b _ _ hab hba => ?_) h.ascending h'.ascending
  omega

theorem soundMembers_iff {cs : List Component} :
    SoundMembers cs ↔ ∃ first rest, sortById cs = first :: rest ∧
      checkMembers first.pageId none (sortById cs) = .ok () := by
  have hcheck : ∀ page, checkMembers page none (sortById cs) = .ok () ↔
      (∀ c ∈ cs, c.pageId = page) ∧ (cs.map Component.id).Nodup := by
    intro page
    rw [checkMembers_eq_ok_iff (sortById_ascending cs) (by simp), Option.toList_none,
      List.nil_append, nodup_ids_sortById]
    simp only [mem_sortById]
  simp only [hcheck]
  constructor
  · rintro ⟨hne, hpage, hd⟩
    obtain ⟨first, rest, hs⟩ := List.exists_cons_of_ne_nil (mt sortById_eq_nil.mp hne)
    have hfirst : first ∈ cs := mem_sortById.mp (hs ▸ List.mem_cons_self ..)
    exact ⟨first, rest, hs, fun c hc => hpage c hc first hfirst, hd⟩
  · rintro ⟨first, rest, hs, hpage, hd⟩
    refine ⟨?_, fun a ha b hb => (hpage a ha).trans (hpage b hb).symm, hd⟩
    intro hnil
    rw [sortById_eq_nil.mpr hnil] at hs
    exact nomatch hs

theorem rootedMembers_iff {cs : List Component} :
    RootedMembers cs ↔ SoundMembers cs ∧ ∃ root, onlyRoot (sortById cs) = .ok root := by
  rw [exists_onlyRoot_iff, ((sortById_perm cs).filter _).length_eq]
  exact ⟨fun h => ⟨h.toSoundMembers, h.oneRoot⟩, fun h => ⟨h.1, h.2⟩⟩

theorem linkedMembers_iff {cs : List Component} :
    LinkedMembers cs ↔ RootedMembers cs ∧ checkParents (sortById cs) = .ok () := by
  rw [checkParents_eq_ok_iff]
  simp only [mem_sortById]
  exact ⟨fun h => ⟨h.toRootedMembers, h.parents⟩, fun h => ⟨h.1, h.2⟩⟩

theorem checkMet_eq_ok_iff {cs : List Component} {met : List (Nat × Nat)} :
    checkMet cs met = .ok () ↔ unreached cs met = [] := by
  rw [checkMet]
  split
  · rename_i h
    simp [h, pure, Except.pure]
  · rename_i h
    exact ⟨nofun, fun heq => absurd heq h⟩

theorem checkMet_eq_error_iff {cs : List Component} {met : List (Nat × Nat)} {d : Defect} :
    checkMet cs met = .error d ↔ unreached cs met ≠ [] ∧ d = .cycleOrOrphan (unreached cs met) := by
  rw [checkMet]
  split
  · rename_i h
    simp [h, pure, Except.pure]
  · rename_i h
    rw [Except.error.injEq]
    exact ⟨fun heq => ⟨h, heq.symm⟩, fun heq => heq.2.symm⟩

/-- What the walk leaves out of the sorted components, said of the components as they were given. -/
theorem RootedMembers.unreached_areIds {cs : List Component} (h : RootedMembers cs) {root : Nat}
    (hroot : onlyRoot (sortById cs) = .ok root) :
    AreIds (unreached (sortById cs) (reached (sortById cs) root)) cs
      fun c => ¬ ReachesRoot cs c := by
  obtain ⟨r, hr, honly⟩ := onlyRoot_eq_ok hroot
  have hids := DesignCompiler.unreached_areIds (sortById_strict h.distinct)
    (nodup_ids_sortById.mpr h.distinct) hr honly
  simpa only [areIds_sortById, reachesRoot_sortById] using hids

theorem isTree_iff {cs : List Component} :
    IsTree cs ↔ LinkedMembers cs ∧ ∃ root, onlyRoot (sortById cs) = .ok root ∧
      checkMet (sortById cs) (reached (sortById cs) root) = .ok () := by
  constructor
  · intro h
    obtain ⟨-, root, hroot⟩ := rootedMembers_iff.mp h.toRootedMembers
    refine ⟨h.toLinkedMembers, root, hroot, checkMet_eq_ok_iff.mpr ?_⟩
    rw [List.eq_nil_iff_forall_not_mem]
    intro id hid
    obtain ⟨c, hc, hreach, -⟩ := ((h.toRootedMembers.unreached_areIds hroot).mem_iff id).mp hid
    exact hreach (h.rooted c hc)
  · rintro ⟨h, root, hroot, hmet⟩
    refine ⟨h, fun c hc => Classical.byContradiction fun hreach => ?_⟩
    -- A component that is not reached would be among those listed.
    have hid := ((h.toRootedMembers.unreached_areIds hroot).mem_iff c.id).mpr ⟨c, hc, hreach, rfl⟩
    rw [checkMet_eq_ok_iff.mp hmet] at hid
    exact nomatch hid

/-! ## With which defects they refuse -/

/-- The first member at fault, with the members before it. -/
theorem soundUpTo_of_faultAt {cs before after : List Component} {first c : Component}
    {rest : List Component} {d : Defect} (hs : sortById cs = first :: rest)
    (hsplit : sortById cs = before ++ c :: after) (h : FaultAt first.pageId [] before c d) :
    SoundUpTo cs before c first where
  sorted := ⟨after, hsplit ▸ stablySorted_sortById cs⟩
  first_eq := by
    rw [hs] at hsplit
    cases before with
    | nil => simp [(List.cons.inj hsplit).1]
    | cons b before => simp [(List.cons.inj hsplit).1]
  samePage := h.samePage
  distinct := h.distinct

/-- The members before one, and it, begin the sorted components. -/
theorem SoundUpTo.exists_split {cs before : List Component} {first c : Component}
    (h : SoundUpTo cs before c first) :
    ∃ rest after, sortById cs = first :: rest ∧ sortById cs = before ++ c :: after := by
  obtain ⟨after, hsorted⟩ := h.sorted
  have hfirst := h.first_eq
  rw [← hsorted.eq_sortById]
  cases before with
  | nil =>
    rw [List.nil_append, List.head?_cons, Option.some.injEq] at hfirst
    exact ⟨after, after, by rw [hfirst]; rfl, rfl⟩
  | cons b before =>
    rw [List.cons_append, List.head?_cons, Option.some.injEq] at hfirst
    exact ⟨before ++ c :: after, after, by rw [hfirst]; rfl, rfl⟩

/-- A failed check of the members shows mixed pages or a repeated identifier. -/
theorem checkMembers_refuses_iff {cs : List Component} {d : Defect} :
    (∃ first rest, sortById cs = first :: rest ∧
      checkMembers first.pageId none (sortById cs) = .error d) ↔
    ∃ before c first, SoundUpTo cs before c first ∧
      (c.pageId ≠ first.pageId ∧ d = .mixedPages c.id first.pageId c.pageId ∨
      c.pageId = first.pageId ∧ (∃ b ∈ before, b.id = c.id) ∧ d = .duplicateId c.id) := by
  have hcheck : ∀ page, checkMembers page none (sortById cs) = .error d ↔
      ∃ before c after, sortById cs = before ++ c :: after ∧ FaultAt page [] before c d :=
    fun page => checkMembers_eq_error_iff (sortById_ascending cs) (by simp)
  simp only [hcheck]
  constructor
  · rintro ⟨first, rest, hs, before, c, after, hsplit, h⟩
    refine ⟨before, c, first, soundUpTo_of_faultAt hs hsplit h, ?_⟩
    simpa only [List.nil_append, List.mem_map] using h.fault
  · rintro ⟨before, c, first, hb, hfault⟩
    obtain ⟨rest, after, hs, hsplit⟩ := hb.exists_split
    refine ⟨first, rest, hs, before, c, after, hsplit, hb.samePage, hb.distinct, ?_⟩
    simpa only [List.nil_append, List.mem_map] using hfault

/-- The identifiers of the components without a parent. -/
theorem roots_areIds {cs : List Component} (hd : (cs.map Component.id).Nodup) :
    AreIds (((sortById cs).filter (·.parentId = none)).map Component.id) cs
      fun c => c.parentId = none := by
  constructor
  · rw [List.pairwise_map]
    exact (sortById_strict hd).sublist List.filter_sublist
  · intro id
    simp only [List.mem_map, List.mem_filter, decide_eq_true_eq, mem_sortById, and_assoc]

theorem onlyRoot_refuses_iff {cs : List Component} {d : Defect} (h : SoundMembers cs) :
    onlyRoot (sortById cs) = .error d ↔
      (∀ c ∈ cs, c.parentId ≠ none) ∧ d = .noRoot ∨
      ∃ ids, 2 ≤ ids.length ∧ AreIds ids cs (fun c => c.parentId = none) ∧
        d = .multipleRoots ids := by
  have hnone : (sortById cs).filter (·.parentId = none) = [] ↔ ∀ c ∈ cs, c.parentId ≠ none := by
    simp only [List.filter_eq_nil_iff, mem_sortById, decide_eq_true_eq, ne_eq]
  rw [onlyRoot_eq_error_iff, hnone]
  refine or_congr_right ⟨?_, ?_⟩
  · rintro ⟨hlen, hd⟩
    exact ⟨_, by rwa [List.length_map], roots_areIds h.distinct, hd⟩
  · rintro ⟨ids, hlen, hids, hd⟩
    rw [hids.unique (roots_areIds h.distinct)] at hlen hd
    exact ⟨by rwa [List.length_map] at hlen, hd⟩

/-- The first component whose parent is missing has the smallest identifier of all such. -/
theorem checkParents_refuses_iff {cs : List Component} {d : Defect} (h : RootedMembers cs) :
    checkParents (sortById cs) = .error d ↔
      ∃ c ∈ cs, ∃ parent, (c.parentId = some parent ∧ ∀ p ∈ cs, p.id ≠ parent) ∧
        (∀ b ∈ cs, ∀ id, b.parentId = some id → (∀ p ∈ cs, p.id ≠ id) →
          c.id.toNat ≤ b.id.toNat) ∧ d = .danglingParent c.id parent := by
  have hstrict := sortById_strict h.distinct
  rw [checkParents_eq_error_iff]
  simp only [mem_sortById]
  constructor
  · rintro ⟨before, c, after, parent, hsplit, hmissing, hd, hbefore⟩
    have hmem : ∀ b, b ∈ cs ↔ b ∈ before ++ c :: after := fun b => by rw [← hsplit, mem_sortById]
    refine ⟨c, by simp [hmem], parent, hmissing, fun b hb id hid hno => ?_, hd⟩
    rw [hsplit, List.pairwise_append, List.pairwise_cons] at hstrict
    rw [hmem, List.mem_append, List.mem_cons] at hb
    -- a component before `c` misses no parent, one behind it has a greater identifier
    rcases hb with hb | rfl | hb
    · obtain ⟨p, hp, heq⟩ := hbefore b hb id hid
      exact absurd heq (hno p hp)
    · exact Nat.le_refl _
    · exact Nat.le_of_lt (hstrict.2.1.1 b hb)
  · rintro ⟨c, hc, parent, hmissing, hleast, hd⟩
    obtain ⟨before, after, hsplit⟩ := List.append_of_mem (mem_sortById.mpr hc)
    refine ⟨before, c, after, parent, hsplit, hmissing, hd, fun b hb id hid => ?_⟩
    refine Classical.byContradiction fun hno => ?_
    have hbs : b ∈ cs := by
      rw [← mem_sortById, hsplit]
      exact List.mem_append_left _ hb
    have hle := hleast b hbs id hid fun p hp heq => hno ⟨p, hp, heq⟩
    rw [hsplit, List.pairwise_append] at hstrict
    have hlt := hstrict.2.2 b hb c (List.mem_cons_self ..)
    omega

theorem checkMet_refuses_iff {cs : List Component} {d : Defect} {root : Nat}
    (h : RootedMembers cs) (hroot : onlyRoot (sortById cs) = .ok root) :
    checkMet (sortById cs) (reached (sortById cs) root) = .error d ↔
      ∃ ids, ids ≠ [] ∧ AreIds ids cs (fun c => ¬ ReachesRoot cs c) ∧
        d = .cycleOrOrphan ids := by
  have hids := h.unreached_areIds hroot
  rw [checkMet_eq_error_iff]
  constructor
  · rintro ⟨hne, hd⟩
    exact ⟨_, hne, hids, hd⟩
  · rintro ⟨ids, hne, hids', hd⟩
    rw [hids'.unique hids] at hne hd
    exact ⟨hne, hd⟩

/-! ## Classification -/

theorem exists_build_iff {cs : List Component} : (∃ t, PageTree.build cs = .ok t) ↔ IsTree cs := by
  simp only [build_eq_ok_iff]
  constructor
  · rintro ⟨t, first, rest, root, hs, hmembers, hroot, hparents, hmet, -⟩
    have hsound : SoundMembers cs := soundMembers_iff.mpr ⟨first, rest, hs, hmembers⟩
    have hrooted : RootedMembers cs := rootedMembers_iff.mpr ⟨hsound, root, hroot⟩
    have hlinked : LinkedMembers cs := linkedMembers_iff.mpr ⟨hrooted, hparents⟩
    exact isTree_iff.mpr ⟨hlinked, root, hroot, hmet⟩
  · intro h
    obtain ⟨first, rest, hs, hmembers⟩ := soundMembers_iff.mp h.toSoundMembers
    obtain ⟨hlinked, root, hroot, hmet⟩ := isTree_iff.mp h
    obtain ⟨-, hparents⟩ := linkedMembers_iff.mp hlinked
    exact ⟨_, first, rest, root, hs, hmembers, hroot, hparents, hmet, rfl⟩

/-- The defect is the first condition that fails. -/
theorem firstDefect_of_build {cs : List Component} {d : Defect}
    (h : PageTree.build cs = .error d) : FirstDefect cs d := by
  rcases build_eq_error_iff.mp h with ⟨hnil, rfl⟩ | ⟨first, rest, hs, h | ⟨hmembers, h⟩⟩
  · exact .empty (sortById_eq_nil.mp hnil)
  · obtain ⟨before, c, first, hb, hfault⟩ := checkMembers_refuses_iff.mp ⟨first, rest, hs, h⟩
    rcases hfault with ⟨hc, rfl⟩ | ⟨hpage, hc, rfl⟩
    · exact .mixedPages hb hc
    · exact .duplicateId hb hpage hc
  -- the members are sound, so the roots, the parents and the walk come next
  have hsound : SoundMembers cs := soundMembers_iff.mpr ⟨first, rest, hs, hmembers⟩
  rcases h with h | ⟨root, hroot, h⟩
  · rcases (onlyRoot_refuses_iff hsound).mp h with ⟨hno, rfl⟩ | ⟨ids, hlen, hids, rfl⟩
    · exact .noRoot hsound hno
    · exact .multipleRoots hsound hlen hids
  have hrooted : RootedMembers cs := rootedMembers_iff.mpr ⟨hsound, root, hroot⟩
  rcases h with h | ⟨hparents, h⟩
  · obtain ⟨c, hc, parent, ⟨hparent, hmissing⟩, hleast, rfl⟩ :=
      (checkParents_refuses_iff hrooted).mp h
    exact .danglingParent hrooted hc hparent hmissing hleast
  · obtain ⟨ids, hne, hids, rfl⟩ := (checkMet_refuses_iff hrooted hroot).mp h
    exact .cycleOrOrphan (linkedMembers_iff.mpr ⟨hrooted, hparents⟩) hne hids

/-- The first condition that fails is found: the stages before it succeed, and its own does not. -/
theorem build_of_firstDefect {cs : List Component} {d : Defect} (h : FirstDefect cs d) :
    PageTree.build cs = .error d := by
  rw [build_eq_error_iff]
  -- Each defect is refused by its own check, after all the checks before it have passed.
  cases h with
  | empty h => exact Or.inl ⟨sortById_eq_nil.mpr h, rfl⟩
  | mixedPages hb hc =>
    obtain ⟨first, rest, hs, h⟩ :=
      checkMembers_refuses_iff.mpr ⟨_, _, _, hb, Or.inl ⟨hc, rfl⟩⟩
    exact Or.inr ⟨first, rest, hs, Or.inl h⟩
  | duplicateId hb hpage hc =>
    obtain ⟨first, rest, hs, h⟩ :=
      checkMembers_refuses_iff.mpr ⟨_, _, _, hb, Or.inr ⟨hpage, hc, rfl⟩⟩
    exact Or.inr ⟨first, rest, hs, Or.inl h⟩
  | noRoot hm h =>
    obtain ⟨first, rest, hs, hmembers⟩ := soundMembers_iff.mp hm
    have hroot := (onlyRoot_refuses_iff hm).mpr (Or.inl ⟨h, rfl⟩)
    exact Or.inr ⟨first, rest, hs, Or.inr ⟨hmembers, Or.inl hroot⟩⟩
  | multipleRoots hm hlen hids =>
    obtain ⟨first, rest, hs, hmembers⟩ := soundMembers_iff.mp hm
    have hroot := (onlyRoot_refuses_iff hm).mpr (Or.inr ⟨_, hlen, hids, rfl⟩)
    exact Or.inr ⟨first, rest, hs, Or.inr ⟨hmembers, Or.inl hroot⟩⟩
  | danglingParent hm hc hparent hmissing hleast =>
    obtain ⟨hsound, root, hroot⟩ := rootedMembers_iff.mp hm
    obtain ⟨first, rest, hs, hmembers⟩ := soundMembers_iff.mp hsound
    have hparents := (checkParents_refuses_iff hm).mpr
      ⟨_, hc, _, ⟨hparent, hmissing⟩, hleast, rfl⟩
    exact Or.inr ⟨first, rest, hs, Or.inr ⟨hmembers, Or.inr ⟨root, hroot, Or.inl hparents⟩⟩⟩
  | cycleOrOrphan hm hne hids =>
    obtain ⟨hrooted, hparents⟩ := linkedMembers_iff.mp hm
    obtain ⟨hsound, root, hroot⟩ := rootedMembers_iff.mp hrooted
    obtain ⟨first, rest, hs, hmembers⟩ := soundMembers_iff.mp hsound
    have hmet := (checkMet_refuses_iff hrooted hroot).mpr ⟨_, hne, hids, rfl⟩
    exact Or.inr ⟨first, rest, hs,
      Or.inr ⟨hmembers, Or.inr ⟨root, hroot, Or.inr ⟨hparents, hmet⟩⟩⟩⟩

/--
**Classification.** A tree is built from the lists of components that are trees, and every other
list is refused with the first condition that it fails.
-/
theorem build_classifies (cs : List Component) :
    ((∃ t, PageTree.build cs = .ok t) ↔ IsTree cs) ∧
      ∀ d, PageTree.build cs = .error d ↔ FirstDefect cs d :=
  ⟨exists_build_iff, fun _ => ⟨firstDefect_of_build, build_of_firstDefect⟩⟩

end DesignCompiler
