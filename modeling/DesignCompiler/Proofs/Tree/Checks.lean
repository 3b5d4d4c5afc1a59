import DesignCompiler.Proofs.Tree.Conditions

/-!
# DesignCompiler — the checks of a component list

What each check on the sorted components accepts, and with which defect it refuses the others. The
check of the members compares neighbours only; in a sorted list this finds every repetition.

* `checkMembers_eq_ok_iff`, `checkMembers_eq_error_iff` — one page and different identifiers;
* `exists_onlyRoot_iff`, `onlyRoot_eq_error_iff` — one component without a parent;
* `checkParents_eq_ok_iff`, `checkParents_eq_error_iff` — every named parent is there.
-/

namespace DesignCompiler

/-! ## Members -/

/-- The first member that is at fault, after members that are not. Identifiers in `seen` count as
those of earlier members. -/
structure FaultAt (page : Option PageId) (seen : List ComponentId) (before : List Component)
    (c : Component) (d : Defect) : Prop where
  samePage : ∀ b ∈ before, b.pageId = page
  distinct : (seen ++ before.map Component.id).Nodup
  fault : c.pageId ≠ page ∧ d = .mixedPages c.id page c.pageId ∨
    c.pageId = page ∧ c.id ∈ seen ++ before.map Component.id ∧ d = .duplicateId c.id

/-- In a sorted list, an identifier that the neighbour does not have no later member has. -/
private theorem notMem_ids_of_lt {last : Option ComponentId} {c : Component} {cs : List Component}
    (hs : (c :: cs).Pairwise fun a b => a.id.toNat ≤ b.id.toNat)
    (hl : ∀ l ∈ last, ∀ b ∈ c :: cs, l.toNat ≤ b.id.toNat) (hne : last ≠ some c.id) :
    ∀ l ∈ last, ∀ b ∈ c :: cs, b.id ≠ l := by
  intro l hlast b hb heq
  have hlc : l.toNat ≤ c.id.toNat := hl l hlast c (List.mem_cons_self ..)
  have hcb : c.id.toNat ≤ b.id.toNat := by
    rcases List.mem_cons.mp hb with rfl | hb
    · exact Nat.le_refl _
    · exact (List.pairwise_cons.mp hs).1 b hb
  -- between two equal identifiers there is no room for another one
  rw [heq] at hcb
  have hlc : l = c.id := ComponentId.toNat_inj.mp (Nat.le_antisymm hlc hcb)
  exact hne (hlc ▸ hlast)

/-- Behind a sound member the neighbour's identifier replaces an earlier one that is met no more. -/
private theorem faultAt_cons_iff {page : Option PageId} {last : Option ComponentId}
    {c b : Component} {before : List Component} {d : Defect} (hpage : c.pageId = page)
    (hnew : ∀ l ∈ last, ∀ a ∈ c :: (before ++ [b]), a.id ≠ l) :
    FaultAt page last.toList (c :: before) b d ↔ FaultAt page (some c.id).toList before b d := by
  cases last with
  | none =>
    refine ⟨fun h => ⟨fun a ha => h.samePage a (List.mem_cons_of_mem _ ha), h.distinct, h.fault⟩,
      fun h => ⟨List.forall_mem_cons.mpr ⟨hpage, h.samePage⟩, h.distinct, h.fault⟩⟩
  | some l =>
    -- The identifier before the list is not met again in it.
    have hids : l ∉ (c :: before).map Component.id := by
      intro hmem
      obtain ⟨a, ha, hal⟩ := List.mem_map.mp hmem
      refine hnew l rfl a ?_ hal
      rw [← List.cons_append]
      exact List.mem_append_left _ ha
    have hb : b.id ≠ l := hnew l rfl b (by simp)
    constructor
    · intro h
      refine ⟨fun a ha => h.samePage a (List.mem_cons_of_mem _ ha), ?_, ?_⟩
      · exact (List.nodup_cons.mp h.distinct).2
      · simpa [hb] using h.fault
    · intro h
      refine ⟨List.forall_mem_cons.mpr ⟨hpage, h.samePage⟩, ?_, ?_⟩
      · exact List.nodup_cons.mpr ⟨hids, h.distinct⟩
      · simpa [hb] using h.fault

theorem checkMembers_eq_ok_iff {page : Option PageId} {last : Option ComponentId}
    {ss : List Component} (hs : ss.Pairwise fun a b => a.id.toNat ≤ b.id.toNat)
    (hl : ∀ l ∈ last, ∀ b ∈ ss, l.toNat ≤ b.id.toNat) :
    checkMembers page last ss = .ok () ↔
      (∀ c ∈ ss, c.pageId = page) ∧ (last.toList ++ ss.map Component.id).Nodup := by
  induction ss generalizing last with
  | nil => cases last <;> simp [checkMembers, pure, Except.pure]
  | cons c cs ih =>
    -- In ascending order, an identifier that is not repeated at once is not repeated at all.
    have hapart := notMem_ids_of_lt hs hl
    rw [List.pairwise_cons] at hs
    by_cases hpage : c.pageId = page
    · by_cases hlast : last = some c.id
      · simp [checkMembers, hpage, hlast]
      · rw [checkMembers, if_neg (not_not_intro hpage), if_neg hlast, ih hs.2 (by simpa using hs.1)]
        have hnew := hapart hlast
        cases last with
        | none => simp [hpage]
        | some l =>
          have hnot : l ∉ (c :: cs).map Component.id := by
            intro hmem
            obtain ⟨b, hb, hbl⟩ := List.mem_map.mp hmem
            exact hnew l rfl b hb hbl
          rw [List.map_cons] at hnot
          simp only [Option.toList_some, List.singleton_append, List.map_cons, List.nodup_cons,
            List.forall_mem_cons, hpage, true_and] at hnot ⊢
          simp only [hnot, not_false_eq_true, true_and]
    · simp [checkMembers, hpage]

section FirstMember

variable {page : Option PageId} {seen : List ComponentId} {last : Option ComponentId}
  {c : Component} {cs : List Component} {d : Defect}

/-- A fault in a list is at its first member or behind it. -/
private theorem exists_faultAt_cons_iff :
    (∃ before b after, c :: cs = before ++ b :: after ∧ FaultAt page seen before b d) ↔
      FaultAt page seen [] c d ∨
        ∃ before b after, cs = before ++ b :: after ∧ FaultAt page seen (c :: before) b d := by
  constructor
  · rintro ⟨before, b, after, hsplit, hfault⟩
    cases before with
    | nil =>
      rw [List.nil_append, List.cons.injEq] at hsplit
      exact Or.inl (hsplit.1 ▸ hfault)
    | cons a before =>
      rw [List.cons_append, List.cons.injEq] at hsplit
      obtain ⟨rfl, hrest⟩ := hsplit
      exact Or.inr ⟨before, b, after, hrest, hfault⟩
  · rintro (hfault | ⟨before, b, after, rfl, hfault⟩)
    · exact ⟨[], c, cs, rfl, hfault⟩
    · exact ⟨c :: before, b, after, rfl, hfault⟩

private theorem nodup_toList (last : Option ComponentId) : last.toList.Nodup := by
  cases last <;> simp

/-- A member on another page is at fault, and none behind it is the first one. -/
private theorem exists_faultAt_stranger_iff (hpage : c.pageId ≠ page) :
    (∃ before b after, c :: cs = before ++ b :: after ∧ FaultAt page last.toList before b d) ↔
      d = .mixedPages c.id page c.pageId := by
  rw [exists_faultAt_cons_iff]
  constructor
  · rintro (hfault | ⟨before, b, after, -, hfault⟩)
    · rcases hfault.fault with ⟨-, hd⟩ | ⟨hsame, -⟩
      · exact hd
      · exact absurd hsame hpage
    · exact absurd (hfault.samePage c (List.mem_cons_self ..)) hpage
  · rintro rfl
    exact Or.inl ⟨by simp, by simpa using nodup_toList last, Or.inl ⟨hpage, rfl⟩⟩

/-- So is one that repeats its neighbour. -/
private theorem exists_faultAt_repeated_iff (hpage : c.pageId = page) (hlast : last = some c.id) :
    (∃ before b after, c :: cs = before ++ b :: after ∧ FaultAt page last.toList before b d) ↔
      d = .duplicateId c.id := by
  rw [exists_faultAt_cons_iff]
  constructor
  · rintro (hfault | ⟨before, b, after, -, hfault⟩)
    · rcases hfault.fault with ⟨hne, -⟩ | ⟨-, -, hd⟩
      · exact absurd hpage hne
      · exact hd
    · have hdistinct := hfault.distinct
      simp [hlast] at hdistinct
  · rintro rfl
    exact Or.inl ⟨by simp, by simpa using nodup_toList last, Or.inr ⟨hpage, by simp [hlast], rfl⟩⟩

/-- Every other member is sound. -/
private theorem not_faultAt_of_sound (hpage : c.pageId = page) (hlast : last ≠ some c.id) :
    ¬ FaultAt page last.toList [] c d := by
  intro hfault
  rcases hfault.fault with ⟨hne, -⟩ | ⟨-, hmem, -⟩
  · exact hne hpage
  · exact hlast (by simpa [Option.mem_def] using hmem)

end FirstMember

theorem checkMembers_eq_error_iff {page : Option PageId} {last : Option ComponentId}
    {ss : List Component} {d : Defect} (hs : ss.Pairwise fun a b => a.id.toNat ≤ b.id.toNat)
    (hl : ∀ l ∈ last, ∀ b ∈ ss, l.toNat ≤ b.id.toNat) :
    checkMembers page last ss = .error d ↔
      ∃ before c after, ss = before ++ c :: after ∧ FaultAt page last.toList before c d := by
  induction ss generalizing last with
  | nil => simp [checkMembers, pure, Except.pure]
  | cons c cs ih =>
    have hapart := notMem_ids_of_lt hs hl
    rw [List.pairwise_cons] at hs
    by_cases hpage : c.pageId = page
    · by_cases hlast : last = some c.id
      · rw [checkMembers, if_neg (not_not_intro hpage), if_pos hlast, Except.error.injEq,
          exists_faultAt_repeated_iff hpage hlast, eq_comm]
      · -- the faults are those behind `c`
        rw [checkMembers, if_neg (not_not_intro hpage), if_neg hlast, ih hs.2 (by simpa using hs.1),
          exists_faultAt_cons_iff, or_iff_right (not_faultAt_of_sound hpage hlast)]
        constructor
        · rintro ⟨before, b, after, rfl, hfault⟩
          refine ⟨before, b, after, rfl, (faultAt_cons_iff hpage ?_).mpr hfault⟩
          exact fun l hl a ha => hapart hlast l hl a (by grind)
        · rintro ⟨before, b, after, rfl, hfault⟩
          refine ⟨before, b, after, rfl, (faultAt_cons_iff hpage ?_).mp hfault⟩
          exact fun l hl a ha => hapart hlast l hl a (by grind)
    · rw [checkMembers, if_pos hpage, Except.error.injEq, exists_faultAt_stranger_iff hpage, eq_comm]

/-! ## Roots -/

/-- The components without a parent, without their slots. -/
private theorem map_fst_filter_isRoot (ss : List Component) :
    (ss.zipIdx.filter (·.1.isRoot)).map Prod.fst = ss.filter (·.parentId = none) := by
  have h : ss.filter (·.parentId = none) = (ss.zipIdx.map Prod.fst).filter Component.isRoot := by
    rw [List.zipIdx_map_fst]
    refine List.filter_congr fun c _ => ?_
    cases hc : c.parentId <;> simp [Component.isRoot, hc]
  rw [h, List.filter_map]
  rfl

theorem onlyRoot_eq_ok {ss : List Component} {root : Nat} (h : onlyRoot ss = .ok root) :
    ∃ c, ss[root]? = some c ∧ ss.filter (·.parentId = none) = [c] := by
  have hmap := map_fst_filter_isRoot ss
  rw [onlyRoot] at h
  split at h
  · exact nomatch h
  · rename_i c slot hroots
    have hmem : (c, slot) ∈ ss.zipIdx := by
      have : (c, slot) ∈ ss.zipIdx.filter (·.1.isRoot) := hroots ▸ List.mem_cons_self ..
      exact (List.mem_filter.mp this).1
    obtain rfl : slot = root := Except.ok.inj h
    refine ⟨c, List.mk_mem_zipIdx_iff_getElem?.mp hmem, ?_⟩
    rw [← hmap, hroots]
    rfl
  · exact nomatch h

theorem exists_onlyRoot_iff {ss : List Component} :
    (∃ root, onlyRoot ss = .ok root) ↔ (ss.filter (·.parentId = none)).length = 1 := by
  rw [← map_fst_filter_isRoot, List.length_map, onlyRoot]
  split
  · rename_i hroots
    simp [hroots]
  · rename_i hroots
    simp [hroots, pure, Except.pure]
  · rename_i hnone hone
    rw [List.length_eq_one_iff]
    constructor
    · rintro ⟨_, h⟩
      exact nomatch h
    · rintro ⟨⟨c, slot⟩, hroots⟩
      exact absurd hroots (hone c slot)

theorem onlyRoot_eq_error_iff {ss : List Component} {d : Defect} :
    onlyRoot ss = .error d ↔
      ss.filter (·.parentId = none) = [] ∧ d = .noRoot ∨
      2 ≤ (ss.filter (·.parentId = none)).length ∧
        d = .multipleRoots ((ss.filter (·.parentId = none)).map Component.id) := by
  rw [← map_fst_filter_isRoot, List.length_map, List.map_eq_nil_iff, List.map_map, onlyRoot]
  split
  · rename_i hroots
    simp [hroots, eq_comm]
  · rename_i hroots
    simp [hroots, pure, Except.pure]
  · rename_i hnone hone
    have hlen : 2 ≤ (ss.zipIdx.filter (·.1.isRoot)).length := by
      match hroots : ss.zipIdx.filter (·.1.isRoot) with
      | [] => exact absurd hroots hnone
      | [(c, slot)] => exact absurd hroots (hone c slot)
      | _ :: _ :: _ => simp [hroots]
    rw [Except.error.injEq, or_iff_right (fun h => hnone h.1)]
    exact ⟨fun h => ⟨hlen, h.symm⟩, fun h => h.2.symm⟩

/-! ## Parents -/

theorem slot?_eq_none_iff {ss : List Component} {id : ComponentId} :
    slot? ss id = none ↔ ∀ c ∈ ss, c.id ≠ id := by
  simp [slot?, List.findIdx?_eq_none_iff]

theorem missingParent?_eq_some_iff {ss : List Component} {c : Component} {id : ComponentId} :
    missingParent? ss c = some id ↔ c.parentId = some id ∧ ∀ p ∈ ss, p.id ≠ id := by
  rw [missingParent?, Option.filter_eq_some_iff, Option.isNone_iff_eq_none, slot?_eq_none_iff]

theorem missingParent?_eq_none_iff {ss : List Component} {c : Component} :
    missingParent? ss c = none ↔ ∀ id, c.parentId = some id → ∃ p ∈ ss, p.id = id := by
  rw [Option.eq_none_iff_forall_ne_some]
  simp only [ne_eq, missingParent?_eq_some_iff, not_and, Classical.not_forall, Classical.not_not,
    exists_prop]

theorem checkParents_eq_ok_iff {ss : List Component} :
    checkParents ss = .ok () ↔
      ∀ c ∈ ss, ∀ id, c.parentId = some id → ∃ p ∈ ss, p.id = id := by
  have hnone : (ss.findSome? fun c => (missingParent? ss c).map (Defect.danglingParent c.id)) =
      none ↔ ∀ c ∈ ss, ∀ id, c.parentId = some id → ∃ p ∈ ss, p.id = id := by
    simp only [List.findSome?_eq_none_iff, Option.map_eq_none_iff, missingParent?_eq_none_iff]
  rw [← hnone, checkParents]
  split
  · rename_i hd
    simp [hd]
  · rename_i hd
    simp [hd, pure, Except.pure]

theorem checkParents_eq_error_iff {ss : List Component} {d : Defect} :
    checkParents ss = .error d ↔
      ∃ before c after id, ss = before ++ c :: after ∧
        (c.parentId = some id ∧ ∀ p ∈ ss, p.id ≠ id) ∧ d = .danglingParent c.id id ∧
        ∀ b ∈ before, ∀ id, b.parentId = some id → ∃ p ∈ ss, p.id = id := by
  have hsome : (ss.findSome? fun c => (missingParent? ss c).map (Defect.danglingParent c.id)) =
      some d ↔ ∃ before c after id, ss = before ++ c :: after ∧
        (c.parentId = some id ∧ ∀ p ∈ ss, p.id ≠ id) ∧ d = .danglingParent c.id id ∧
        ∀ b ∈ before, ∀ id, b.parentId = some id → ∃ p ∈ ss, p.id = id := by
    simp only [List.findSome?_eq_some_iff, Option.map_eq_some_iff, Option.map_eq_none_iff,
      missingParent?_eq_none_iff, missingParent?_eq_some_iff]
    constructor
    · rintro ⟨before, c, after, hsplit, ⟨id, hid, hd⟩, hbefore⟩
      exact ⟨before, c, after, id, hsplit, hid, hd.symm, hbefore⟩
    · rintro ⟨before, c, after, id, hsplit, hid, hd, hbefore⟩
      exact ⟨before, c, after, hsplit, ⟨id, hid, hd.symm⟩, hbefore⟩
  rw [← hsome, checkParents]
  split
  · rename_i e he
    simp [he]
  · rename_i he
    simp [he, pure, Except.pure]

end DesignCompiler
