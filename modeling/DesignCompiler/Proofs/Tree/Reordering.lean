import DesignCompiler.Emission.Compile
import DesignCompiler.Proofs.Tree.Classification
import Mathlib.Data.List.Permutation

/-!
# DesignCompiler — components in another order

What is built from components does not depend on the order in which they are listed. With different
identifiers the sorted list is always the same. With repeated ones the order does show, since
components with one identifier stay as they came; but the component to look at first has the least
identifier up to which the members are not sound, and this is said without any order.

* `SoundTo`, `FirstUnsound` — the members up to an identifier, and where they are no longer sound;
* `firstUnsound_of_build` — repeated identifiers are refused at that place;
* `sortById_eq_of_perm` — different identifiers have one sorted order;
* `BuildsAlike` — two lists that are the same to building, emission and compilation;
* `buildsAlike_of_perm` — lists with the same components are so.
-/

namespace DesignCompiler

/-! ## Repeated identifiers -/

/-- The components whose identifiers are not greater than a given one. -/
def membersTo (cs : List Component) (id : ComponentId) : List Component :=
  cs.filter (·.id.toNat ≤ id.toNat)

/-- The components up to an identifier stand on one page and have different identifiers. -/
structure SoundTo (cs : List Component) (id : ComponentId) : Prop where
  samePage : ∀ a ∈ membersTo cs id, ∀ b ∈ membersTo cs id, a.pageId = b.pageId
  distinct : ((membersTo cs id).map Component.id).Nodup

/-- The least identifier up to which the components are not sound. -/
structure FirstUnsound (cs : List Component) (id : ComponentId) : Prop where
  unsound : ¬ SoundTo cs id
  least : ∀ low : ComponentId, low.toNat < id.toNat → SoundTo cs low

theorem SoundTo.perm {cs ds : List Component} (h : cs.Perm ds) {id : ComponentId}
    (hs : SoundTo cs id) : SoundTo ds id := by
  have hmembers : (membersTo cs id).Perm (membersTo ds id) := h.filter _
  refine ⟨fun a ha b hb => ?_, (hmembers.map Component.id).nodup_iff.mp hs.distinct⟩
  exact hs.samePage a (hmembers.mem_iff.mpr ha) b (hmembers.mem_iff.mpr hb)

theorem FirstUnsound.perm {cs ds : List Component} (h : cs.Perm ds) {id : ComponentId}
    (hf : FirstUnsound cs id) : FirstUnsound ds id :=
  ⟨fun hs => hf.unsound (hs.perm h.symm), fun low hlow => (hf.least low hlow).perm h⟩

theorem FirstUnsound.unique {cs : List Component} {id id' : ComponentId} (h : FirstUnsound cs id)
    (h' : FirstUnsound cs id') : id = id' := by
  rw [← ComponentId.toNat_inj]
  rcases Nat.lt_trichotomy id.toNat id'.toNat with hlt | heq | hlt
  · exact absurd (h'.least id hlt) h.unsound
  · exact heq
  · exact absurd (h.least id' hlt) h'.unsound

section Faults

variable {before after : List Component} {c first : Component}

/-- The members before a component that is at fault are sound, up to any smaller identifier. -/
private theorem soundTo_of_before
    (hs : (before ++ c :: after).Pairwise fun a b => a.id.toNat ≤ b.id.toNat)
    (hpage : ∀ b ∈ before, b.pageId = first.pageId) (hd : (before.map Component.id).Nodup)
    {low : ComponentId} (hlow : low.toNat < c.id.toNat) : SoundTo (before ++ c :: after) low := by
  have hbehind : ∀ b ∈ c :: after, ¬ b.id.toNat ≤ low.toNat := by
    intro b hb
    rw [List.pairwise_append, List.pairwise_cons] at hs
    rcases List.mem_cons.mp hb with rfl | hb
    · omega
    · have := hs.2.1.1 b hb
      omega
  -- so the members up to `low` all stand before `c`
  have hmembers : membersTo (before ++ c :: after) low = membersTo before low := by
    have hnil : membersTo (c :: after) low = [] := by
      simpa only [membersTo, List.filter_eq_nil_iff, decide_eq_true_eq] using hbehind
    rw [membersTo, List.filter_append, ← membersTo, ← membersTo, hnil, List.append_nil]
  constructor
  · rw [hmembers]
    intro a ha b hb
    rw [hpage a (List.mem_filter.mp ha).1, hpage b (List.mem_filter.mp hb).1]
  · rw [hmembers]
    exact (List.filter_sublist.map _).nodup hd

/-- A component on another page than the first is among the members up to it, and so is one whose
identifier an earlier component has. -/
private theorem not_soundTo_of_fault
    (hs : (before ++ c :: after).Pairwise fun a b => a.id.toNat ≤ b.id.toNat)
    (hfirst : (before ++ [c]).head? = some first)
    (hfault : c.pageId ≠ first.pageId ∨ ∃ b ∈ before, b.id = c.id) :
    ¬ SoundTo (before ++ c :: after) c.id := by
  intro hsound
  have hle : ∀ b ∈ before ++ [c], b ∈ membersTo (before ++ c :: after) c.id := by
    intro b hb
    rw [membersTo, List.mem_filter, decide_eq_true_eq]
    rw [List.pairwise_append] at hs
    rcases List.mem_append.mp hb with hb | hb
    · exact ⟨List.mem_append_left _ hb, hs.2.2 b hb c (List.mem_cons_self ..)⟩
    · rw [List.mem_singleton] at hb
      subst hb
      exact ⟨by simp, Nat.le_refl _⟩
  rcases hfault with hpage | ⟨b, hb, hid⟩
  · exact hpage (hsound.samePage c (hle c (by simp)) first (hle first (List.mem_of_head? hfirst)))
  · -- the earlier component and `c` are two members with one identifier
    have hdistinct := hsound.distinct
    rw [membersTo, List.filter_append, List.map_append, List.nodup_append] at hdistinct
    have hleft : b ∈ before.filter (·.id.toNat ≤ c.id.toNat) :=
      List.mem_filter.mpr ⟨hb, by simp [hid]⟩
    have hright : c ∈ (c :: after).filter (·.id.toNat ≤ c.id.toNat) :=
      List.mem_filter.mpr ⟨List.mem_cons_self .., by simp⟩
    exact hdistinct.2.2 b.id (List.mem_map_of_mem hleft) c.id (List.mem_map_of_mem hright) hid

end Faults

theorem firstUnsound_of_soundUpTo {cs before : List Component} {c first : Component}
    (hb : SoundUpTo cs before c first)
    (hfault : c.pageId ≠ first.pageId ∨ ∃ b ∈ before, b.id = c.id) : FirstUnsound cs c.id := by
  obtain ⟨-, after, -, hsplit⟩ := hb.exists_split
  have hs := sortById_ascending cs
  have hperm := sortById_perm cs
  rw [hsplit] at hs hperm
  refine FirstUnsound.perm hperm ⟨not_soundTo_of_fault hs hb.first_eq hfault, fun low hlow => ?_⟩
  exact soundTo_of_before hs hb.samePage hb.distinct hlow

/-- Components with repeated identifiers are refused at the first place where they are unsound. -/
theorem firstUnsound_of_build {cs : List Component} {d : Defect}
    (hd : ¬ (cs.map Component.id).Nodup) (h : PageTree.build cs = .error d) :
    ∃ id, d.componentId = some id ∧ FirstUnsound cs id := by
  cases firstDefect_of_build h with
  | empty hnil => exact absurd (by simp [hnil]) hd
  | mixedPages hb hc => exact ⟨_, rfl, firstUnsound_of_soundUpTo hb (Or.inl hc)⟩
  | duplicateId hb _ hc => exact ⟨_, rfl, firstUnsound_of_soundUpTo hb (Or.inr hc)⟩
  -- the other defects are found in lists with different identifiers only
  | noRoot hm _ => exact absurd hm.distinct hd
  | multipleRoots hm _ _ => exact absurd hm.distinct hd
  | danglingParent hm _ _ _ _ => exact absurd hm.distinct hd
  | cycleOrOrphan hm _ _ => exact absurd hm.distinct hd

/-! ## Different identifiers -/

theorem sortById_eq_of_perm {cs ds : List Component} (h : cs.Perm ds)
    (hd : (cs.map Component.id).Nodup) : sortById cs = sortById ds := by
  have hd' : (ds.map Component.id).Nodup := (h.map _).nodup_iff.mp hd
  have hperm : (sortById cs).Perm (sortById ds) :=
    (sortById_perm cs).trans (h.trans (sortById_perm ds).symm)
  refine hperm.eq_of_pairwise (fun a b _ _ hab hba => ?_) (sortById_strict hd) (sortById_strict hd')
  omega

theorem build_eq_of_perm {cs ds : List Component} (h : cs.Perm ds)
    (hd : (cs.map Component.id).Nodup) : PageTree.build cs = PageTree.build ds := by
  rw [PageTree.build, PageTree.build, sortById_eq_of_perm h hd]

theorem build_eq_of_perm_of_ok {cs ds : List Component} (h : cs.Perm ds) {t : PageTree}
    (hb : PageTree.build cs = .ok t ∨ PageTree.build ds = .ok t) :
    PageTree.build cs = PageTree.build ds := by
  rcases hb with hb | hb
  · exact build_eq_of_perm h (exists_build_iff.mp ⟨t, hb⟩).distinct
  · exact (build_eq_of_perm h.symm (exists_build_iff.mp ⟨t, hb⟩).distinct).symm

/-! ## The same to all stages -/

/-- Two lists of components that make no difference: not to the tree or the component at fault, and
if there is a tree, not to its code either. -/
structure BuildsAlike (cs ds : List Component) : Prop where
  outcome : (∃ t, PageTree.build cs = .ok t ∧ PageTree.build ds = .ok t) ∨
    ∃ d e, PageTree.build cs = .error d ∧ PageTree.build ds = .error e ∧
      d.componentId = e.componentId
  /-- Different identifiers give the same defect too. -/
  distinct : (cs.map Component.id).Nodup → PageTree.build cs = PageTree.build ds
  emitted : ∀ t, PageTree.build cs = .ok t ∨ PageTree.build ds = .ok t → ∀ s,
    emitComponents s cs = emitComponents s ds
  compiled : ∀ t, PageTree.build cs = .ok t ∨ PageTree.build ds = .ok t → ∀ s,
    compileComponents s cs = compileComponents s ds

theorem emitComponents_congr {cs ds : List Component} (h : PageTree.build cs = PageTree.build ds)
    (s : Settings) : emitComponents s cs = emitComponents s ds := by
  rw [emitComponents, emitComponents, h]

theorem compileComponents_congr {cs ds : List Component}
    (h : PageTree.build cs = PageTree.build ds) (s : Settings) :
    compileComponents s cs = compileComponents s ds := by
  simp only [compileComponents, compileNamed, emitComponents_congr h s]

/--
**The order of components does not matter.** Listed in another order they give the same tree, and
the same code under all settings, or they are refused because of the same component. If identifiers
are different, they are refused with the same defect.
-/
theorem buildsAlike_of_perm {cs ds : List Component} (h : cs.Perm ds) : BuildsAlike cs ds := by
  refine
    { outcome := ?_, distinct := build_eq_of_perm h,
      emitted := fun _ hb s => emitComponents_congr (build_eq_of_perm_of_ok h hb) s,
      compiled := fun _ hb s => compileComponents_congr (build_eq_of_perm_of_ok h hb) s }
  cases hc : PageTree.build cs with
  | ok t => exact Or.inl ⟨t, rfl, (build_eq_of_perm_of_ok h (Or.inl hc)).symm.trans hc⟩
  | error d =>
    cases hd : PageTree.build ds with
    | ok t => exact Or.inl ⟨t, hc.symm.trans ((build_eq_of_perm_of_ok h (Or.inr hd)).trans hd), rfl⟩
    | error e =>
      refine Or.inr ⟨d, e, rfl, rfl, ?_⟩
      by_cases hids : (cs.map Component.id).Nodup
      · -- one defect
        have heq := build_eq_of_perm h hids
        rw [hc, hd, Except.error.injEq] at heq
        rw [heq]
      · -- two defects, at one place
        obtain ⟨id, hid, hfirst⟩ := firstUnsound_of_build hids hc
        obtain ⟨id', hid', hfirst'⟩ :=
          firstUnsound_of_build (mt (h.map Component.id).nodup_iff.mpr hids) hd
        rw [hid, hid', (hfirst.perm h).unique hfirst']

/-- A page whose second identifier is given three times, once on another page. -/
def repeatedPage : List Component :=
  [{ id := ⟨2⟩, parentId := some ⟨1⟩, pageId := some ⟨7⟩, kind := "text" },
    { id := ⟨1⟩, pageId := some ⟨7⟩, kind := "container" },
    { id := ⟨2⟩, parentId := some ⟨1⟩, pageId := some ⟨7⟩, kind := "image" },
    { id := ⟨2⟩, parentId := some ⟨1⟩, pageId := some ⟨8⟩, kind := "button" }]

/-- Read from its end, the page has another defect, at the same component. -/
theorem repeatedPage_reverse_buildsAlike :
    repeatedPage.Perm repeatedPage.reverse ∧ BuildsAlike repeatedPage repeatedPage.reverse ∧
      PageTree.build repeatedPage = .error (.duplicateId ⟨2⟩) ∧
      PageTree.build repeatedPage.reverse = .error (.mixedPages ⟨2⟩ (some ⟨7⟩) (some ⟨8⟩)) :=
  ⟨(List.reverse_perm _).symm, buildsAlike_of_perm (List.reverse_perm _).symm, by cbv, by cbv⟩

end DesignCompiler
