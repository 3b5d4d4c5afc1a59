import DesignCompiler.Proofs.Tree.Reordering

/-!
# DesignCompiler — defects that depend on the order

Components with one identifier are sorted in the order in which they came, and the first of them
that is at fault decides about the defect. In another order this can be another component, one with
another page or another fault.

* `SoundBelow`, `sortById_split` — the members below an identifier, and where they are sorted to;
* `TiedDefect` — the defects that are found in some order, said without one;
* `tiedDefect_of_build`, `exists_build_of_tiedDefect` — no others are found, and each of them is;
* `OrderShows` — two of them are different;
* `build_perm_iff` — every other list gives the same in all orders.
-/

namespace DesignCompiler

/-! ## The members below an identifier -/

/-- The components below an identifier stand on one page and have different identifiers. -/
def SoundBelow (cs : List Component) (id : ComponentId) : Prop :=
  ∀ low : ComponentId, low.toNat < id.toNat → SoundTo cs low

theorem SoundBelow.perm {cs ds : List Component} (h : cs.Perm ds) {id : ComponentId}
    (hs : SoundBelow cs id) : SoundBelow ds id :=
  fun low hlow => (hs low hlow).perm h

/-- The identifier just before another one. -/
theorem ComponentId.exists_pred {id : ComponentId} (h : 0 < id.toNat) :
    ∃ low : ComponentId, low.toNat + 1 = id.toNat := by
  have hlt : id.toNat - 1 < 2 ^ 64 := by
    have := id.value.toNat_lt
    unfold ComponentId.toNat at *
    omega
  refine ⟨⟨UInt64.ofNat (id.toNat - 1)⟩, ?_⟩
  show (UInt64.ofNat (id.toNat - 1)).toNat + 1 = id.toNat
  rw [UInt64.toNat_ofNat_of_lt' hlt]
  omega

/-- So the components below an identifier are sound all together. -/
theorem SoundBelow.members {cs : List Component} {id : ComponentId} (h : SoundBelow cs id) :
    (∀ a ∈ cs, ∀ b ∈ cs, a.id.toNat < id.toNat → b.id.toNat < id.toNat → a.pageId = b.pageId) ∧
      ((cs.filter (·.id.toNat < id.toNat)).map Component.id).Nodup := by
  rcases Nat.eq_zero_or_pos id.toNat with hzero | hpos
  · -- nothing is below the first identifier
    simp [hzero]
  · obtain ⟨low, hlow⟩ := ComponentId.exists_pred hpos
    have hle : ∀ c : Component, c.id.toNat ≤ low.toNat ↔ c.id.toNat < id.toNat := by
      intro c
      omega
    obtain ⟨hpage, hdistinct⟩ := h low (by omega)
    simp only [membersTo, hle] at hpage hdistinct
    refine ⟨fun a ha b hb halt hblt => ?_, hdistinct⟩
    exact hpage a (List.mem_filter.mpr ⟨ha, decide_eq_true halt⟩) b
      (List.mem_filter.mpr ⟨hb, decide_eq_true hblt⟩)

/-- Ascending components are those below an identifier, those that have it, and those above it. -/
theorem ascending_split {ss : List Component}
    (h : ss.Pairwise fun a b => a.id.toNat ≤ b.id.toNat) (id : ComponentId) :
    ss = ss.filter (·.id.toNat < id.toNat) ++
      (ss.filter (·.id = id) ++ ss.filter (id.toNat < ·.id.toNat)) := by
  induction ss with
  | nil => rfl
  | cons c cs ih =>
    obtain ⟨hc, hcs⟩ := List.pairwise_cons.mp h
    have hrest := ih hcs
    -- what stands behind `c` is not below it
    have hbelow : id.toNat ≤ c.id.toNat → cs.filter (·.id.toNat < id.toNat) = [] := by
      intro hle
      rw [List.filter_eq_nil_iff]
      intro b hb
      have := hc b hb
      simp only [decide_eq_true_eq]
      omega
    have hgroup : id.toNat < c.id.toNat → cs.filter (·.id = id) = [] := by
      intro hlt
      rw [List.filter_eq_nil_iff]
      intro b hb
      have := hc b hb
      simp only [decide_eq_true_eq, ← ComponentId.toNat_inj]
      omega
    simp only [List.filter_cons, decide_eq_true_eq, ← ComponentId.toNat_inj] at hrest hgroup ⊢
    rcases Nat.lt_trichotomy c.id.toNat id.toNat with hlt | heq | hgt
    · rw [if_pos hlt, if_neg (by omega), if_neg (by omega), List.cons_append, ← hrest]
    · rw [hbelow (by omega), List.nil_append] at hrest
      rw [if_neg (by omega), if_pos heq, if_neg (by omega), hbelow (by omega), List.nil_append,
        List.cons_append, ← hrest]
    · rw [hbelow (by omega), hgroup hgt, List.nil_append, List.nil_append] at hrest
      rw [if_neg (by omega), if_neg (by omega), if_pos hgt, hbelow (by omega), hgroup hgt,
        List.nil_append, List.nil_append, ← hrest]

/-- Between the members below an identifier and those above it stand those that have it, in the
order in which they came. -/
theorem sortById_split (cs : List Component) (id : ComponentId) :
    sortById cs = (sortById cs).filter (·.id.toNat < id.toNat) ++
      (cs.filter (·.id = id) ++ (sortById cs).filter (id.toNat < ·.id.toNat)) := by
  rw [← filter_sortById cs id]
  exact ascending_split (sortById_ascending cs) id

/-- The members below an identifier are sorted to the front, and their identifiers are different. -/
theorem SoundBelow.exists_front {cs : List Component} {id : ComponentId} (hs : SoundBelow cs id) :
    ∃ front back, sortById cs = front ++ (cs.filter (·.id = id) ++ back) ∧
      (∀ c, c ∈ front ↔ c ∈ cs ∧ c.id.toNat < id.toNat) ∧ (front.map Component.id).Nodup := by
  refine ⟨_, _, sortById_split cs id, fun c => ?_, ?_⟩
  · rw [List.mem_filter, mem_sortById, decide_eq_true_eq]
  · exact (((sortById_perm _).filter _).map Component.id).nodup_iff.mpr hs.members.2

/-! ## Components that are listed first -/

section First

variable {a b : Component} {rest : List Component}

/-- The members below the component that is listed first come before it. -/
theorem soundUpTo_first (hs : SoundBelow (a :: rest) a.id) {low : Component}
    (hlow : low ∈ a :: rest) (hlt : low.id.toNat < a.id.toNat) :
    ∃ before first, SoundUpTo (a :: rest) before a first ∧ first.pageId = low.pageId := by
  obtain ⟨front, back, hsplit, hmem, hids⟩ := hs.exists_front
  rw [List.filter_cons_of_pos (by simp), List.cons_append] at hsplit
  have hpage : ∀ c ∈ front, c.pageId = low.pageId := by
    intro c hc
    obtain ⟨hc, hclt⟩ := (hmem c).mp hc
    exact hs.members.1 c hc low hlow hclt hlt
  obtain ⟨first, others, rfl⟩ :=
    List.exists_cons_of_ne_nil (List.ne_nil_of_mem ((hmem low).mpr ⟨hlow, hlt⟩))
  have hfirst := hpage first (List.mem_cons_self ..)
  refine ⟨first :: others, first, ⟨⟨_, hsplit ▸ stablySorted_sortById _⟩, rfl, ?_, hids⟩, hfirst⟩
  intro c hc
  rw [hpage c hc, hfirst]

/-- If it is on the page of the members below, a second one with its identifier comes behind it. -/
theorem soundUpTo_second (hs : SoundBelow (a :: b :: rest) a.id) (hid : b.id = a.id)
    (hlow : ∀ c ∈ a :: b :: rest, c.id.toNat < a.id.toNat → c.pageId = a.pageId) :
    ∃ before first, SoundUpTo (a :: b :: rest) (before ++ [a]) b first ∧
      first.pageId = a.pageId := by
  -- Sorting keeps the order of equal identifiers, so the two stand next to each other.
  obtain ⟨front, back, hsplit, hmem, hids⟩ := hs.exists_front
  rw [List.filter_cons_of_pos (by simp), List.filter_cons_of_pos (by simpa using hid),
    List.cons_append, List.append_cons, List.cons_append] at hsplit
  have hpage : ∀ c ∈ front ++ [a], c.pageId = a.pageId := by
    intro c hc
    rcases List.mem_append.mp hc with hc | hc
    · exact hlow c ((hmem c).mp hc).1 ((hmem c).mp hc).2
    · rw [List.mem_singleton.mp hc]
  have hdistinct : ((front ++ [a]).map Component.id).Nodup := by
    rw [List.map_append, List.nodup_append]
    refine ⟨hids, by simp, fun x hx y hy heq => ?_⟩
    obtain ⟨c, hc, rfl⟩ := List.mem_map.mp hx
    obtain rfl : y = a.id := by simpa using hy
    exact absurd (congrArg ComponentId.toNat heq) (Nat.ne_of_lt ((hmem c).mp hc).2)
  obtain ⟨first, hfirst⟩ : ∃ first, (front ++ [a]).head? = some first :=
    Option.isSome_iff_exists.mp (by simp)
  have hfirstPage := hpage first (List.mem_of_head? hfirst)
  refine ⟨front, first, ⟨⟨_, hsplit ▸ stablySorted_sortById _⟩, ?_, ?_, hdistinct⟩, hfirstPage⟩
  · rw [List.head?_append, hfirst]
    rfl
  · intro c hc
    rw [hpage c hc, hfirstPage]

end First

/-! ## Defects of a group -/

/-- The components that have an identifier and stand on a page. -/
def membersOn (cs : List Component) (id : ComponentId) (page : Option PageId) : List Component :=
  cs.filter fun c => c.id = id ∧ c.pageId = page

theorem mem_membersOn {cs : List Component} {id : ComponentId} {page : Option PageId}
    {c : Component} : c ∈ membersOn cs id page ↔ c ∈ cs ∧ c.id = id ∧ c.pageId = page := by
  rw [membersOn, List.mem_filter, decide_eq_true_eq]

/-- The defects that the components with an identifier show in some order. -/
inductive TiedDefect (cs : List Component) (id : ComponentId) : Defect → Prop where
  /-- One of them is not on the page of the members below. -/
  | stranger {low a : Component} (hlow : low ∈ cs) (hlt : low.id.toNat < id.toNat) (ha : a ∈ cs)
      (hid : a.id = id) (hpage : a.pageId ≠ low.pageId) :
      TiedDefect cs id (.mixedPages id low.pageId a.pageId)
  /-- Nothing is below, and two of them are on different pages. -/
  | apart {a b : Component} (hleast : ∀ c ∈ cs, id.toNat ≤ c.id.toNat) (ha : a ∈ cs) (hb : b ∈ cs)
      (hida : a.id = id) (hidb : b.id = id) (hpage : a.pageId ≠ b.pageId) :
      TiedDefect cs id (.mixedPages id a.pageId b.pageId)
  /-- Two of them are on the page of all members below. -/
  | twice {page : Option PageId}
      (hlow : ∀ c ∈ cs, c.id.toNat < id.toNat → c.pageId = page)
      (htwo : 2 ≤ (membersOn cs id page).length) :
      TiedDefect cs id (.duplicateId id)

theorem TiedDefect.perm {cs ds : List Component} (h : cs.Perm ds) {id : ComponentId} {d : Defect}
    (hd : TiedDefect cs id d) : TiedDefect ds id d := by
  cases hd with
  | stranger hlow hlt ha hid hpage =>
    exact .stranger (h.mem_iff.mp hlow) hlt (h.mem_iff.mp ha) hid hpage
  | apart hleast ha hb hida hidb hpage =>
    exact .apart (fun c hc => hleast c (h.mem_iff.mpr hc)) (h.mem_iff.mp ha) (h.mem_iff.mp hb)
      hida hidb hpage
  | twice hlow htwo =>
    rw [membersOn, (h.filter _).length_eq] at htwo
    exact .twice (fun c hc => hlow c (h.mem_iff.mpr hc)) htwo

/-- The first of the sorted components has the least identifier. -/
theorem SoundUpTo.members {cs before : List Component} {c first : Component}
    (h : SoundUpTo cs before c first) :
    first ∈ cs ∧ c ∈ cs ∧ ∀ b ∈ cs, first.id.toNat ≤ b.id.toNat := by
  obtain ⟨rest, after, hfirst, hsplit⟩ := h.exists_split
  have hs := sortById_ascending cs
  rw [hfirst, List.pairwise_cons] at hs
  have hc : c ∈ sortById cs := by
    rw [hsplit]
    simp
  refine ⟨mem_sortById.mp (hfirst ▸ List.mem_cons_self ..), mem_sortById.mp hc, fun b hb => ?_⟩
  rw [← mem_sortById, hfirst, List.mem_cons] at hb
  rcases hb with rfl | hb
  · exact Nat.le_refl _
  · exact hs.1 b hb

/-- The components below a member that is at fault stand before it. -/
theorem SoundUpTo.pageId_of_lt {cs before : List Component} {c first : Component}
    (h : SoundUpTo cs before c first) {b : Component} (hb : b ∈ cs)
    (hlt : b.id.toNat < c.id.toNat) : b.pageId = first.pageId := by
  obtain ⟨-, after, -, hsplit⟩ := h.exists_split
  have hs := sortById_ascending cs
  rw [hsplit, List.pairwise_append, List.pairwise_cons] at hs
  rw [← mem_sortById, hsplit, List.mem_append, List.mem_cons] at hb
  rcases hb with hb | rfl | hb
  · exact h.samePage b hb
  · omega
  · have := hs.2.1.1 b hb
    omega

/-- A list with repeated identifiers shows a defect of the first group that is not sound. -/
theorem tiedDefect_of_build {cs : List Component} {d : Defect}
    (hd : ¬ (cs.map Component.id).Nodup) (h : PageTree.build cs = .error d) :
    ∃ id, FirstUnsound cs id ∧ TiedDefect cs id d := by
  cases firstDefect_of_build h with
  | empty hnil => exact absurd (by simp [hnil]) hd
  | @mixedPages before c first hb hc =>
    have hfirst := firstUnsound_of_soundUpTo hb (Or.inl hc)
    obtain ⟨hmem, hcmem, hleast⟩ := hb.members
    refine ⟨c.id, hfirst, ?_⟩
    rcases Nat.lt_or_eq_of_le (hleast c hcmem) with hlt | heq
    · exact .stranger hmem hlt hcmem rfl hc
    · -- the first component has the least identifier, and so has `c`
      have hid : first.id = c.id := ComponentId.toNat_inj.mp heq
      exact .apart (fun b hb => heq ▸ hleast b hb) hmem hcmem hid rfl (Ne.symm hc)
  | @duplicateId before c first hb hpage hrep =>
    obtain ⟨b, hbmem, hid⟩ := hrep
    have hfirst := firstUnsound_of_soundUpTo hb (Or.inr ⟨b, hbmem, hid⟩)
    obtain ⟨-, after, -, hsplit⟩ := hb.exists_split
    -- `b` and `c` are two places of the sorted list
    have htwo : 2 ≤ (membersOn cs c.id first.pageId).length := by
      have hleft : b ∈ membersOn before c.id first.pageId :=
        mem_membersOn.mpr ⟨hbmem, hid, hb.samePage b hbmem⟩
      have hright : c ∈ membersOn (c :: after) c.id first.pageId :=
        mem_membersOn.mpr ⟨List.mem_cons_self .., rfl, hpage⟩
      rw [membersOn, ((sortById_perm cs).symm.filter _).length_eq, hsplit, List.filter_append,
        List.length_append]
      exact Nat.add_le_add (List.length_pos_of_mem hleft) (List.length_pos_of_mem hright)
    exact ⟨c.id, hfirst, .twice (fun x hx hlt => hb.pageId_of_lt hx hlt) htwo⟩
  -- the other defects are found in lists with different identifiers only
  | noRoot hm _ => exact absurd hm.distinct hd
  | multipleRoots hm _ _ => exact absurd hm.distinct hd
  | danglingParent hm _ _ _ _ => exact absurd hm.distinct hd
  | cycleOrOrphan hm _ _ => exact absurd hm.distinct hd

/-- A component can be listed before all others. -/
theorem exists_perm_cons {cs : List Component} {a : Component} (h : a ∈ cs) :
    ∃ rest, cs.Perm (a :: rest) := by
  obtain ⟨before, after, rfl⟩ := List.append_of_mem h
  exact ⟨before ++ after, List.perm_middle⟩

/-- Two components can be. -/
theorem exists_perm_cons_cons {cs : List Component} {a b : Component} (ha : a ∈ cs) (hb : b ∈ cs)
    (hne : a ≠ b) : ∃ rest, cs.Perm (a :: b :: rest) := by
  obtain ⟨rest, hrest⟩ := exists_perm_cons ha
  have hmem : b ∈ rest := by
    rcases List.mem_cons.mp (hrest.mem_iff.mp hb) with rfl | hb
    · exact absurd rfl hne
    · exact hb
  obtain ⟨others, hothers⟩ := exists_perm_cons hmem
  exact ⟨others, hrest.trans (hothers.cons a)⟩

/-- Two components of one group on one page can be, even if they are alike. -/
theorem exists_perm_membersOn {cs : List Component} {id : ComponentId} {page : Option PageId}
    (h : 2 ≤ (membersOn cs id page).length) :
    ∃ a b rest, cs.Perm (a :: b :: rest) ∧ (a.id = id ∧ a.pageId = page) ∧
      b.id = id ∧ b.pageId = page := by
  have hperm := (List.filter_append_perm (fun c => c.id = id ∧ c.pageId = page) cs).symm
  have hmem : ∀ c ∈ membersOn cs id page, c.id = id ∧ c.pageId = page :=
    fun c hc => (mem_membersOn.mp hc).2
  rw [← membersOn] at hperm
  generalize membersOn cs id page = group at *
  match group, h with
  | a :: b :: others, _ => exact ⟨a, b, _, hperm, hmem a (by simp), hmem b (by simp)⟩

/-- Every defect of the group is shown when the right components are listed first. -/
theorem exists_build_of_tiedDefect {cs : List Component} {id : ComponentId} {d : Defect}
    (hs : SoundBelow cs id) (hd : TiedDefect cs id d) :
    ∃ ds, cs.Perm ds ∧ PageTree.build ds = .error d := by
  -- The components that make the defect are moved to the front, and then it is the first one.
  cases hd with
  | @stranger low a hlow hlt ha hid hpage =>
    subst hid
    obtain ⟨rest, hperm⟩ := exists_perm_cons ha
    obtain ⟨before, first, hb, hfirst⟩ :=
      soundUpTo_first (hs.perm hperm) (hperm.mem_iff.mp hlow) hlt
    exact ⟨_, hperm, build_of_firstDefect (hfirst ▸ .mixedPages hb (hfirst ▸ hpage))⟩
  | @apart a b hleast ha hb hida hidb hpage =>
    subst hida
    have hne : a ≠ b := fun heq => hpage (by rw [heq])
    obtain ⟨rest, hperm⟩ := exists_perm_cons_cons ha hb hne
    obtain ⟨before, first, hup, hfirst⟩ := soundUpTo_second (hs.perm hperm) hidb fun c hc hlt => by
      have := hleast c (hperm.mem_iff.mpr hc)
      omega
    refine ⟨_, hperm, ?_⟩
    rw [← hidb, ← hfirst]
    exact build_of_firstDefect (.mixedPages hup (hfirst ▸ Ne.symm hpage))
  | @twice page hlow htwo =>
    obtain ⟨a, b, rest, hperm, ⟨rfl, hpagea⟩, hidb, hpageb⟩ := exists_perm_membersOn htwo
    obtain ⟨before, first, hup, hfirst⟩ := soundUpTo_second (hs.perm hperm) hidb fun c hc hlt =>
      (hlow c (hperm.mem_iff.mpr hc) hlt).trans hpagea.symm
    have hpage : b.pageId = first.pageId := hpageb.trans (hpagea.symm.trans hfirst.symm)
    refine ⟨_, hperm, ?_⟩
    rw [← hidb]
    exact build_of_firstDefect (.duplicateId hup hpage ⟨a, by simp, hidb.symm⟩)

/-! ## Where the order shows -/

/-- Two orders of the components show different defects. -/
inductive OrderShows (cs : List Component) : Prop where
  /-- Components with the least identifier are on different pages: that of the first is expected. -/
  | expected {a b : Component} (ha : a ∈ cs) (hb : b ∈ cs) (hid : a.id = b.id)
      (hleast : ∀ c ∈ cs, a.id.toNat ≤ c.id.toNat) (hpage : a.pageId ≠ b.pageId)
  /-- Components with one identifier are on different pages, and none of them on that of the sound
  members below: the page of the first is found. -/
  | found {low a b : Component} (hlow : low ∈ cs) (ha : a ∈ cs) (hb : b ∈ cs) (hid : a.id = b.id)
      (hlt : low.id.toNat < a.id.toNat) (hsound : SoundBelow cs a.id)
      (hpage : a.pageId ≠ b.pageId) (hpagea : a.pageId ≠ low.pageId)
      (hpageb : b.pageId ≠ low.pageId)
  /-- A component is not on the page of the sound members below, and two more with its identifier
  are: either their identifier is a duplicate, or its page is wrong. -/
  | reason {low a : Component} (hlow : low ∈ cs) (ha : a ∈ cs) (hlt : low.id.toNat < a.id.toNat)
      (hsound : SoundBelow cs a.id) (hpage : a.pageId ≠ low.pageId)
      (htwo : 2 ≤ (membersOn cs a.id low.pageId).length)

/-- Nothing is below the least identifier. -/
theorem soundBelow_of_least {cs : List Component} {id : ComponentId}
    (hleast : ∀ c ∈ cs, id.toNat ≤ c.id.toNat) : SoundBelow cs id := by
  intro low hlow
  have hnone : membersTo cs low = [] := by
    rw [membersTo, List.filter_eq_nil_iff]
    intro c hc
    have := hleast c hc
    simp only [decide_eq_true_eq]
    omega
  constructor <;> simp [hnone]

/-- Where the order shows a group has two defects. -/
theorem OrderShows.exists_tied {cs : List Component} (h : OrderShows cs) :
    ∃ id d e, SoundBelow cs id ∧ TiedDefect cs id d ∧ TiedDefect cs id e ∧ d ≠ e := by
  cases h with
  | @expected a b ha hb hid hleast hpage =>
    refine ⟨a.id, _, _, soundBelow_of_least hleast, .apart hleast ha hb rfl hid.symm hpage,
      .apart hleast hb ha hid.symm rfl (Ne.symm hpage), ?_⟩
    simp [hpage]
  | @found low a b hlow ha hb hid hlt hsound hpage hpagea hpageb =>
    refine ⟨a.id, _, _, hsound, .stranger hlow hlt ha rfl hpagea,
      .stranger hlow hlt hb hid.symm hpageb, ?_⟩
    simp [hpage]
  | @reason low a hlow ha hlt hsound hpage htwo =>
    refine ⟨a.id, _, _, hsound, .stranger hlow hlt ha rfl hpage,
      .twice (fun c hc hclt => hsound.members.1 c hc low hlow hclt hlt) htwo, ?_⟩
    simp

/-- A stranger and any other defect of its group. -/
theorem orderShows_of_stranger {cs : List Component} {low a : Component} {e : Defect}
    (hsound : SoundBelow cs a.id) (hlow : low ∈ cs) (hlt : low.id.toNat < a.id.toNat) (ha : a ∈ cs)
    (hpage : a.pageId ≠ low.pageId) (he : TiedDefect cs a.id e)
    (hne : Defect.mixedPages a.id low.pageId a.pageId ≠ e) : OrderShows cs := by
  cases he with
  | @stranger low' b hlow' hlt' hb hid hpage' =>
    -- the page that is expected is the same one, so those that are found differ
    have hsame : low.pageId = low'.pageId := hsound.members.1 low hlow low' hlow' hlt hlt'
    refine .found hlow ha hb hid.symm hlt hsound (fun heq => hne ?_) hpage (hsame ▸ hpage')
    rw [hsame, heq]
  | apart hleast =>
    have := hleast low hlow
    omega
  | twice hlow' htwo =>
    exact .reason hlow ha hlt hsound hpage (hlow' low hlow hlt ▸ htwo)

/-- The order shows exactly if a group has two defects. -/
theorem orderShows_iff {cs : List Component} :
    OrderShows cs ↔
      ∃ id d e, SoundBelow cs id ∧ TiedDefect cs id d ∧ TiedDefect cs id e ∧ d ≠ e := by
  refine ⟨OrderShows.exists_tied, ?_⟩
  rintro ⟨id, d, e, hsound, hd, he, hne⟩
  cases hd with
  | @stranger low a hlow hlt ha hid hpage =>
    subst hid
    exact orderShows_of_stranger hsound hlow hlt ha hpage he hne
  | @apart a b hleast ha hb hida hidb hpage =>
    subst hida
    exact .expected ha hb hidb.symm hleast hpage
  | twice hlow htwo =>
    cases he with
    | @stranger low a hlow' hlt ha hid hpage =>
      subst hid
      exact orderShows_of_stranger hsound hlow' hlt ha hpage (.twice hlow htwo) (Ne.symm hne)
    | @apart a b hleast ha hb hida hidb hpage =>
      subst hida
      exact .expected ha hb hidb.symm hleast hpage
    | twice _ _ => exact absurd rfl hne

/--
**Defects and the order of components.** A list of components gives the same in every order, one
tree or one defect, exactly if the order does not show. It shows where components with one
identifier are on different pages, and the first of them decides what is expected, found, or called
wrong.
-/
theorem build_perm_iff (cs : List Component) :
    (∀ ds, cs.Perm ds → PageTree.build ds = PageTree.build cs) ↔ ¬ OrderShows cs := by
  constructor
  · intro hall hshows
    obtain ⟨id, d, e, hsound, hd, he, hne⟩ := orderShows_iff.mp hshows
    obtain ⟨ds, hperm, hbuild⟩ := exists_build_of_tiedDefect hsound hd
    obtain ⟨es, hperm', hbuild'⟩ := exists_build_of_tiedDefect hsound he
    rw [hall ds hperm] at hbuild
    rw [hall es hperm', hbuild, Except.error.injEq] at hbuild'
    exact hne hbuild'
  · intro hno ds hperm
    by_cases hids : (cs.map Component.id).Nodup
    · exact (build_eq_of_perm hperm hids).symm
    · have hids' : ¬ (ds.map Component.id).Nodup := mt (hperm.map _).nodup_iff.mpr hids
      -- both lists are refused because of one group, and it has one defect only
      cases hc : PageTree.build cs with
      | ok t => exact absurd (exists_build_iff.mp ⟨t, hc⟩).distinct hids
      | error d =>
        cases hd : PageTree.build ds with
        | ok t => exact absurd (exists_build_iff.mp ⟨t, hd⟩).distinct hids'
        | error e =>
          obtain ⟨id, hfirst, htied⟩ := tiedDefect_of_build hids hc
          obtain ⟨id', hfirst', htied'⟩ := tiedDefect_of_build hids' hd
          obtain rfl : id = id' := (hfirst.perm hperm).unique hfirst'
          have he := htied'.perm hperm.symm
          by_contra hne
          refine hno (orderShows_iff.mpr ⟨id, d, e, hfirst.least, htied, he, ?_⟩)
          rintro rfl
          exact hne rfl

/-- Two components with the same identifier, on different pages. -/
def splitTwins : List Component :=
  [{ id := ⟨1⟩, pageId := some ⟨7⟩, kind := "box" },
    { id := ⟨1⟩, pageId := some ⟨8⟩, kind := "box" }]

/-- The page of the one that is listed first is expected of the other. -/
theorem splitTwins_differ :
    splitTwins.Perm splitTwins.reverse ∧
      PageTree.build splitTwins = .error (.mixedPages ⟨1⟩ (some ⟨7⟩) (some ⟨8⟩)) ∧
      PageTree.build splitTwins.reverse = .error (.mixedPages ⟨1⟩ (some ⟨8⟩) (some ⟨7⟩)) :=
  ⟨(List.reverse_perm _).symm, by cbv, by cbv⟩

end DesignCompiler
