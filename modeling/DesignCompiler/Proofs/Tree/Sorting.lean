import DesignCompiler.Tree.Build

/-!
# DesignCompiler — sorted components

The members of a page are taken by ascending identifier, those with the same one in the order in
which they came. Two properties say this without an algorithm, and only one list has both.

* `StablySorted` — the two properties;
* `stablySorted_sortById` — `sortById` has them;
* `StablySorted.eq_sortById` — nothing else does.
-/

namespace DesignCompiler

theorem ComponentId.toNat_inj {a b : ComponentId} : a.toNat = b.toNat ↔ a = b := by
  cases a
  cases b
  simp [ComponentId.toNat, UInt64.toNat_inj]

/-- `ss` has the components of `cs` by ascending identifier, and each group of components with one
identifier in the order of `cs`. -/
structure StablySorted (cs ss : List Component) : Prop where
  ascending : ss.Pairwise fun a b => a.id.toNat ≤ b.id.toNat
  groups : ∀ id, ss.filter (·.id = id) = cs.filter (·.id = id)

theorem sortById_perm (cs : List Component) : (sortById cs).Perm cs :=
  List.mergeSort_perm _ _

theorem mem_sortById {cs : List Component} {c : Component} : c ∈ sortById cs ↔ c ∈ cs :=
  (sortById_perm cs).mem_iff

private theorem idLe_trans (a b c : Component) (hab : decide (a.id.toNat ≤ b.id.toNat) = true)
    (hbc : decide (b.id.toNat ≤ c.id.toNat) = true) :
    decide (a.id.toNat ≤ c.id.toNat) = true := by
  rw [decide_eq_true_eq] at *
  exact Nat.le_trans hab hbc

private theorem idLe_total (a b : Component) :
    (decide (a.id.toNat ≤ b.id.toNat) || decide (b.id.toNat ≤ a.id.toNat)) = true := by
  simp only [Bool.or_eq_true, decide_eq_true_eq]
  exact Nat.le_total _ _

theorem sortById_ascending (cs : List Component) :
    (sortById cs).Pairwise fun a b => a.id.toNat ≤ b.id.toNat := by
  have h := List.pairwise_mergeSort idLe_trans idLe_total cs
  exact h.imp fun hab => of_decide_eq_true hab

/-- Components with one identifier are sorted already, so sorting keeps their order. -/
theorem filter_sortById (cs : List Component) (id : ComponentId) :
    (sortById cs).filter (·.id = id) = cs.filter (·.id = id) := by
  have hsorted : (cs.filter (·.id = id)).Pairwise
      fun a b => decide (a.id.toNat ≤ b.id.toNat) = true := by
    refine List.Pairwise.imp_of_mem (R := fun _ _ => True) ?_ (List.pairwise_of_forall (by simp))
    intro a b ha hb _
    rw [List.mem_filter, decide_eq_true_eq] at ha hb
    exact decide_eq_true (Nat.le_of_eq (by rw [ha.2, hb.2]))
  -- so they are a part of the sorted list, and as many as have the identifier there
  have hsub := List.sublist_mergeSort idLe_trans idLe_total hsorted List.filter_sublist
  have hfilter := hsub.filter (·.id = id)
  rw [List.filter_filter] at hfilter
  simp only [Bool.and_self] at hfilter
  refine (hfilter.eq_of_length ?_).symm
  exact ((sortById_perm cs).filter _).length_eq.symm

theorem stablySorted_sortById (cs : List Component) : StablySorted cs (sortById cs) :=
  ⟨sortById_ascending cs, filter_sortById cs⟩

theorem mem_of_groups {ss ts : List Component}
    (h : ∀ id, ss.filter (·.id = id) = ts.filter (·.id = id)) {c : Component} (hc : c ∈ ss) :
    c ∈ ts := by
  have hmem : c ∈ ss.filter (·.id = c.id) := List.mem_filter.mpr ⟨hc, by simp⟩
  rw [h] at hmem
  exact (List.mem_filter.mp hmem).1

/-- Each of two first components is in the other list, so none has a smaller identifier. -/
private theorem id_eq_of_first {s t : Component} {ss ts : List Component}
    (hss : (s :: ss).Pairwise fun a b => a.id.toNat ≤ b.id.toNat)
    (hts : (t :: ts).Pairwise fun a b => a.id.toNat ≤ b.id.toNat) (hs : s ∈ t :: ts)
    (ht : t ∈ s :: ss) : s.id = t.id := by
  rw [← ComponentId.toNat_inj]
  rcases List.mem_cons.mp hs with rfl | hs
  · rfl
  · rcases List.mem_cons.mp ht with rfl | ht
    · rfl
    · have hst := (List.pairwise_cons.mp hss).1 t ht
      have hts := (List.pairwise_cons.mp hts).1 s hs
      exact Nat.le_antisymm hst hts

private theorem eq_of_groups {ss ts : List Component}
    (hss : ss.Pairwise fun a b => a.id.toNat ≤ b.id.toNat)
    (hts : ts.Pairwise fun a b => a.id.toNat ≤ b.id.toNat)
    (h : ∀ id, ss.filter (·.id = id) = ts.filter (·.id = id)) : ss = ts := by
  induction ss generalizing ts with
  | nil =>
    cases ts with
    | nil => rfl
    | cons t ts => simpa using h t.id
  | cons s ss ih =>
    cases ts with
    | nil => simpa using h s.id
    | cons t ts =>
      have hid : s.id = t.id := id_eq_of_first hss hts (mem_of_groups h (List.mem_cons_self ..))
        (mem_of_groups (fun id => (h id).symm) (List.mem_cons_self ..))
      -- the two are in one group, and each is the first there
      have hgroup := h s.id
      rw [List.filter_cons_of_pos (by simp), List.filter_cons_of_pos (by simp [hid]),
        List.cons.injEq] at hgroup
      obtain rfl := hgroup.1
      have hrest : ∀ id, ss.filter (·.id = id) = ts.filter (·.id = id) := by
        intro id
        have hcons := h id
        rw [List.filter_cons, List.filter_cons] at hcons
        split at hcons
        · exact (List.cons.inj hcons).2
        · exact hcons
      rw [ih (List.pairwise_cons.mp hss).2 (List.pairwise_cons.mp hts).2 hrest]

/-- There is one list only that is stably sorted. -/
theorem StablySorted.unique {cs ss ts : List Component} (hs : StablySorted cs ss)
    (ht : StablySorted cs ts) : ss = ts :=
  eq_of_groups hs.ascending ht.ascending fun id => (hs.groups id).trans (ht.groups id).symm

theorem StablySorted.eq_sortById {cs ss : List Component} (h : StablySorted cs ss) :
    ss = sortById cs :=
  h.unique (stablySorted_sortById cs)

end DesignCompiler
