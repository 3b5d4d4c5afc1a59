import DesignCompiler.Proofs.Files.Growth

/-!
# DesignCompiler — paths on growing disks

A path leads to what it has led to, also when there are more files and folders by then. Where it has led
to nothing, it may lead to something new; and two dots behind something new may lead out of it again, to
what was there before. A path without such dots leads to new things only.

* `Disk.Lacks`, `Disk.Steady` — names that lead to nothing, and paths that do not lead out of it;
* `Grows.walk_or` — walks on a disk that has grown;
* `Grows.locate_or` — what a steady path leads to is the same, or new.
-/

namespace DesignCompiler.Disk

variable {d d' : Disk} {p : Path} {l : Location} {ns : List String}

/-- Names lead to nothing, or through something that is not there. -/
def Lacks (d : Disk) (l : Location) (ns : List String) : Prop :=
  (∃ l', d.walk l ns = .ok (.vacant l')) ∨ d.walk l ns = .error .notFound

/-- Names do not lead back out of a folder that is not there. -/
def SteadyFrom (d : Disk) (l : Location) (ns : List String) : Prop :=
  ∀ before after, ns = before ++ ".." :: after → ¬ d.Lacks l before

/-- The names of a path do not lead back out of a folder that is not there. -/
def Steady (d : Disk) (p : Path) : Prop :=
  d.SteadyFrom (d.start p) p.names

/-! ## Steady names -/

theorem steady_of_notMem (h : ".." ∉ p.names) : d.Steady p := by
  intro before after hsplit
  refine absurd ?_ h
  rw [hsplit]
  exact List.mem_append_right _ (List.mem_cons_self ..)

/-- Names that lead to something lead out of nothing on their way. -/
theorem steadyFrom_of_walk {s : Spot} (h : d.walk l ns = .ok s) : d.SteadyFrom l ns := by
  rintro before after rfl hlacks
  have hfolder := walk_of_append (List.cons_ne_nil _ _) h
  rcases hlacks with ⟨l', hvacant⟩ | hnone
  · exact nomatch hfolder.symm.trans hvacant
  · exact nomatch hfolder.symm.trans hnone

theorem steady_of_locate {s : Spot} (h : d.locate p = .ok s) : d.Steady p :=
  steadyFrom_of_walk (locate_eq_ok_iff.mp h).2.1

theorem Steady.join {n : String} (h : d.Steady p) (hn : IsFileName n) : d.Steady (p.join ⟨n⟩) := by
  have hrelative := Path.isAbsolute_of_noSlash hn.noSlash
  rw [Steady, Path.names_join hrelative, Path.names_fileName hn, start,
    Path.isAbsolute_join hrelative]
  intro before after hsplit
  -- the two dots are not the last name
  rcases List.eq_nil_or_concat' after with rfl | ⟨after, last, rfl⟩
  · exact absurd (List.append_inj' hsplit rfl).2 (by simpa using hn.notUp)
  · rw [← List.cons_append, ← List.append_assoc] at hsplit
    exact h before after (List.append_inj' hsplit rfl).1

theorem SteadyFrom.tail {l' : Location} {n : String} (h : d.SteadyFrom l (n :: ns))
    (hwalk : ∀ ms, d.walk l (n :: ms) = d.walk l' ms) : d.SteadyFrom l' ns := by
  rintro before after rfl hlacks
  refine h (n :: before) after rfl ?_
  rwa [Lacks, hwalk]

/-- Behind a name that is not there, steady names lead down. -/
theorem SteadyFrom.notMem {n : String} (h : d.SteadyFrom l (n :: ns)) (hn : n ≠ "..") {l' : Location}
    (hspot : d.spot (l ++ [n]) = .vacant l') : ".." ∉ ns := by
  intro hmem
  obtain ⟨before, after, rfl⟩ := List.append_of_mem hmem
  refine h (n :: before) after rfl ?_
  cases before with
  | nil => exact Or.inl ⟨l', by rw [walk_last hn, hspot]⟩
  | cons m ms => exact Or.inr (walk.eq_6 d l n m ms hn l' hspot)

/-! ## Walks on disks that have grown -/

theorem Grows.spot_eq (h : d.Grows d') (hl : d.spot l ≠ .vacant l) : d'.spot l = d.spot l := by
  obtain ⟨w, hext, -⟩ := h.frame
  have hlocation := spot_location d l
  cases hs : d.spot l with
  | folder l' =>
    obtain rfl := eq_of_spot_folder hs
    exact hext.folder _ hs
  | file l' =>
    rw [hs] at hlocation
    obtain rfl : l' = l := hlocation
    exact hext.file _ hs
  | vacant l' =>
    rw [hs] at hlocation
    obtain rfl : l' = l := hlocation
    exact absurd hs hl

/-- A walk along steady names ends as before, or where nothing was. -/
theorem Grows.walk_or (h : d.Grows d') (htree : d.IsTree) (hsteady : d.SteadyFrom l ns) :
    d'.walk l ns = d.walk l ns ∨
      d.Lacks l ns ∧ d.spot (place l ns) = .vacant (place l ns) := by
  -- by induction on the walk before; it only goes on through folders, which are there still
  fun_induction d.walk l ns with
  | case1 l => exact Or.inl rfl
  | case2 l ns ih =>
    have hrest := ih (hsteady.tail fun ms => by rw [walk])
    rwa [Lacks, walk, walk, place, if_pos rfl]
  | case3 l n hn ns l' hspot ih =>
    obtain rfl := eq_of_spot_folder hspot
    have hspot' : d'.spot (l ++ [n]) = .folder (l ++ [n]) :=
      (h.spot_eq (by simp [hspot])).trans hspot
    have hrest := ih (hsteady.tail fun ms => walk.eq_3 d l n ms _ hn hspot)
    rwa [Lacks, walk.eq_3 d l n ns _ hn hspot, walk.eq_3 d' l n ns _ hn hspot', place, if_neg hn]
  | case4 l n hn hspot =>
    rw [walk_last hn, Lacks, walk_last hn, place, if_neg hn, place]
    by_cases hvacant : d.spot (l ++ [n]) = .vacant (l ++ [n])
    · exact Or.inr ⟨Or.inl ⟨_, congrArg Except.ok hvacant⟩, hvacant⟩
    · exact Or.inl (congrArg Except.ok (h.spot_eq hvacant))
  | case5 l n hn m ms l' hspot =>
    have hspot' : d'.spot (l ++ [n]) = .file l' := (h.spot_eq (by simp [hspot])).trans hspot
    exact Or.inl (walk.eq_5 d' l n m ms hn l' hspot')
  | case6 l n hn m ms l' hspot =>
    -- the rest of the names leads down from nothing
    right
    have hl' : l' = l ++ [n] := by
      have hlocation := spot_location d (l ++ [n])
      rwa [hspot] at hlocation
    rw [hl'] at hspot
    refine ⟨Or.inr (walk.eq_6 d l n m ms hn _ hspot), ?_⟩
    rw [place, if_neg hn, place_of_notMem (hsteady.notMem hn hspot)]
    exact htree.vacant_below hspot (m :: ms)

theorem has_iff : d.has p = true ↔ ∃ s, d.locate p = .ok s ∧ ∀ l, s ≠ .vacant l := by
  rw [has]
  rcases d.locate p with e | s
  · simp
  · cases s <;> simp

/-- A steady path leads to the same as before, or to something where nothing was. -/
theorem Grows.locate_or (h : d.Grows d') (htree : d.IsTree) (hsteady : d.Steady p) :
    d'.locate p = d.locate p ∨ d.has p = false ∧
      ∀ s, d'.locate p = .ok s → d.spot s.location = .vacant s.location := by
  obtain ⟨w, hext, -⟩ := h.frame
  have hstart := hext.start p
  rcases h.walk_or htree hsteady with hwalk | ⟨hlacks, hvacant⟩
  · left
    rw [Disk.locate, Disk.locate, hstart, hwalk]
  · -- the walk ends where nothing was, so nothing was there
    right
    constructor
    · rw [Bool.eq_false_iff, ne_eq, has_iff]
      rintro ⟨s, hs, hthere⟩
      have hwalk := (locate_eq_ok_iff.mp hs).2.1
      rcases hlacks with ⟨l', hl'⟩ | hnone
      · exact hthere l' (Except.ok.inj (hwalk.symm.trans hl'))
      · cases hwalk.symm.trans hnone
    · intro s hs
      rw [walk_place (locate_eq_ok_iff.mp hs).2.1, hstart]
      exact hvacant

end DesignCompiler.Disk
