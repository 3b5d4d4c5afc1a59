import DesignCompiler.Project.Output
import DesignCompiler.Proofs.Project.Discovery
import DesignCompiler.Proofs.Text.Bytes
import Mathlib.Data.String.Basic

/-!
# DesignCompiler — designs by their names

What is discovered is in the order of the names, each only once. So the file that is found by a name is the
one that the list has for it, and what is read for all files, one after the other, is what is read for
the file of a name.

* `discover_ascending` — discovered designs ascend by their names;
* `find?_name` — a file is found by its name;
* `Project.Finds` — all designs of a project are those that are found by name;
* `Project.designs_finds` — they are.
-/

namespace DesignCompiler

/-! ## Order -/

/-- Sorted by name, files with different names ascend. -/
theorem ascending_mergeSort {fs : List DesignFile} (h : (fs.map (·.name)).Nodup) :
    (fs.mergeSort fun a b => a.name ≤ b.name).Pairwise fun a b => a.name < b.name := by
  have hsorted : (fs.mergeSort fun a b => a.name ≤ b.name).Pairwise fun a b =>
      decide (a.name ≤ b.name) = true := by
    refine List.pairwise_mergeSort ?_ ?_ fs
    · intro a b c hab hbc
      exact decide_eq_true ((of_decide_eq_true hab).trans (of_decide_eq_true hbc))
    · intro a b
      simpa using le_total a.name b.name
  have hnodup := ((List.mergeSort_perm fs fun a b => a.name ≤ b.name).map (·.name)).nodup_iff.mpr h
  rw [List.Nodup, List.pairwise_map] at hnodup
  exact (hsorted.and hnodup).imp fun ⟨hle, hne⟩ => lt_of_le_of_ne (of_decide_eq_true hle) hne

theorem distinct_of_nodup {seen fs : List DesignFile}
    (h : ((seen ++ fs).map (·.name)).Nodup) : distinct seen fs = .ok fs := by
  induction fs generalizing seen with
  | nil => rfl
  | cons f fs ih =>
    have hnone : seen.find? (·.name == f.name) = none := by
      rw [List.map_append, List.nodup_append] at h
      rw [List.find?_eq_none]
      intro g hg
      simpa using h.2.2 g.name (List.mem_map_of_mem hg) f.name (by simp)
    rw [List.append_cons] at h
    rw [distinct, hnone]
    exact bind_of_eq_ok (ih h) _

variable {d : Disk} {dir : Path} {files : List DesignFile}

theorem discover_ascending (h : discover d dir = .ok files) :
    files.Pairwise fun a b => a.name < b.name := by
  rcases discover_cases h with ⟨l, -, rfl, hnodup⟩ | ⟨-, rfl⟩ | ⟨-, rfl⟩
  · exact ascending_mergeSort hnodup
  · rw [designFiles, List.filterMap_cons]
    split <;> simp
  · exact .nil

/-- What is discovered below a folder are the files below it that are designs, by ascending names. -/
theorem discover_eq_ok_iff {l : Location} (hdir : d.locate dir = .ok (.folder l)) :
    discover d dir = .ok files ↔ files.Perm (designFiles dir (d.filesBelow l)) ∧
      files.Pairwise fun a b => a.name < b.name := by
  constructor
  · intro h
    refine ⟨?_, discover_ascending h⟩
    rcases discover_cases h with ⟨l', hl', rfl, -⟩ | ⟨⟨l', hl'⟩, -⟩ | ⟨hfolder, -⟩
    · obtain rfl := Spot.folder.inj (Except.ok.inj (hdir.symm.trans hl'))
      exact List.mergeSort_perm _ _
    · exact nomatch hdir.symm.trans hl'
    · exact absurd hdir (hfolder l)
  · rintro ⟨hperm, hascending⟩
    have hnodup : ((designFiles dir (d.filesBelow l)).map (·.name)).Nodup := by
      rw [← (hperm.map _).nodup_iff, List.Nodup, List.pairwise_map]
      exact hascending.imp fun hlt => ne_of_lt hlt
    have hsorted := ascending_mergeSort hnodup
    rw [discover, hdir]
    refine (bind_of_eq_ok (distinct_of_nodup hnodup) _).trans (congrArg Except.ok ?_)
    -- lists with the same members that both ascend are the same
    refine ((List.mergeSort_perm _ _).trans hperm.symm).eq_of_pairwise ?_ hsorted hascending
    exact fun a b _ _ hab hba => absurd hab (lt_asymm hba)

/-! ## Files by name -/

theorem find?_name (hnodup : (files.map (·.name)).Nodup) {f : DesignFile} (hf : f ∈ files) :
    files.find? (·.name == f.name) = some f := by
  cases hfind : files.find? (·.name == f.name) with
  | none =>
    have hne := List.find?_eq_none.mp hfind f hf
    simp at hne
  | some g =>
    have hname : g.name = f.name := by simpa using List.find?_some hfind
    rw [List.inj_on_of_nodup_map hnodup (List.mem_of_find?_eq_some hfind) hf hname]

theorem find?_name_eq_none {n : String} :
    files.find? (·.name == n) = none ↔ n ∉ files.map (·.name) := by
  simp [List.find?_eq_none]

/-! ## Designs by name -/

variable [Readers] {p : Project}

/-- All designs of a project, each under the name by which it is found; and no others are found. -/
structure Project.Finds (p : Project) (d : Disk) (designs : List (String × Design)) : Prop where
  ascending : designs.Pairwise fun x y => Text.bytes x.1 < Text.bytes y.1
  found : ∀ x ∈ designs, p.design d x.1 = .ok x.2
  missing : ∀ n, n ∉ designs.map (·.1) →
    p.design d n = .error (.configNotFound (p.designsPath.join ⟨n⟩).text)

/-- The design of one file, under its name. -/
def loadNamed (d : Disk) (f : DesignFile) : Except ProjectError (String × Design) := do
  return (f.name, ← Design.load d f.path)

theorem loadNamed_eq_ok_iff {f : DesignFile} {x : String × Design} :
    loadNamed d f = .ok x ↔ x.1 = f.name ∧ Design.load d f.path = .ok x.2 := by
  rw [loadNamed, bind_eq_ok_iff]
  constructor
  · rintro ⟨design, hload, hx⟩
    obtain rfl := Except.ok.inj hx
    exact ⟨rfl, hload⟩
  · rintro ⟨hname, hload⟩
    exact ⟨x.2, hload, congrArg Except.ok (Prod.ext hname.symm rfl)⟩

theorem Project.designs_finds {designs : List (String × Design)} (h : p.designs d = .ok designs) :
    p.Finds d designs := by
  obtain ⟨files, hfiles, hloaded⟩ := bind_eq_ok_iff.mp h
  -- The designs are the files found, one by one and in their order.
  have hall : List.Forall₂ (fun f x => loadNamed d f = .ok x) files designs :=
    forall₂_of_mapM hloaded
  have hnames : designs.map (·.1) = files.map (·.name) :=
    map_of_forall₂ hall fun f x hx => (loadNamed_eq_ok_iff.mp hx).1
  have hnodup := discover_nodup hfiles
  refine ⟨?_, fun x hx => ?_, fun n hn => ?_⟩
  · have hascending := List.pairwise_map.mpr (discover_ascending hfiles)
    rw [← hnames, List.pairwise_map] at hascending
    exact hascending.imp Text.bytes_lt
  · obtain ⟨f, hf, hfx⟩ := exists_of_forall₂ hall hx
    obtain ⟨hname, hload⟩ := loadNamed_eq_ok_iff.mp hfx
    rw [Project.design, bind_of_eq_ok hfiles, hname, find?_name hnodup hf]
    exact hload
  · rw [hnames] at hn
    rw [Project.design, bind_of_eq_ok hfiles, find?_name_eq_none.mpr hn]

end DesignCompiler
