import DesignCompiler.Project.Output
import DesignCompiler.Proofs.Emission.Compilation

/-!
# DesignCompiler — when projects are compiled

Compilation stops at the first design that cannot be read or that has a page without code. A project
is compiled if no design is such, so it does not matter whether all designs are read first.

* `exists_compileAll_iff` — all designs below a folder;
* `Project.exists_compileAll_designsPath_iff` — those of a project, read before the first is compiled.
-/

namespace DesignCompiler

variable [Readers] {d : Disk} {s : Settings}

theorem exists_compileFile_iff {p : Path} {name : String} :
    (∃ c, compileFile d s p name = .ok c) ↔
      ∃ design, Design.load d p = .ok design ∧ ∀ page ∈ design.pages, ∃ c, page.compile s = .ok c := by
  rw [← outcome_eq_ok_iff, compileFile, outcome_bind, bind_eq_ok_iff]
  refine exists_congr fun design => and_congr_right fun _ => ?_
  rw [outcome_bind_pure, outcome_mapError, mapError_eq_ok_iff, Design.outcome_compile,
    forM_eq_ok_iff]
  simp only [outcome_eq_ok_iff]

/-- The designs below a folder are compiled if every file has a design whose pages are compiled, each
on its own. -/
theorem exists_compileAll_iff {dir : Path} :
    (∃ cs, compileAll d s dir = .ok cs) ↔
      ∃ files, discover d dir = .ok files ∧ ∀ f ∈ files, ∃ design,
        Design.load d f.path = .ok design ∧ ∀ page ∈ design.pages, ∃ c, page.compile s = .ok c := by
  rw [← outcome_eq_ok_iff, compileAll, outcome_bind, bind_eq_ok_iff]
  simp only [outcome_mapM, forM_eq_ok_iff, outcome_eq_ok_iff, exists_compileFile_iff]

/-- Files are read as designs whose pages have a property if each of them is. -/
theorem exists_load_iff {q : Page → Prop} {files : List DesignFile} :
    (∃ designs : List (String × Design),
      (files.mapM fun f => do return (f.name, ← Design.load d f.path)) = .ok designs ∧
        ∀ x ∈ designs, ∀ page ∈ x.2.pages, q page) ↔
      ∀ f ∈ files, ∃ design, Design.load d f.path = .ok design ∧ ∀ page ∈ design.pages, q page := by
  rw [exists_mapM_iff]
  refine forall₂_congr fun f _ => ?_
  constructor
  · rintro ⟨x, hx, hpages⟩
    obtain ⟨design, hload, hx⟩ := bind_eq_ok_iff.mp hx
    obtain rfl := Except.ok.inj hx
    exact ⟨design, hload, hpages⟩
  · rintro ⟨design, hload, hpages⟩
    exact ⟨(f.name, design), bind_eq_ok_iff.mpr ⟨design, hload, rfl⟩, hpages⟩

/-- The designs of a project are compiled if all of them are read, and then all their pages are
compiled. -/
theorem Project.exists_compileAll_designsPath_iff {p : Project} :
    (∃ cs, compileAll d s p.designsPath = .ok cs) ↔
      ∃ designs, p.designs d = .ok designs ∧
        ∀ page ∈ designs.flatMap (·.2.pages), ∃ c, page.compile s = .ok c := by
  simp only [exists_compileAll_iff, Project.designs, Project.designFiles,
    bind_eq_ok_iff, List.forall_mem_flatMap, ← exists_load_iff]
  constructor
  · rintro ⟨files, hfiles, designs, hdesigns, hpages⟩
    exact ⟨designs, ⟨files, hfiles, hdesigns⟩, hpages⟩
  · rintro ⟨designs, ⟨files, hfiles, hdesigns⟩, hpages⟩
    exact ⟨files, hfiles, designs, hdesigns, hpages⟩

end DesignCompiler
