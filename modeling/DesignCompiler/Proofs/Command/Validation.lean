import DesignCompiler.Proofs.Command.Session
import DesignCompiler.Proofs.Project.Compilation

/-!
# DesignCompiler — validation and compilation

Validation reads all designs and then emits page after page; it goes on after a failure. Compilation
goes from design to design and stops at the first failure. Both accept the same projects, and what
validation counts are the pages that cannot be compiled on their own.

* `refusedPages` — how many pages are not compiled;
* `run_validate_of_designs`, `run_validate_of_error` — the run of a validation;
* `report_of_designs` — its report, by the pages that have faults;
* `Report.Validates` — what the report of a validation says about a project;
* `run_validates` — it says so of every project that is loaded.
-/

namespace DesignCompiler.Command

/-- The pages of some designs, one design after the other. -/
def pagesOf (designs : List (String × Design)) : List Page :=
  designs.flatMap (·.2.pages)

/-- How many pages are not compiled. -/
def refusedPages (s : Settings) (pages : List Page) : Nat :=
  pages.countP fun p => !(p.compile s).isOk

/-! ## Faults -/

theorem map_page_numberedPages (designs : List (String × Design)) :
    (numberedPages designs).map (·.2.2) = pagesOf designs := by
  rw [numberedPages, pagesOf, List.map_flatMap]
  refine List.flatMap_congr fun x _ => ?_
  rw [List.map_map]
  exact List.zipIdx_map_fst 0 x.2.pages

/-- A page has a fault if it is not compiled, under these settings or others. -/
theorem isSome_pageFault? (s s' : Settings) (p : Page) :
    (pageFault? s p).isSome = !(p.compile s').isOk := by
  have hemit : (pageFault? s p).isSome = !(emitComponents s p.components).isOk := by
    unfold pageFault?
    cases emitComponents s p.components <;> rfl
  rw [hemit, ← isOk_outcome, outcome_emitComponents s s', ← p.outcome_compile s', isOk_outcome]

theorem length_faults (s s' : Settings) (designs : List (String × Design)) :
    (faults s (numberedPages designs)).length = refusedPages s' (pagesOf designs) := by
  rw [faults, List.length_filterMap_eq_countP, refusedPages, ← map_page_numberedPages,
    List.countP_map]
  refine List.countP_congr fun x _ => ?_
  simp [isSome_pageFault? s s']

theorem refusedPages_eq_zero_iff {s : Settings} {pages : List Page} :
    refusedPages s pages = 0 ↔ ∀ p ∈ pages, ∃ c, p.compile s = .ok c := by
  rw [refusedPages, List.countP_eq_zero]
  refine forall₂_congr fun p _ => ?_
  cases p.compile s <;> simp [Except.isOk, Except.toBool]

/-! ## Runs -/

/-- What the log says about a project that is validated. -/
def projectLines (config : String) (p : Project) : List (Level × String) :=
  [(.info, "Validating configuration: " ++ config), (.info, "✓ Project: " ++ p.config.name),
    (.info, "✓ Version: " ++ p.config.version),
    (.info, "✓ Dialect: " ++ p.config.settings.dialect.title)]

/-- What the log says about a page that is not emitted. -/
def faultLine : String × Nat × PageError → Level × String
  | (name, index, e) => (.error, "✗ " ++ name ++ " page " ++ toString index ++ ": " ++ e.cause)

/-- The failure of a validation in which some pages out of all are refused. -/
def refusal (refused pages : Nat) : Failure where
  message := toString refused ++ " of " ++ toString pages ++ " pages failed validation"

theorem countP_projectLines (config : String) (p : Project) :
    (projectLines config p).countP (·.1 == .error) = 0 := rfl

theorem countP_faultLines (failed : List (String × Nat × PageError)) :
    (failed.map faultLine).countP (·.1 == .error) = failed.length := by
  rw [List.countP_map, List.countP_eq_length]
  exact fun _ _ => rfl

section Reading

variable [Readers] {config : String} {p : Project} {disk : Disk}

/-- No page is looked at if a design cannot be read. -/
theorem run_validate_of_error {e : ProjectError} (hload : Project.load disk ⟨config⟩ = .ok p)
    (h : p.designs disk = .error e) :
    (validate config).run.run { disk } =
      (.error ((Failure.ofProject e).within "Failed to load designs"),
        { disk, log := projectLines config p }) := by
  simp only [validate, loadProject, run_bind, run_info, run_consult, hload, h, mapError_ok]
  rfl

/-- Every page is looked at, also after one that is refused. -/
theorem run_validate_of_designs {designs : List (String × Design)}
    (hload : Project.load disk ⟨config⟩ = .ok p) (h : p.designs disk = .ok designs)
    {failed : List (String × Nat × PageError)}
    (hfailed : faults p.config.settings (numberedPages designs) = failed) :
    (validate config).run.run { disk } =
      if failed = [] then
        (.ok (), { disk, log := projectLines config p ++
          [(.info, "✓ " ++ toString designs.length ++ " designs, " ++
            toString (numberedPages designs).length ++ " pages are valid")] })
      else
        (.error (refusal failed.length (numberedPages designs).length),
          { disk, log := projectLines config p ++ failed.map faultLine }) := by
  simp only [validate, loadProject, run_bind, run_info, run_consult, hload, h, hfailed,
    mapError_ok, List.forM_eq_forM, run_forM_note]
  -- all lines are logged by now; what is left is how the command ends
  cases failed with
  | nil => rfl
  | cons x failed => rfl

/-! ## Reports -/

/-- The report counts those of some pages that are not compiled: a line of the log for each, and
their number in the failure if there are any. -/
structure Report.Counts (r : Report) (s : Settings) (pages : List Page) : Prop where
  lines : r.log.countP (·.1 == .error) = refusedPages s pages
  failure : r.failure = if refusedPages s pages = 0 then none
    else some (refusal (refusedPages s pages) pages.length)

/-- What the report of a validation says about a project, under its own settings and all others. -/
structure Report.Validates (r : Report) (disk : Disk) (p : Project) : Prop where
  exit : ∀ s, r.exit = 0 ↔ ∃ cs, compileAll disk s p.designsPath = .ok cs
  counts : ∀ designs, p.designs disk = .ok designs → ∀ s, r.Counts s (pagesOf designs)

/-- A project whose designs cannot be read is neither valid nor compiled. -/
theorem validates_of_error {e : ProjectError} (hload : Project.load disk ⟨config⟩ = .ok p)
    (h : p.designs disk = .error e) : (runCommand disk config .validate).Validates disk p := by
  rw [runCommand_of_error (c := .validate) (run_validate_of_error hload h)]
  refine ⟨fun s => ?_, fun designs hdesigns => ?_⟩
  · rw [Project.exists_compileAll_designsPath_iff, h]
    simp
  · rw [h] at hdesigns
    cases hdesigns

/-- What is reported of designs that are read, by the pages that have faults. -/
theorem report_of_designs {designs : List (String × Design)}
    (hload : Project.load disk ⟨config⟩ = .ok p) (h : p.designs disk = .ok designs)
    {failed : List (String × Nat × PageError)}
    (hfailed : faults p.config.settings (numberedPages designs) = failed) :
    ((runCommand disk config .validate).exit = 0 ↔ failed.length = 0) ∧
      (runCommand disk config .validate).log.countP (·.1 == .error) = failed.length ∧
      (runCommand disk config .validate).failure = if failed.length = 0 then none
        else some (refusal failed.length (numberedPages designs).length) := by
  have hrun := run_validate_of_designs hload h hfailed
  cases failed with
  | nil =>
    rw [if_pos rfl] at hrun
    rw [runCommand_of_ok (c := .validate) hrun]
    exact ⟨Iff.rfl, rfl, rfl⟩
  | cons x failed =>
    rw [if_neg (List.cons_ne_nil x failed)] at hrun
    rw [runCommand_of_error (c := .validate) hrun]
    refine ⟨by simp, ?_, rfl⟩
    -- one line for each fault is an error, and none of those about the project is
    rw [List.countP_append, countP_projectLines, countP_faultLines, Nat.zero_add]

/-- A project whose designs are read is valid if no page has a fault. -/
theorem validates_of_designs {designs : List (String × Design)}
    (hload : Project.load disk ⟨config⟩ = .ok p) (h : p.designs disk = .ok designs) :
    (runCommand disk config .validate).Validates disk p := by
  obtain ⟨hexit, hlines, hfailure⟩ := report_of_designs hload h rfl
  refine ⟨fun s => ?_, fun designs' hdesigns s => ?_⟩
  · -- both ask that no page is refused
    rw [hexit, length_faults _ s, refusedPages_eq_zero_iff,
      Project.exists_compileAll_designsPath_iff, h]
    simp [pagesOf]
  · obtain rfl := Except.ok.inj (h.symm.trans hdesigns)
    have hpages : (numberedPages designs).length = (pagesOf designs).length := by
      rw [← map_page_numberedPages, List.length_map]
    rw [length_faults _ s] at hlines hfailure
    rw [hpages] at hfailure
    exact ⟨hlines, hfailure⟩

/--
**Validation decides about compilation.** Validation succeeds exactly if all designs of the project
are compiled, under the settings of the project and under all others. If all designs are read, it
reports as many pages as are not compiled on their own.
-/
theorem run_validates {arguments : List String}
    (harguments : Invocation.ofArguments arguments = some (.run config .validate))
    (hload : Project.load disk ⟨config⟩ = .ok p) : (run disk arguments).Validates disk p := by
  have hrun : run disk arguments = runCommand disk config .validate := by rw [run, harguments]
  rw [hrun]
  cases h : p.designs disk with
  | error e => exact validates_of_error hload h
  | ok designs => exact validates_of_designs hload h

end Reading

/-- A project of one design with two pages: one component on the first, none on the second. -/
def mixedDisk : Disk where
  files := [(["pagesmith.yaml"], "name: a\n".toUTF8),
    (["designs", "b.yaml"], ("id: 1\npages:\n  - id: 1\n    components:\n      - id: 1\n" ++
      "        kind: box\n  - id: 2\n").toUTF8)]
  folders := [["designs"]]

theorem mixedDisk_validates : ∃ p, Project.load mixedDisk ⟨"pagesmith.yaml"⟩ = .ok p ∧
    (run mixedDisk ["validate"]).Validates mixedDisk p ∧
    (run mixedDisk ["validate"]).failure = some (refusal 1 2) := by
  have hok : (Project.load mixedDisk ⟨"pagesmith.yaml"⟩).isOk := by decide +kernel
  cases hp : Project.load mixedDisk ⟨"pagesmith.yaml"⟩ with
  | error e =>
    rw [hp] at hok
    cases hok
  | ok p => exact ⟨p, rfl, run_validates (by decide +kernel) hp, by decide +kernel⟩

end DesignCompiler.Command
