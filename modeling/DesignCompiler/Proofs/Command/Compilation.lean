import DesignCompiler.Proofs.Command.Session
import DesignCompiler.Proofs.Project.Compilation

/-!
# DesignCompiler — compiling before writing

The compile command first compiles the designs that are asked for and only reads meanwhile; then it
prints or writes them. So a design that cannot be compiled stops it before the first output, wherever
it stands among the others.

* `Quiet` — actions that only read and log;
* `Obstacle` — what keeps a design that is asked for from being compiled;
* `Compiled` — the designs that are asked for, compiled;
* `runCommand_compile_cases` — a compilation stops at an obstacle, or goes on to the output;
* `run_compile_untouched` — what is left behind at an obstacle.
-/

namespace DesignCompiler.Command

/-! ## Actions that only read -/

/-- Nothing is written and nothing printed, whatever the result. -/
def Quiet {α : Type} (x : Action α) : Prop :=
  ∀ s, ∃ log, (x.run.run s).2 = { s with log }

namespace Quiet

variable {α β : Type} {x : Action α} {f : α → Action β}

theorem pure (a : α) : Quiet (Pure.pure a) :=
  fun s => ⟨s.log, rfl⟩

theorem fail (message : String) : Quiet (fail message : Action α) :=
  fun s => ⟨s.log, rfl⟩

theorem info (message : String) : Quiet (info message) :=
  fun s => ⟨s.log ++ [(.info, message)], rfl⟩

theorem consult (wrap : Failure → Failure) (f : Disk → Except ProjectError α) :
    Quiet (consult wrap f) := by
  intro s
  rw [run_consult]
  exact ⟨s.log, rfl⟩

theorem bind (hx : Quiet x) (hf : ∀ a, Quiet (f a)) : Quiet (x >>= f) := by
  intro s
  obtain ⟨log, hlog⟩ := hx s
  rw [run_bind]
  rcases h : x.run.run s with ⟨_ | a, s'⟩
  · rw [h] at hlog
    exact ⟨log, hlog⟩
  · rw [h] at hlog
    obtain ⟨log', hlog'⟩ := hf a s'
    refine ⟨log', hlog'.trans ?_⟩
    simp only at hlog
    rw [hlog]

end Quiet

/-! ## Designs that are asked for -/

/-- The designs of a compilation, among all that are there: that of a name, or all. -/
def chosen : Option String → List DesignFile → List DesignFile
  | some name, files => (files.find? (·.name == name)).toList
  | none, files => files

/-- The settings of a project, with the dialect of a compilation. -/
def settingsFor (p : Project) (dialect : Option Dialect) : Settings :=
  { p.config.settings with dialect := dialect.getD p.config.settings.dialect }

/-- A page that is compiled is built and emitted. -/
theorem exists_emit_of_compile {s : Settings} {page : Page} (h : ∃ c, page.compile s = .ok c) :
    ∃ t, PageTree.build page.components = .ok t ∧ ∃ code, t.emit s = .ok code := by
  rw [← outcome_eq_ok_iff, page.outcome_compile, outcome_eq_ok_iff] at h
  obtain ⟨⟨t, code⟩, hx⟩ := h
  obtain ⟨hbuild, hemit⟩ := emitComponents_eq_ok_iff.mp hx
  exact ⟨t, hbuild, code, hemit⟩

section Reading

variable [Readers]

/-- Why not all designs that are asked for can be compiled. -/
inductive Obstacle (disk : Disk) (p : Project) (s : Settings) (design : Option String) : Prop where
  /-- The designs cannot be listed, as when two have one name. -/
  | listing {e : ProjectError} (h : p.designFiles disk = .error e)
  | missing {files : List DesignFile} {name : String} (hfiles : p.designFiles disk = .ok files)
      (hname : design = some name) (h : ∀ f ∈ files, f.name ≠ name)
  | reading {files : List DesignFile} {f : DesignFile} {e : ProjectError}
      (hfiles : p.designFiles disk = .ok files) (hf : f ∈ chosen design files)
      (h : Design.load disk f.path = .error e)
  | building {files : List DesignFile} {f : DesignFile} {d : Design} {page : Page} {e : Defect}
      (hfiles : p.designFiles disk = .ok files) (hf : f ∈ chosen design files)
      (hload : Design.load disk f.path = .ok d) (hpage : page ∈ d.pages)
      (h : PageTree.build page.components = .error e)
  | emitting {files : List DesignFile} {f : DesignFile} {d : Design} {page : Page} {t : PageTree}
      {e : Refusal} (hfiles : p.designFiles disk = .ok files) (hf : f ∈ chosen design files)
      (hload : Design.load disk f.path = .ok d) (hpage : page ∈ d.pages)
      (hbuild : PageTree.build page.components = .ok t) (h : t.emit s = .error e)

/-- The designs that are asked for are compiled to `results`, one after the other. -/
structure Compiled (disk : Disk) (p : Project) (s : Settings) (design : Option String)
    (files : List DesignFile) (results : List CompiledDesign) : Prop where
  listed : p.designFiles disk = .ok files
  there : ∀ name, design = some name → ∃ f ∈ files, f.name = name
  compiled : (chosen design files).mapM (fun f => compileFile disk s f.path f.name) = .ok results

variable {disk : Disk} {p : Project} {s : Settings} {design : Option String}
  {files : List DesignFile} {results : List CompiledDesign} {st st' : Session}

/-- Every page of a design that is asked for is built and emitted. -/
theorem Compiled.pages {f : DesignFile} (h : Compiled disk p s design files results)
    (hf : f ∈ chosen design files) : ∃ d, Design.load disk f.path = .ok d ∧ ∀ page ∈ d.pages,
      ∃ t, PageTree.build page.components = .ok t ∧ ∃ code, t.emit s = .ok code := by
  have hall := exists_mapM_iff (p := fun _ => True) |>.mp ⟨results, h.compiled, fun _ _ => trivial⟩
  obtain ⟨c, hc, -⟩ := hall f hf
  obtain ⟨d, hload, hpages⟩ := exists_compileFile_iff.mp ⟨c, hc⟩
  exact ⟨d, hload, fun page hpage => exists_emit_of_compile (hpages page hpage)⟩

theorem Compiled.not_obstacle (h : Compiled disk p s design files results) :
    ¬ Obstacle disk p s design := by
  intro hobstacle
  -- each stage that the obstacle denies has succeeded, on the same files
  cases hobstacle with
  | listing he => exact nomatch h.listed.symm.trans he
  | missing hfiles hname hnone =>
    obtain rfl := Except.ok.inj (h.listed.symm.trans hfiles)
    obtain ⟨f, hf, hfname⟩ := h.there _ hname
    exact hnone f hf hfname
  | reading hfiles hf he =>
    obtain rfl := Except.ok.inj (h.listed.symm.trans hfiles)
    obtain ⟨d, hload, -⟩ := h.pages hf
    exact nomatch hload.symm.trans he
  | building hfiles hf hload hpage he =>
    obtain rfl := Except.ok.inj (h.listed.symm.trans hfiles)
    obtain ⟨d, hload', hpages⟩ := h.pages hf
    obtain rfl := Except.ok.inj (hload.symm.trans hload')
    obtain ⟨t, hbuild, -⟩ := hpages _ hpage
    exact nomatch hbuild.symm.trans he
  | emitting hfiles hf hload hpage hbuild he =>
    obtain rfl := Except.ok.inj (h.listed.symm.trans hfiles)
    obtain ⟨d, hload', hpages⟩ := h.pages hf
    obtain rfl := Except.ok.inj (hload.symm.trans hload')
    obtain ⟨t, hbuild', code, hcode⟩ := hpages _ hpage
    obtain rfl := Except.ok.inj (hbuild.symm.trans hbuild')
    exact nomatch hcode.symm.trans he

/-! ## The run up to the output -/

theorem loadProject_quiet (config : String) : Quiet (loadProject config) :=
  .consult _ _

theorem selectDesigns_quiet (p : Project) (s : Settings) (design : Option String) :
    Quiet (selectDesigns p s design) := by
  cases design with
  | none => exact (Quiet.info _).bind fun _ => .consult _ _
  | some name =>
    refine Quiet.bind (Quiet.bind (.consult _ _) fun files => ?_) fun _ => .pure _
    split
    · exact .fail _
    · exact .consult _ _

theorem compiled_of_selectDesigns
    (h : (selectDesigns p s design).run.run st = (.ok results, st')) :
    ∃ files, Compiled st.disk p s design files results := by
  cases design with
  | none =>
    obtain ⟨_, st₁, hinfo, hrest⟩ := run_bind_eq_ok h
    rw [run_info] at hinfo
    obtain ⟨-, rfl⟩ := Prod.mk.inj hinfo
    obtain ⟨hall, -⟩ := run_consult_eq_ok hrest
    obtain ⟨files, hfiles, hresults⟩ := bind_eq_ok_iff.mp hall
    exact ⟨files, hfiles, nofun, hresults⟩
  | some name =>
    -- all designs are listed, and the one that is found among them is compiled
    obtain ⟨c, st₁, hone, hpure⟩ := run_bind_eq_ok h
    rw [run_pure] at hpure
    obtain ⟨hresults, -⟩ := Prod.mk.inj hpure
    obtain ⟨files, st₂, hconsult, hfound⟩ := run_bind_eq_ok hone
    obtain ⟨hfiles, rfl⟩ := run_consult_eq_ok hconsult
    cases hfind : files.find? (·.name == name) with
    | none =>
      rw [hfind] at hfound
      exact nomatch hfound
    | some f =>
      rw [hfind] at hfound
      obtain ⟨hc, -⟩ := run_consult_eq_ok hfound
      refine ⟨files, hfiles, ?_, ?_⟩
      · rintro _ ⟨⟩
        exact ⟨f, List.mem_of_find?_eq_some hfind, by simpa using List.find?_some hfind⟩
      · rw [chosen, hfind, Option.toList_some, List.mapM_cons, hc, List.mapM_nil,
          ← Except.ok.inj hresults]
        rfl

/-- The part of a compilation that comes before its output. -/
def prepare (config : String) (design : Option String) (dialect : Option Dialect) :
    Action (Project × List CompiledDesign) := do
  info ("Loading configuration from " ++ config)
  let project ← loadProject config
  let results ← selectDesigns project (settingsFor project dialect) design
  return (project, results)

/-- The output of a compilation. -/
def deliver (stdout : Bool) (p : Project) (results : List CompiledDesign) : Action Unit := do
  results.forM fun c => if stdout then printDesign c else saveDesign p.outputPath c
  info ("Compiled " ++ toString results.length ++ " designs")

theorem compile_eq (config : String) (design : Option String) (dialect : Option Dialect)
    (stdout : Bool) :
    compile config design dialect stdout =
      prepare config design dialect >>= fun x => deliver stdout x.1 x.2 := by
  simp only [prepare, bind_assoc, pure_bind]
  rfl

theorem prepare_quiet (config : String) (design : Option String) (dialect : Option Dialect) :
    Quiet (prepare config design dialect) :=
  (Quiet.info _).bind fun _ => (loadProject_quiet config).bind fun p =>
    (selectDesigns_quiet p _ design).bind fun _ => .pure _

theorem compiled_of_prepare {config : String} {dialect : Option Dialect}
    (h : (prepare config design dialect).run.run st = (.ok (p, results), st')) :
    Project.load st.disk ⟨config⟩ = .ok p ∧
      ∃ files, Compiled st.disk p (settingsFor p dialect) design files results := by
  obtain ⟨_, st₁, hinfo, hload⟩ := run_bind_eq_ok h
  rw [run_info] at hinfo
  obtain ⟨-, rfl⟩ := Prod.mk.inj hinfo
  obtain ⟨p', st₁, hconsult, hselect⟩ := run_bind_eq_ok hload
  obtain ⟨hproject, rfl⟩ := run_consult_eq_ok hconsult
  obtain ⟨results', st₂, hselected, hpure⟩ := run_bind_eq_ok hselect
  rw [run_pure] at hpure
  obtain ⟨hpair, -⟩ := Prod.mk.inj hpure
  obtain ⟨rfl, rfl⟩ := Prod.mk.inj (Except.ok.inj hpair)
  have hcompiled := compiled_of_selectDesigns hselected
  exact ⟨hproject, hcompiled⟩

/-- The report of a run that has neither written nor printed anything, and failed. -/
structure Report.Untouched (r : Report) (disk : Disk) : Prop where
  exit : r.exit = 1
  disk_eq : r.disk = disk
  printed : r.printed = ""

/-- A compilation fails before its output, or it goes on to the output of all designs that are asked
for, with the files as they were and nothing printed so far. -/
theorem runCommand_compile_cases (disk : Disk) (config : String) (design : Option String)
    (dialect : Option Dialect) (stdout : Bool) :
    (runCommand disk config (.compile design dialect stdout)).Untouched disk ∨
      ∃ p files results log, Project.load disk ⟨config⟩ = .ok p ∧
        Compiled disk p (settingsFor p dialect) design files results ∧
        (compile config design dialect stdout).run.run { disk } =
          (deliver stdout p results).run.run { disk, log } := by
  obtain ⟨log, hquiet⟩ := prepare_quiet config design dialect { disk }
  rcases hprepare : (prepare config design dialect).run.run { disk } with ⟨f | ⟨p, results⟩, st⟩
  · -- a failure leaves behind what was read, and the failure is reported
    rw [hprepare] at hquiet
    obtain rfl : st = { disk, log } := hquiet
    have hrun : (runSteps config (.compile design dialect stdout)).run.run { disk } =
        (.error f, { disk, log }) := by
      rw [runSteps, compile_eq, run_bind, hprepare]
    rw [runCommand_of_error hrun]
    exact Or.inl ⟨rfl, rfl, rfl⟩
  · -- the output begins in a session in which only the log is not the one of the start
    rw [hprepare] at hquiet
    obtain rfl : st = { disk, log } := hquiet
    obtain ⟨hload, files, hcompiled⟩ := compiled_of_prepare hprepare
    refine Or.inr ⟨p, files, results, log, hload, hcompiled, ?_⟩
    rw [compile_eq, run_bind, hprepare]

/--
**All designs are compiled before the first output.** If a design that is asked for is missing, cannot be
read, or has a page that is not built or not emitted, then no file has changed and nothing is printed,
whatever stands before this design.
-/
theorem run_compile_untouched {arguments : List String} {config : String}
    {dialect : Option Dialect} {stdout : Bool}
    (harguments : Invocation.ofArguments arguments =
      some (.run config (.compile design dialect stdout)))
    (hobstacle : ∀ p, Project.load disk ⟨config⟩ = .ok p →
      Obstacle disk p (settingsFor p dialect) design) :
    (run disk arguments).Untouched disk := by
  rw [run_of_arguments harguments]
  rcases runCommand_compile_cases disk config design dialect stdout with h | h
  · exact h
  · obtain ⟨p, files, results, log, hload, hcompiled, -⟩ := h
    exact absurd (hobstacle p hload) hcompiled.not_obstacle

end Reading

/-- A design that can be compiled, and after it one whose only page has no components. -/
def haltedDisk : Disk where
  files := [(["pagesmith.yaml"], "name: a\n".toUTF8),
    (["designs", "a.yaml"], ("id: 1\npages:\n  - id: 1\n    components:\n      - id: 1\n" ++
      "        kind: box\n").toUTF8),
    (["designs", "b.yaml"], "id: 2\npages:\n  - id: 2\n".toUTF8)]
  folders := [["designs"]]

theorem haltedDisk_discover : discover haltedDisk ⟨"designs"⟩ =
    .ok [⟨"a", ⟨"designs/a.yaml"⟩⟩, ⟨"b", ⟨"designs/b.yaml"⟩⟩] := by
  have hbelow : haltedDisk.filesBelow ["designs"] = [["a.yaml"], ["b.yaml"]] :=
    List.mergeSort_of_pairwise (by decide +kernel)
  have hsorted : List.mergeSort [⟨"a", ⟨"designs/a.yaml"⟩⟩, ⟨"b", ⟨"designs/b.yaml"⟩⟩]
      (fun a b : DesignFile => a.name ≤ b.name) =
        [⟨"a", ⟨"designs/a.yaml"⟩⟩, ⟨"b", ⟨"designs/b.yaml"⟩⟩] :=
    List.mergeSort_of_pairwise (by decide +kernel)
  have hlocate : haltedDisk.locate ⟨"designs"⟩ = .ok (.folder ["designs"]) := by decide +kernel
  have hfound : distinct [] (designFiles ⟨"designs"⟩ [["a.yaml"], ["b.yaml"]]) =
      .ok [⟨"a", ⟨"designs/a.yaml"⟩⟩, ⟨"b", ⟨"designs/b.yaml"⟩⟩] := by
    rfl
  rw [discover, hlocate]
  simp only [hbelow, hfound]
  exact congrArg Except.ok hsorted

theorem haltedDisk_untouched : (run haltedDisk ["compile"]).Untouched haltedDisk := by
  have harguments : Invocation.ofArguments ["compile"] =
      some (.run "pagesmith.yaml" (.compile none none false)) := by decide +kernel
  refine run_compile_untouched harguments fun p hp => ?_
  -- of the project and of the design only what decides is computed
  have hpath : (Project.load haltedDisk ⟨"pagesmith.yaml"⟩).toOption.map (·.designsPath) =
      some ⟨"designs"⟩ := by decide +kernel
  rw [hp] at hpath
  have hfiles : p.designFiles haltedDisk = _ :=
    (congrArg (discover haltedDisk) (Option.some.inj hpath)).trans haltedDisk_discover
  have hpages : (Design.load haltedDisk ⟨"designs/b.yaml"⟩).toOption.map
      (·.pages.map (·.components.length)) = some [0] := by decide +kernel
  cases hload : Design.load haltedDisk ⟨"designs/b.yaml"⟩ with
  | error e => exact .reading hfiles (List.mem_cons_of_mem _ (List.mem_cons_self ..)) hload
  | ok d =>
    rw [hload] at hpages
    have hempty : ∃ page ∈ d.pages, page.components = [] := by
      obtain ⟨page, hpages, hnone⟩ := List.map_eq_singleton_iff.mp (Option.some.inj hpages)
      exact ⟨page, by simp [hpages], List.length_eq_zero_iff.mp hnone⟩
    obtain ⟨page, hpage, hnone⟩ := hempty
    have hbuild : PageTree.build page.components = .error .empty := by
      rw [hnone, PageTree.build, sortById, List.mergeSort_nil]
      rfl
    exact .building hfiles (List.mem_cons_of_mem _ (List.mem_cons_self ..)) hload hpage hbuild

end DesignCompiler.Command
