import DesignCompiler.Proofs.Command.Output
import DesignCompiler.Proofs.Project.Lookup

/-!
# DesignCompiler — one design and all designs

Designs are listed, found, read and compiled in several ways: all of a project at once, one by its name,
and one by the compile command. All of them start from the same list of files. So they agree, and where
one name is asked for that is not in the list, nothing comes out.

* `Report.Outputs` — a report with the output of one design;
* `Requests` — arguments that ask for one design of a project;
* `CompilesEach` — all compiled designs are those of the requests for one;
* `designs_agree` — designs one by one are those that come all at once.
-/

namespace DesignCompiler.Command

/-- What is left behind by a run whose output is one design: it is printed, or its files are written
until one cannot be. -/
structure Report.Outputs (r : Report) (disk : Disk) (p : Project) (stdout : Bool)
    (c : CompiledDesign) : Prop where
  printed : r.printed = if stdout then String.join (c.pages.map (pageText c.name)) else ""
  written : r.disk = if stdout then disk else ((c.save p.outputPath).run.run disk).2
  exit : r.exit = if stdout || ((c.save p.outputPath).run.run disk).1.isOk then 0 else 1

section Reading

variable [Readers]

/-- Arguments of a compilation of one design of a project, with some settings. -/
def Requests (arguments : List String) (disk : Disk) (p : Project) (s : Settings) (name : String)
    (stdout : Bool) : Prop :=
  ∃ config dialect, Project.load disk ⟨config⟩ = .ok p ∧ settingsFor p dialect = s ∧
    Invocation.ofArguments arguments = some (.run config (.compile (some name) dialect stdout))

/-- All designs of a project, compiled, each of which is what a request for it gives; and requests
for others give nothing. -/
structure CompilesEach (disk : Disk) (p : Project) (s : Settings) (cs : List CompiledDesign) :
    Prop where
  ascending : cs.Pairwise fun a b => Text.bytes a.name < Text.bytes b.name
  /-- They have the names of the designs that are read, in the same order. -/
  listed : ∃ designs, p.designs disk = .ok designs ∧ designs.map (·.1) = cs.map (·.name)
  compiled : ∀ c ∈ cs, ∀ stdout arguments, Requests arguments disk p s c.name stdout →
    (run disk arguments).Outputs disk p stdout c
  missing : ∀ name, name ∉ cs.map (·.name) → ∀ stdout arguments,
    Requests arguments disk p s name stdout → (run disk arguments).Untouched disk

variable {disk : Disk} {p : Project} {s : Settings} {files : List DesignFile} {f : DesignFile}
  {c : CompiledDesign} {config name : String} {dialect : Option Dialect} {stdout : Bool}

/-! ## Runs for one design -/

theorem run_prepare_one (hload : Project.load disk ⟨config⟩ = .ok p)
    (hfiles : p.designFiles disk = .ok files) (hfind : files.find? (·.name == name) = some f)
    (hc : compileFile disk (settingsFor p dialect) f.path f.name = .ok c) :
    (prepare config (some name) dialect).run.run { disk } =
      (.ok (p, [c]), { disk, log := [(.info, "Loading configuration from " ++ config)] }) := by
  simp only [prepare, loadProject, selectDesigns, compileOne, run_bind, run_info, run_consult,
    hload, hfiles, hfind, hc, mapError_ok, run_pure, List.nil_append]

/-- The output of one design is the end of the run. -/
theorem outputs_of_deliver {log : List (Level × String)}
    (hrun : (compile config (some name) dialect stdout).run.run { disk } =
      (deliver stdout p [c]).run.run { disk, log }) :
    (runCommand disk config (.compile (some name) dialect stdout)).Outputs disk p stdout c := by
  cases stdout with
  | true =>
    simp only [deliver, if_true, List.forM_eq_forM, List.forM_cons, List.forM_nil, printDesign,
      run_bind, run_print, run_pure, run_info, String.empty_append] at hrun
    rw [runCommand_of_ok (c := .compile (some name) dialect true) hrun]
    exact ⟨rfl, rfl, rfl⟩
  | false =>
    -- the files are written, or the run fails with the disk as it was left
    rcases hsave : (c.save p.outputPath).run.run disk with ⟨e | written, d⟩
    · simp only [deliver, Bool.false_eq_true, if_false, List.forM_eq_forM, List.forM_cons,
        saveDesign, run_bind, run_perform, hsave, mapError_error] at hrun
      rw [runCommand_of_error (c := .compile (some name) dialect false) hrun]
      exact ⟨rfl, (congrArg Prod.snd hsave).symm, by simp [hsave, Except.isOk, Except.toBool]⟩
    · simp only [deliver, Bool.false_eq_true, if_false, List.forM_eq_forM, List.forM_cons,
        List.forM_nil, saveDesign, run_bind, run_perform, hsave, mapError_ok, run_info,
        run_pure] at hrun
      rw [runCommand_of_ok (c := .compile (some name) dialect false) hrun]
      exact ⟨rfl, (congrArg Prod.snd hsave).symm, by simp [hsave, Except.isOk, Except.toBool]⟩

/-- A request for a design that is found and compiled. -/
theorem outputs_of_find {arguments : List String}
    (hrequest : Requests arguments disk p s name stdout) (hfiles : p.designFiles disk = .ok files)
    (hfind : files.find? (·.name == name) = some f)
    (hc : compileFile disk s f.path f.name = .ok c) :
    (run disk arguments).Outputs disk p stdout c := by
  obtain ⟨config, dialect, hload, rfl, harguments⟩ := hrequest
  rw [run_of_arguments harguments]
  have hrun := run_prepare_one hload hfiles hfind hc
  exact outputs_of_deliver (by rw [compile_eq, run_bind, hrun])

/-- A request for a design that is not listed. -/
theorem untouched_of_notMem {arguments : List String}
    (hrequest : Requests arguments disk p s name stdout) (hfiles : p.designFiles disk = .ok files)
    (hname : name ∉ files.map (·.name)) : (run disk arguments).Untouched disk := by
  obtain ⟨config, dialect, hload, -, harguments⟩ := hrequest
  rw [run_of_arguments harguments]
  rcases runCommand_compile_cases disk config (some name) dialect stdout with h | h
  · exact h
  · obtain ⟨p', files', results, log, hload', hcompiled, -⟩ := h
    obtain rfl := Except.ok.inj (hload.symm.trans hload')
    obtain rfl := Except.ok.inj (hfiles.symm.trans hcompiled.listed)
    obtain ⟨f, hf, hfname⟩ := hcompiled.there name rfl
    exact absurd (List.mem_map.mpr ⟨f, hf, hfname⟩) hname

/-! ## Agreement -/

theorem compilesEach_of_compileAll {cs : List CompiledDesign}
    (h : compileAll disk s p.designsPath = .ok cs) : CompilesEach disk p s cs := by
  obtain ⟨files, hfiles, hcompiled⟩ := bind_eq_ok_iff.mp h
  have hall := forall₂_of_mapM hcompiled
  have hnames : cs.map (·.name) = files.map (·.name) :=
    map_of_forall₂ hall fun f c hc => (comesFrom_of_compileFile hc).name
  refine ⟨?_, ?_, fun c hc stdout arguments hrequest => ?_,
    fun name hname stdout arguments hrequest => ?_⟩
  · have hascending := List.pairwise_map.mpr (discover_ascending hfiles)
    rw [← hnames, List.pairwise_map] at hascending
    exact hascending.imp Text.bytes_lt
  · -- what can be compiled can be read
    obtain ⟨designs, hdesigns, -⟩ := Project.exists_compileAll_designsPath_iff.mp ⟨cs, h⟩
    obtain ⟨files', hfiles', hloaded⟩ := bind_eq_ok_iff.mp hdesigns
    obtain rfl := Except.ok.inj (hfiles.symm.trans hfiles')
    refine ⟨designs, hdesigns, hnames ▸ map_of_forall₂ (forall₂_of_mapM hloaded) ?_⟩
    exact fun f x hx => (loadNamed_eq_ok_iff.mp hx).1
  · obtain ⟨f, hf, hfc⟩ := exists_of_forall₂ hall hc
    have hfind := find?_name (discover_nodup hfiles) hf
    rw [← (comesFrom_of_compileFile hfc).name] at hfind
    exact outputs_of_find hrequest hfiles hfind hfc
  · exact untouched_of_notMem hrequest hfiles (hnames ▸ hname)

/--
**One design is one of all designs.** If all designs of a project are read, then each of them is found by
its name, and no others are found. If all of them are compiled, then a compilation of one gives just
this one of them, and a compilation of a name that none of them has gives nothing. Both lists have the
same names, and ascend.
-/
theorem designs_agree (disk : Disk) (p : Project) :
    (∀ designs, p.designs disk = .ok designs → p.Finds disk designs) ∧
      ∀ s cs, compileAll disk s p.designsPath = .ok cs → CompilesEach disk p s cs :=
  ⟨fun _ => Project.designs_finds, fun _ _ => compilesEach_of_compileAll⟩

end Reading

/-- Two designs whose names begin in the same way. -/
def shelvedDisk : Disk where
  files := [(["pagesmith.yaml"], "name: a\n".toUTF8),
    (["designs", "shop", "home.yaml"], ("id: 1\npages:\n  - id: 1\n    components:\n" ++
      "      - id: 1\n        kind: box\n").toUTF8),
    (["designs", "shop-2.json"], "\x7b\"id\": 2, \"pages\": []\x7d".toUTF8)]
  folders := [["designs"], ["designs", "shop"]]

theorem shelvedDisk_discover : discover shelvedDisk ⟨"designs"⟩ =
    .ok [⟨"shop-2", ⟨"designs/shop-2.json"⟩⟩, ⟨"shop/home", ⟨"designs/shop/home.yaml"⟩⟩] := by
  have hlocate : shelvedDisk.locate ⟨"designs"⟩ = .ok (.folder ["designs"]) := by decide +kernel
  have hbelow : shelvedDisk.filesBelow ["designs"] = [["shop", "home.yaml"], ["shop-2.json"]] :=
    List.mergeSort_of_pairwise (by decide +kernel)
  rw [discover_eq_ok_iff hlocate, hbelow]
  exact ⟨by decide +kernel, by decide +kernel⟩

theorem shelvedDisk_agree : ∃ p cs, Project.load shelvedDisk ⟨"pagesmith.yaml"⟩ = .ok p ∧
    compileAll shelvedDisk (settingsFor p none) p.designsPath = .ok cs ∧
    cs.map (·.name) = ["shop-2", "shop/home"] ∧
    (∃ designs, p.designs shelvedDisk = .ok designs ∧ p.Finds shelvedDisk designs) ∧
    (∃ c ∈ cs, c.name = "shop/home" ∧
      (run shelvedDisk ["compile", "--design", "shop/home"]).Outputs shelvedDisk p false c) ∧
    (run shelvedDisk ["compile", "--design", "shop"]).Untouched shelvedDisk := by
  -- loading the project and compiling both files is computed at once
  have hall : (Project.load shelvedDisk ⟨"pagesmith.yaml"⟩).toOption.any fun p =>
      p.designsPath = ⟨"designs"⟩ &&
        ([⟨"shop-2", ⟨"designs/shop-2.json"⟩⟩, ⟨"shop/home", ⟨"designs/shop/home.yaml"⟩⟩].mapM
          fun f : DesignFile => compileFile shelvedDisk (settingsFor p none) f.path f.name).isOk := by
    decide +kernel
  cases hload : Project.load shelvedDisk ⟨"pagesmith.yaml"⟩ with
  | error e =>
    rw [hload] at hall
    exact nomatch hall
  | ok p =>
    rw [hload] at hall
    obtain ⟨hpath, hok⟩ := Bool.and_eq_true_iff.mp hall
    have hfiles : discover shelvedDisk p.designsPath = _ :=
      (congrArg (discover shelvedDisk) (of_decide_eq_true hpath)).trans shelvedDisk_discover
    obtain ⟨cs, hcs⟩ := isOk_iff.mp hok
    have hcompiled : compileAll shelvedDisk (settingsFor p none) p.designsPath = .ok cs := by
      rw [compileAll, bind_of_eq_ok hfiles, hcs]
    have hnames : cs.map (·.name) = ["shop-2", "shop/home"] :=
      map_of_forall₂ (forall₂_of_mapM hcs) fun f c hc => (comesFrom_of_compileFile hc).name
    obtain ⟨hread, hcompile⟩ := designs_agree shelvedDisk p
    have heach := hcompile _ cs hcompiled
    obtain ⟨designs, hdesigns, -⟩ := heach.listed
    have hhome : "shop/home" ∈ cs.map (·.name) := by simp [hnames]
    obtain ⟨c, hc, hname⟩ := List.mem_map.mp hhome
    refine ⟨p, cs, rfl, hcompiled, hnames, ⟨designs, hdesigns, hread designs hdesigns⟩,
      ⟨c, hc, hname, ?_⟩, ?_⟩
    · exact heach.compiled c hc false _ ⟨_, none, hload, rfl, by rw [hname]; decide +kernel⟩
    · exact heach.missing "shop" (by simp [hnames]) false _ ⟨_, none, hload, rfl, by decide +kernel⟩

end DesignCompiler.Command
