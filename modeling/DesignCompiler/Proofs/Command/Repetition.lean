import DesignCompiler.Proofs.Command.Alike
import DesignCompiler.Proofs.Command.Output
import DesignCompiler.Proofs.Project.Resaving

/-!
# DesignCompiler — runs after other runs

Commands read sources and write other files. So however many runs there have been, the sources are the
same, and what is read and printed is the same as in the first run; and a compilation that is repeated
writes what is there.

* `runCommand_of_alike` — commands that only read end alike where they read the same;
* `runCommand_grows` — a command leaves the sources alone, also if it fails;
* `compile_again` — a compilation that is repeated;
* `after`, `after_grows` — the files after some runs;
* `after_unchanged` — all of this after any runs;
* `detourDisk_differs` — a path through a folder that is not there.
-/

namespace DesignCompiler.Command

open ClassName Disk

/-! ## The output -/

instance : IsPreorder Session fun s s' => s.disk.Grows s'.disk where
  refl s := Grows.refl s.disk
  trans _ _ _ := Grows.trans

variable {α : Type} {disk d d' : Disk} {config : String} {c : Subcommand} {p : Project}
  {s : Settings} {design : Option String} {dialect : Option Dialect} {stdout : Bool}
  {files : List DesignFile} {results : List CompiledDesign}

theorem perform_moves {wrap : FileError → Failure} {f : Disk.Action FileError α}
    (h : Moves Grows f) : Moves (fun s s' => s.disk.Grows s'.disk) (perform wrap f) := by
  intro st
  rw [run_perform]
  exact h st.disk

theorem deliver_moves (hslugs : ∀ c ∈ results, ∀ page ∈ c.pages, IsSlug page.slug) :
    Moves (fun s s' => s.disk.Grows s'.disk) (deliver stdout p results) := by
  refine Moves.bind (Moves.forM fun c hc => ?_) fun _ st => Grows.refl st.disk
  split
  · exact fun st => Grows.refl st.disk
  · exact (perform_moves (c.save_moves (hslugs c hc) _)).bind fun _ st => Grows.refl st.disk

theorem perform_stays {wrap : FileError → Failure} {f : Disk.Action FileError α}
    (h : Stays d.SameShape f) : Stays (fun s => d.SameShape s.disk) (perform wrap f) := by
  intro st hst
  obtain ⟨a, e, hrun, he⟩ := h st.disk hst
  exact ⟨a, { st with disk := e }, by rw [run_perform, hrun]; rfl, he⟩

theorem info_stays (message : String) : Stays (fun s => d.SameShape s.disk) (info message) :=
  fun st hst => ⟨(), _, run_info message st, hst⟩

/-- Where all files have their places, the output is written again. -/
theorem deliver_stays (hslugs : ∀ c ∈ results, ∀ page ∈ c.pages, IsSlug page.slug)
    (h : ∀ t ∈ outputs p results, ∃ l, d.locate t.1 = .ok (.file l)) :
    Stays (fun s => d.SameShape s.disk) (deliver false p results) := by
  refine Stays.bind (Stays.forM fun c hc => ?_) fun _ => info_stays _
  refine (perform_stays (c.save_stays (hslugs c hc) fun t ht => ?_)).bind fun _ => info_stays _
  exact h t (List.mem_flatMap.mpr ⟨c, hc, ht⟩)

/-- What has been written is written again where it is, and then nothing has changed. -/
theorem deliver_again (hslugs : ∀ c ∈ results, ∀ page ∈ c.pages, IsSlug page.slug)
    {st st' st₁ : Session} (htree : st'.disk.IsTree) (hst₁ : st₁.disk = st'.disk)
    (hrun : (deliver false p results).run.run st = (.ok (), st')) :
    ∃ st₂, (deliver false p results).run.run st₁ = (.ok (), st₂) ∧ st₂.disk = st'.disk := by
  have hwrites := deliver_writes hrun
  -- every file has its place by now
  have hlocated : ∀ t ∈ outputs p results, ∃ l, st'.disk.locate t.1 = .ok (.file l) :=
    fun t ht => ⟨_, hwrites.located t ht⟩
  obtain ⟨⟨⟩, st₂, hrun', hshape⟩ :=
    deliver_stays hslugs hlocated st₁ (hst₁ ▸ SameShape.refl st'.disk)
  have hwrites' := deliver_writes hrun'
  rw [hst₁] at hwrites'
  exact ⟨st₂, hrun', eq_of_writes htree hwrites hwrites' hshape⟩

/-! ## What commands read and write -/

section Reading

variable [Readers]

theorem Compiled.slugs (h : Compiled disk p s design files results) :
    ∀ c ∈ results, ∀ page ∈ c.pages, IsSlug page.slug := by
  intro c hc
  obtain ⟨f, -, hcf⟩ := exists_of_forall₂ h.comesFrom hc
  obtain ⟨d, -, hcompile, -⟩ := hcf.pages
  exact (Design.compile_slugs hcompile).1

/-- Two runs with the same result end alike, and the first leaves the files as they were. -/
theorem runCommand_of_alike (h : Alike d d' (runSteps config c)) :
    (runCommand d' config c).exit = (runCommand d config c).exit ∧
      (runCommand d' config c).printed = (runCommand d config c).printed ∧
      (runCommand d config c).disk = d := by
  obtain ⟨hresult, hsession⟩ := h { disk := d } { disk := d' } ⟨rfl, rfl, rfl⟩
  rw [runCommand, runCommand]
  rcases hrun : (runSteps config c).run.run { disk := d } with ⟨f | ⟨⟩, st⟩ <;>
    rcases hrun' : (runSteps config c).run.run { disk := d' } with ⟨f' | ⟨⟩, st'⟩ <;>
    rw [hrun, hrun'] at hresult hsession
  · exact ⟨rfl, hsession.printed, hsession.left⟩
  · cases (hresult ()).mp rfl
  · cases (hresult ()).mpr rfl
  · exact ⟨rfl, hsession.printed, hsession.left⟩

theorem ReadsAlike.refl (d : Disk) (config : String) : ReadsAlike d d config :=
  ⟨fun _ => Iff.rfl, fun _ _ => rfl, fun _ _ _ _ _ _ => rfl⟩

/-- Commands that print and write no files. -/
def Subcommand.onlyPrints : Subcommand → Bool
  | .init _ _ => false
  | .validate => true
  | .tree _ _ => true
  | .compile _ _ stdout => stdout

theorem runSteps_alike (h : ReadsAlike d d' config) (hc : c.onlyPrints = true) :
    Alike d d' (runSteps config c) := by
  cases c with
  | init path name => exact nomatch hc
  | validate => exact validate_alike h
  | tree design page => exact showTrees_alike h design page
  | compile design dialect stdout =>
    obtain rfl : stdout = true := hc
    rw [runSteps, compile_eq]
    exact (prepare_alike h design dialect).bind fun x => deliver_alike x.1 x.2

theorem runCommand_of_onlyPrints (hc : c.onlyPrints = true) : (runCommand disk config c).disk = disk :=
  (runCommand_of_alike (runSteps_alike (.refl disk config) hc)).2.2

/-- A command other than that for new projects leaves the sources alone, also if it fails. -/
theorem runCommand_grows (hinit : ∀ path name, c ≠ .init path name) :
    disk.Grows (runCommand disk config c).disk := by
  have hprints : c.onlyPrints = true → disk.Grows (runCommand disk config c).disk := by
    intro hc
    rw [runCommand_of_onlyPrints hc]
    exact Grows.refl disk
  cases c with
  | init path name => exact absurd rfl (hinit path name)
  | validate => exact hprints rfl
  | tree design page => exact hprints rfl
  | compile design dialect stdout =>
    -- the compilation has failed before anything was written, or it writes
    rcases runCommand_compile_cases disk config design dialect stdout with huntouched | hcompiled
    · rw [huntouched.disk_eq]
      exact Grows.refl disk
    · obtain ⟨p, files, results, log, -, hcompiled, hrun⟩ := hcompiled
      have hmoves : disk.Grows ((deliver stdout p results).run.run { disk, log }).2.disk :=
        deliver_moves hcompiled.slugs { disk, log }
      rw [← hrun] at hmoves
      rw [runCommand, runSteps]
      rcases h : (compile config design dialect stdout).run.run { disk } with ⟨f | ⟨⟩, st⟩ <;>
        rw [h] at hmoves <;> exact hmoves

/-! ## Compiling again -/

/-- A compilation that succeeds has been prepared, and its output succeeds. -/
theorem exists_prepare_of_exit (h : (runCommand d config (.compile design dialect stdout)).exit = 0) :
    ∃ p results log st, (prepare config design dialect).run.run { disk := d } =
        (.ok (p, results), { disk := d, log }) ∧
      (deliver stdout p results).run.run { disk := d, log } = (.ok (), st) ∧
      (runCommand d config (.compile design dialect stdout)).disk = st.disk := by
  obtain ⟨log, hquiet⟩ := prepare_quiet config design dialect { disk := d }
  -- a run that ends well has got through both parts, and the first one writes nothing
  rw [runCommand, runSteps, compile_eq, run_bind] at h ⊢
  rcases hprepare : (prepare config design dialect).run.run { disk := d } with ⟨f | ⟨p, results⟩, st⟩
  · rw [hprepare] at h
    cases h
  · rw [hprepare] at h hquiet
    obtain rfl : st = { disk := d, log } := hquiet
    rcases hdeliver : (deliver stdout p results).run.run { disk := d, log } with ⟨f | ⟨⟩, st⟩
    · simp only [hdeliver] at h
      cases h
    · exact ⟨p, results, log, st, rfl, hdeliver, by simp only [hdeliver]⟩

/-- Where designs have been found, a loaded project is read alike later. -/
theorem readsAlike_of_load (h : d.Grows d') (htree : d.IsTree)
    (hp : Project.load d ⟨config⟩ = .ok p) (hleads : d.LeadsToProject ⟨config⟩)
    (hhas : d.has p.designsPath = true) : ReadsAlike d d' config := by
  refine readsAlike_of_grows h htree (Project.steady_of_load hp) (hleads.of_grows h) fun p' hp' => ?_
  obtain rfl := Except.ok.inj (hp.symm.trans hp')
  obtain ⟨s, hs, -⟩ := has_iff.mp hhas
  exact steady_of_locate hs

/-- Without designs there is no output. -/
theorem deliver_of_has_eq_false {st st' : Session} (h : Compiled d p s design files results)
    (hhas : d.has p.designsPath = false)
    (hrun : (deliver stdout p results).run.run st = (.ok (), st')) : st'.disk = st.disk := by
  obtain rfl : files = [] := Except.ok.inj (h.listed.symm.trans (discover_of_has_eq_false hhas))
  obtain rfl : results = [] := by
    have hcompiled := h.compiled
    cases design <;> exact (Except.ok.inj hcompiled).symm
  obtain ⟨-, hst⟩ := Prod.mk.inj hrun
  rw [← hst]

/-- A compilation that succeeds does so again, and then leaves all files as they are. -/
theorem compile_again (htree : d.IsTree) (hleads : d.LeadsToProject ⟨config⟩)
    (hexit : (runCommand d config (.compile design dialect stdout)).exit = 0)
    (hd' : (runCommand d config (.compile design dialect stdout)).disk = d') :
    (runCommand d' config (.compile design dialect stdout)).exit = 0 ∧
      (runCommand d' config (.compile design dialect stdout)).disk = d' := by
  have hgrows : d.Grows d' := hd' ▸ runCommand_grows nofun
  obtain ⟨p, results, log, st, hprepare, hdeliver, hdisk⟩ := exists_prepare_of_exit hexit
  obtain rfl : st.disk = d' := hdisk.symm.trans hd'
  obtain ⟨hload, files, hcompiled⟩ := compiled_of_prepare hprepare
  by_cases hsame : st.disk = d
  · -- nothing was written, so the second run is the first
    rw [hsame] at hd' ⊢
    exact ⟨hexit, hd'⟩
  · have hhas : d.has p.designsPath = true := by
      rw [← Bool.not_eq_false]
      exact fun hhas => hsame (deliver_of_has_eq_false hcompiled hhas hdeliver)
    -- otherwise the designs have been there, and are compiled again with the same result
    obtain ⟨hresult, hsession⟩ := prepare_alike (readsAlike_of_load hgrows htree hload hleads hhas)
      design dialect { disk := d } { disk := st.disk } ⟨rfl, rfl, rfl⟩
    rcases hagain : (prepare config design dialect).run.run { disk := st.disk } with ⟨r, st₁⟩
    rw [hprepare, hagain] at hresult hsession
    obtain rfl := (hresult _).mpr rfl
    have hst₁ : st₁.disk = st.disk := hsession.right
    cases stdout with
    | true => exact absurd (hd'.symm.trans (runCommand_of_onlyPrints rfl)) hsame
    | false =>
      obtain ⟨st₂, hrun, heq⟩ := deliver_again hcompiled.slugs (hgrows.tree htree) hst₁ hdeliver
      have hsteps : (runSteps config (.compile design dialect false)).run.run { disk := st.disk } =
          (.ok (), st₂) := by
        rw [runSteps, compile_eq, run_bind, hagain]
        exact hrun
      rw [runCommand_of_ok hsteps]
      exact ⟨rfl, heq⟩

/-! ## Any number of runs -/

/-- The files after some runs, one after the other. -/
def after (disk : Disk) (runs : List (List String)) : Disk :=
  runs.foldl (fun d arguments => (run d arguments).disk) disk

/-- Arguments of the command that makes a new project. -/
def Initializes (arguments : List String) : Prop :=
  ∃ config path name, Invocation.ofArguments arguments = some (.run config (.init path name))

theorem run_grows {arguments : List String} (h : ¬ Initializes arguments) (disk : Disk) :
    disk.Grows (run disk arguments).disk := by
  rw [run]
  split
  · exact Grows.refl disk
  · exact Grows.refl disk
  · exact Grows.refl disk
  · rename_i config c harguments
    exact runCommand_grows fun path name hc => h ⟨config, path, name, hc ▸ harguments⟩

/-- By induction on the number of runs. -/
theorem after_grows {runs : List (List String)} (h : ∀ arguments ∈ runs, ¬ Initializes arguments)
    (disk : Disk) : disk.Grows (after disk runs) := by
  induction runs generalizing disk with
  | nil => exact Grows.refl disk
  | cons arguments runs ih =>
    obtain ⟨hfst, hrest⟩ := List.forall_mem_cons.mp h
    exact (run_grows hfst disk).trans (ih hrest _)

/-- Files that differ from those of the start in nothing that a command reads. -/
structure Unchanged (disk later : Disk) : Prop where
  /-- All project files and designs have their contents, and there are no others. -/
  sources : later.sources = disk.sources
  /-- What only prints does so as in the beginning, if no path leads back out of a folder that was not
  there in the beginning. -/
  prints : ∀ arguments config c, Invocation.ofArguments arguments = some (.run config c) →
    c.onlyPrints = true → later.LeadsToProject ⟨config⟩ → disk.Steady ⟨config⟩ →
    (∀ p, Project.load disk ⟨config⟩ = .ok p → disk.Steady p.designsPath) →
    (run later arguments).exit = (run disk arguments).exit ∧
      (run later arguments).printed = (run disk arguments).printed
  /-- A compilation that succeeds can be repeated, and then no file changes. -/
  again : ∀ arguments config design dialect stdout,
    Invocation.ofArguments arguments = some (.run config (.compile design dialect stdout)) →
    later.LeadsToProject ⟨config⟩ → (run later arguments).exit = 0 →
    (run (run later arguments).disk arguments).exit = 0 ∧
      (run (run later arguments).disk arguments).disk = (run later arguments).disk

/--
**Runs leave what is read unchanged.** After any runs of other commands than that for new projects,
successful or not, all project files and designs are as they were, and the output may even be among them.
What is printed is the same as in the first run, unless a path leads through a folder that was not
there; and a compilation that succeeds can be repeated without any change.
-/
theorem after_unchanged {disk : Disk} (htree : disk.IsTree) {runs : List (List String)}
    (hruns : ∀ arguments ∈ runs, ¬ Initializes arguments) : Unchanged disk (after disk runs) := by
  have hgrows := after_grows hruns disk
  refine ⟨hgrows.sources, ?_, ?_⟩
  · intro arguments config c harguments hc hleads hsteady hdesigns
    have hreads := readsAlike_of_grows hgrows htree hsteady hleads hdesigns
    obtain ⟨hexit, hprinted, -⟩ := runCommand_of_alike (runSteps_alike hreads hc)
    rw [run_of_arguments harguments, run_of_arguments harguments]
    exact ⟨hexit, hprinted⟩
  · intro arguments config design dialect stdout harguments hleads hexit
    rw [run_of_arguments harguments] at hexit ⊢
    rw [run_of_arguments harguments]
    exact compile_again (hgrows.tree htree) hleads hexit rfl

end Reading

/-- A project that is written into the folder of its designs. -/
def nestedDisk : Disk where
  files := [(["pagesmith.yaml"], "name: a\noutput_dir: designs\n".toUTF8),
    (["designs", "home.yaml"], ("id: 1\npages:\n  - id: 1\n    components:\n      - id: 1\n" ++
      "        kind: box\n").toUTF8)]
  folders := [["designs"]]

/-- The project is compiled, and its designs are looked at as if they were a project. -/
def nestedRuns : List (List String) :=
  [["compile"], ["--config", "designs", "validate"]]

theorem nestedDisk_unchanged :
    Unchanged nestedDisk (after nestedDisk nestedRuns) ∧
      (after nestedDisk nestedRuns).files.length = 4 ∧
      (run (after nestedDisk nestedRuns) ["tree", "home"]).printed =
        (run nestedDisk ["tree", "home"]).printed := by
  have hruns : ∀ arguments ∈ nestedRuns, ¬ Initializes arguments := by
    have hcompile : Invocation.ofArguments ["compile"] =
        some (.run "pagesmith.yaml" (.compile none none false)) := by decide +kernel
    have hvalidate : Invocation.ofArguments ["--config", "designs", "validate"] =
        some (.run "designs" .validate) := by decide +kernel
    simp [nestedRuns, Initializes, hcompile, hvalidate]
  have htree : nestedDisk.IsTree := by decide +kernel
  have hunchanged := after_unchanged htree hruns
  refine ⟨hunchanged, by decide +kernel, ?_⟩
  have hdesigns : (Project.load nestedDisk ⟨"pagesmith.yaml"⟩).toOption.all
      (".." ∉ ·.designsPath.names) := by decide +kernel
  -- the printed tree is the same by the theorem, not by computing the runs
  refine (hunchanged.prints _ "pagesmith.yaml" (.tree "home" none) (by decide +kernel) rfl
    (Or.inr ⟨"pagesmith.yaml", by decide +kernel, by decide +kernel⟩)
    (steady_of_notMem (by decide +kernel)) fun p hp => steady_of_notMem ?_).2
  rw [hp] at hdesigns
  exact of_decide_eq_true hdesigns

/-- Two projects with the same designs. The path to those of the second leads through the output of the
first. -/
def detourDisk : Disk where
  files := [(["a.yaml"], "name: a\noutput_dir: out\n".toUTF8),
    (["b.yaml"], "name: b\ndesigns_dir: out/../designs\n".toUTF8),
    (["designs", "home.yaml"], ("id: 1\npages:\n  - id: 1\n    components:\n      - id: 1\n" ++
      "        kind: box\n").toUTF8)]
  folders := [["designs"]]

/-- The design is only found after the output of the first project was made. -/
theorem detourDisk_differs :
    detourDisk.IsTree ∧ ¬ Initializes ["--config", "a.yaml", "compile"] ∧
      Invocation.ofArguments ["--config", "b.yaml", "tree", "home"] =
        some (.run "b.yaml" (.tree "home" none)) ∧
      (run detourDisk ["--config", "b.yaml", "tree", "home"]).exit = 1 ∧
      (run (after detourDisk [["--config", "a.yaml", "compile"]])
        ["--config", "b.yaml", "tree", "home"]).exit = 0 := by
  have hcompile : Invocation.ofArguments ["--config", "a.yaml", "compile"] =
      some (.run "a.yaml" (.compile none none false)) := by decide +kernel
  refine ⟨by decide +kernel, ?_, by decide +kernel, by decide +kernel, by decide +kernel⟩
  simp [Initializes, hcompile]

end DesignCompiler.Command
