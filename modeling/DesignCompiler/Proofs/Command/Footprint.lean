import DesignCompiler.Proofs.Command.Output
import DesignCompiler.Proofs.Files.Filling
import DesignCompiler.Proofs.Project.Lookup
import DesignCompiler.Proofs.Project.Resaving

/-!
# DesignCompiler — where saved designs go

The name of a design is the way to its file, without the extension; it is also the way to the folder of
its pages, below that of the output. Names of files make a way down. But a file that is called by dots
only, extension aside, gives two dots, which lead back up; and a folder of designs may be called like
the file of a page.

* `Crosses` — a folder that one design needs is in the place of a file of another;
* `Footprint` — what can be said of the places of saved designs;
* `compileAll_footprint` — it is so for all designs that are discovered and compiled.
-/

namespace DesignCompiler

open ClassName Disk
open Location (Above)

variable {d : Disk} {s : Settings} {dir : Path} {files : List DesignFile}
  {results : List CompiledDesign}

/-! ## Names -/

theorem pieces_intercalate {ns : List String} (hne : ns ≠ []) (hns : ∀ n ∈ ns, IsFileName n) :
    (⟨"/".intercalate ns⟩ : Path).pieces = ns :=
  Path.pieces_of_intercalate hne fun n hn => (hns n hn).noSlash

theorem pieces_dots {ns : List String} (hns : ∀ n ∈ ns, IsFileName n) :
    (⟨"/".intercalate (ns ++ [".."])⟩ : Path).pieces = ns ++ [".."] := by
  refine Path.pieces_of_intercalate (by simp) ?_
  rw [List.forall_mem_append, List.forall_mem_singleton]
  exact ⟨fun n hn => (hns n hn).noSlash, by decide⟩

theorem names_dots {ns : List String} (hns : ∀ n ∈ ns, IsFileName n) :
    (⟨"/".intercalate (ns ++ [".."])⟩ : Path).names = ns ++ [".."] := by
  rw [Path.names, pieces_dots hns, List.filter_append, List.filter_eq_self.mpr]
  · rfl
  · exact fun n hn => (hns n hn).isName

theorem isAbsolute_dots {ns : List String} (hns : ∀ n ∈ ns, IsFileName n) :
    (⟨"/".intercalate (ns ++ [".."])⟩ : Path).isAbsolute = false := by
  cases ns with
  | nil => decide
  | cons n ns =>
    rw [Bool.eq_false_iff, ne_eq, Path.isAbsolute_iff (pieces_dots hns)]
    rintro ⟨rfl, -⟩
    exact absurd (hns "" (List.mem_cons_self ..)).isName (by decide)

namespace DesignFile.Called

variable {f : DesignFile}

theorem dot_notMem (h : f.Called) : "." ∉ (⟨f.name⟩ : Path).pieces := by
  have hfree : ∀ ns : List String, (∀ n ∈ ns, IsFileName n) → "." ∉ ns := fun ns hns hmem =>
    absurd (hns "." hmem).isName (by decide)
  cases h with
  | alone hname => rw [hname]; decide
  | names hne hns hname =>
    rw [hname, pieces_intercalate hne hns]
    exact hfree _ hns
  | dots hns hname =>
    rw [hname, pieces_dots hns, List.mem_append, not_or]
    exact ⟨hfree _ hns, by decide⟩

theorem dots_mem_iff (h : f.Called) : ".." ∈ (⟨f.name⟩ : Path).pieces ↔
    f.name ≠ "" ∧ (f.path.stem? = some "." ∨ f.path.stem? = some "..") := by
  cases h with
  | alone hname =>
    have hpieces : (⟨"" ⟩ : Path).pieces = [""] := by decide
    simp [hname, hpieces]
  | names hne hns hname hdot hdots =>
    rw [hname, pieces_intercalate hne hns]
    refine ⟨fun hmem => absurd rfl (hns ".." hmem).notUp, fun hstem => ?_⟩
    exact absurd hstem.2 (not_or.mpr ⟨hdot, hdots⟩)
  | dots hns hname hstem =>
    have hpieces := pieces_dots hns
    rw [← hname] at hpieces
    -- two dots are the last piece, so the name is not empty
    refine iff_of_true (by rw [hpieces]; simp) ⟨?_, hstem⟩
    intro hempty
    rw [hempty] at hpieces
    have hlast := congrArg List.getLast? hpieces
    rw [List.getLast?_concat] at hlast
    exact absurd hlast (by decide)

theorem folders (h : f.Called) (hup : ".." ∉ (⟨f.name⟩ : Path).pieces) :
    ∃ ns, (∀ n ∈ ns, IsFileName n) ∧ f.name = "/".intercalate ns := by
  cases h with
  | alone hname => exact ⟨[], nofun, hname⟩
  | names _ hns hname => exact ⟨_, hns, hname⟩
  | dots hns hname =>
    rw [hname, pieces_dots hns] at hup
    exact absurd (List.mem_append_right _ (List.mem_singleton_self _)) hup

theorem upward (h : f.Called) (hup : ".." ∈ (⟨f.name⟩ : Path).pieces) :
    ∃ ns, (∀ n ∈ ns, IsFileName n) ∧ f.name = "/".intercalate (ns ++ [".."]) := by
  cases h with
  | alone hname =>
    rw [hname] at hup
    exact absurd hup (by decide)
  | names hne hns hname =>
    rw [hname, pieces_intercalate hne hns] at hup
    exact absurd rfl (hns ".." hup).notUp
  | dots hns hname => exact ⟨_, hns, hname⟩

end DesignFile.Called

/-! ## Crossings -/

/-- A folder that a design needs for its pages is in the place of a file of another design, or below. -/
def Crosses (results : List CompiledDesign) : Prop :=
  ∃ c ∈ results, ∃ page ∈ c.pages, ∃ n ∈ page.fileNames, ∃ c' ∈ results, c'.pages ≠ [] ∧
    (⟨c.name⟩ : Path).names ++ [n] <+: (⟨c'.name⟩ : Path).names

instance (results : List CompiledDesign) : Decidable (Crosses results) :=
  inferInstanceAs (Decidable (∃ c ∈ results, ∃ page ∈ c.pages, ∃ n ∈ page.fileNames,
    ∃ c' ∈ results, c'.pages ≠ [] ∧ (⟨c.name⟩ : Path).names ++ [n] <+: (⟨c'.name⟩ : Path).names))

/-- One place is above another exactly if designs cross. -/
theorem above_places_iff : (∃ a ∈ results.flatMap CompiledDesign.places,
    ∃ b ∈ results.flatMap CompiledDesign.places, Above a b) ↔ Crosses results := by
  simp only [List.mem_flatMap]
  constructor
  · rintro ⟨a, ⟨c, hc, ha⟩, b, ⟨c', hc', hb⟩, habove⟩
    obtain ⟨page, hpage, n, hn, rfl⟩ := CompiledDesign.mem_places ha
    obtain ⟨page', hpage', n', -, rfl⟩ := CompiledDesign.mem_places hb
    exact ⟨c, hc, page, hpage, n, hn, c', hc', List.ne_nil_of_mem hpage',
      Location.above_concat_iff.mp habove⟩
  · rintro ⟨c, hc, page, hpage, n, hn, c', hc', hpages, hprefix⟩
    obtain ⟨page', hpage'⟩ := List.exists_mem_of_ne_nil _ hpages
    refine ⟨_, ⟨c, hc, ?_⟩, (⟨c'.name⟩ : Path).names ++ [page'.markupFile], ⟨c', hc', ?_⟩,
      Location.above_concat_iff.mpr hprefix⟩
    · exact List.mem_flatMap.mpr ⟨page, hpage, List.mem_map_of_mem hn⟩
    · exact List.mem_flatMap.mpr ⟨page', hpage', List.mem_map_of_mem (List.mem_cons_self ..)⟩

/-- Where the files are to go makes no difference. -/
theorem above_targets_iff (h : ∀ c ∈ results, c.IsNamed) (e : Disk) (output : Path) :
    (∃ t ∈ results.flatMap (·.texts output), ∃ t' ∈ results.flatMap (·.texts output),
      Above (e.target t.1) (e.target t'.1)) ↔ Crosses results := by
  have htargets : (∃ t ∈ results.flatMap (·.texts output), ∃ t' ∈ results.flatMap (·.texts output),
      Above (e.target t.1) (e.target t'.1)) ↔
      ∃ l ∈ e.targets (results.flatMap (·.texts output)),
        ∃ l' ∈ e.targets (results.flatMap (·.texts output)), Above l l' := by
    simp only [targets, List.mem_map, exists_exists_and_eq_and]
  rw [htargets, CompiledDesign.targets_texts_all h, ← above_places_iff]
  simp only [List.mem_map, exists_exists_and_eq_and, Location.above_append_iff]

theorem uncrossed_of_not_crosses (h : ∀ c ∈ results, c.IsNamed) (hcross : ¬ Crosses results) :
    Uncrossed (results.flatMap CompiledDesign.places) := by
  refine ⟨fun a ha => ?_, fun a ha b hb habove => ?_⟩
  · obtain ⟨c, hc, ha⟩ := List.mem_flatMap.mp ha
    obtain ⟨page, hpage, n, hn, rfl⟩ := CompiledDesign.mem_places ha
    obtain ⟨ns, hns, hname⟩ := (h c hc).folders
    rw [hname, Path.names_intercalate hns]
    refine ⟨by simp, List.forall_mem_append.mpr ⟨hns, List.forall_mem_singleton.mpr ?_⟩⟩
    exact CompiledPage.isFileName_of_mem_fileNames ((h c hc).slugs page hpage) hn
  · exact hcross (above_places_iff.mp ⟨a, ha, b, hb, habove⟩)

/-! ## Saving -/

section Saving

variable {e : Disk} {output dir : Path} {rel : List (List String)} {ms : List String}
  (htree : e.IsTree) (hfresh : e.Fresh output) (hrel : Uncrossed rel)

include htree hfresh hrel

/-- Saving a page goes on filling the places below the output. -/
theorem CompiledPage.save_fills (p : CompiledPage) (hstart : dir.isAbsolute = output.isAbsolute)
    (hnames : dir.names = output.names ++ ms)
    (hdot : e.spot (e.target output ++ ms) = .folder (e.target output ++ ms) ∨
      dir.endsInDot = false)
    (hplaces : ∀ n ∈ p.fileNames, ms ++ [n] ∈ rel) :
    Stays (e.Fills (rel.map (e.target output ++ ·))) (p.save dir) := by
  intro e₀ h₀
  have hmarkup := hplaces p.markupFile (List.mem_cons_self ..)
  have hstylesheet := hplaces p.stylesheetFile
    (List.mem_cons_of_mem _ (List.mem_cons_self ..))
  -- the folder, the markup and the stylesheet
  obtain ⟨e₁, hrun₁, h₁, hfolder₁⟩ :=
    h₀.makeFolders htree hfresh hrel hstart hnames hmarkup hdot
  obtain ⟨e₂, hrun₂, h₂, hfolder₂⟩ :=
    h₁.saveText htree hfresh hrel hstart hnames hmarkup hfolder₁ p.markup
  obtain ⟨e₃, hrun₃, h₃, -⟩ :=
    h₂.saveText htree hfresh hrel hstart hnames hstylesheet hfolder₂ p.stylesheet
  refine ⟨[dir.join ⟨p.markupFile⟩, dir.join ⟨p.stylesheetFile⟩], e₃, ?_, h₃⟩
  simp only [CompiledPage.save, run_bind, hrun₁, hrun₂, hrun₃]
  rfl

/-- Saving a design goes on filling them. -/
theorem CompiledDesign.save_fills {c : CompiledDesign} (hc : c.IsNamed)
    (hplaces : ∀ a ∈ c.places, a ∈ rel) :
    Stays (e.Fills (rel.map (e.target output ++ ·))) (c.save output) := by
  obtain ⟨ns, hns, hname⟩ := hc.folders
  have hnames := Path.names_intercalate hns
  have hrelative := Path.isAbsolute_intercalate hns
  rw [← hname] at hnames hrelative
  -- the folder of a design is the output itself if its name has no names
  have hdot : e.spot (e.target output ++ ns) = .folder (e.target output ++ ns) ∨
      (output.join ⟨c.name⟩).endsInDot = false := by
    rcases hfresh.there with hfolder | ⟨-, hdot⟩
    · by_cases hne : ns = []
      · rw [hne, List.append_nil]
        exact Or.inl (htree.spot_locate hfolder)
      · exact Or.inr (hname ▸ Path.endsInDot_join hns fun heq => absurd heq hne)
    · exact Or.inr (hname ▸ Path.endsInDot_join hns fun _ => hdot)
  refine Stays.bind (Stays.mapM fun page hpage => ?_) fun _ => .pure _
  refine page.save_fills htree hfresh hrel (Path.isAbsolute_join hrelative)
    ((Path.names_join hrelative).trans (by rw [hnames])) hdot fun n hn => ?_
  refine hplaces _ (List.mem_flatMap.mpr ⟨page, hpage, ?_⟩)
  rw [hnames]
  exact List.mem_map_of_mem hn

end Saving

/-- Saves designs one after the other. -/
def saveAll (results : List CompiledDesign) (output : Path) :
    Disk.Action FileError (List (List Path)) :=
  results.mapM fun c => c.save output

/-- Once all designs are saved, none of their files is above another one: the upper of two would have to
be a folder. -/
theorem not_crosses_of_saveAll (h : ∀ c ∈ results, c.IsNamed) {e e' : Disk} {output : Path}
    {written : List (List Path)} (htree : e.IsTree)
    (hrun : (saveAll results output).run.run e = (.ok written, e')) : ¬ Crosses results := by
  intro hcross
  have hwrites : e.Writes e' (results.flatMap (·.texts output)) :=
    Action.Saves.mapM (fun c _ => c.save_saves output) e e' written hrun
  have hgrows : Moves Grows (saveAll results output) :=
    Moves.mapM fun c hc => c.save_moves (h c hc).slugs output
  have htree' : e'.IsTree := by
    have hgrown := (hgrows e).tree htree
    rwa [hrun] at hgrown
  -- what has been written last to a place is still there
  have hfile : ∀ a ∈ results.flatMap CompiledDesign.places,
      e'.spot (e.target output ++ a) = .file (e.target output ++ a) := by
    intro a ha
    have hmem : e.target output ++ a ∈ e.targets (results.flatMap (·.texts output)) := by
      rw [CompiledDesign.targets_texts_all h]
      exact List.mem_map_of_mem ha
    obtain ⟨t, ht, htarget⟩ := List.mem_map.mp hmem
    rw [← htarget]
    exact spot_of_locate_file (hwrites.located t ht)
  obtain ⟨a, ha, b, hb, ns, hns, rfl⟩ := above_places_iff.mpr hcross
  have hlower := hfile _ hb
  rw [← List.append_assoc] at hlower
  have hupper := htree'.spot_above hns (hlower.trans_ne nofun)
  exact nomatch (hfile a ha).symm.trans hupper

/-- Designs can be saved below a fresh folder exactly if they do not cross. -/
theorem saveAll_iff (h : ∀ c ∈ results, c.IsNamed) {e : Disk} {output : Path} (htree : e.IsTree)
    (hfresh : e.Fresh output) :
    (∃ written e', (saveAll results output).run.run e = (.ok written, e')) ↔
      ¬ Crosses results := by
  constructor
  · rintro ⟨written, e', hrun⟩
    exact not_crosses_of_saveAll h htree hrun
  · intro hcross
    have hrel := uncrossed_of_not_crosses h hcross
    have hstays : Stays (e.Fills ((results.flatMap CompiledDesign.places).map
        (e.target output ++ ·))) (saveAll results output) :=
      Stays.mapM fun c hc => CompiledDesign.save_fills htree hfresh hrel (h c hc) fun a ha =>
        List.mem_flatMap.mpr ⟨c, hc, ha⟩
    obtain ⟨written, e', hrun, -⟩ := hstays e (Fills.refl htree _)
    exact ⟨written, e', hrun⟩

/-! ## Below the output -/

theorem CompiledDesign.mem_texts {c : CompiledDesign} {output : Path} {t : Path × String}
    (ht : t ∈ c.texts output) : ∃ page ∈ c.pages, ∃ n ∈ page.fileNames,
      t.1 = (output.join ⟨c.name⟩).join ⟨n⟩ := by
  obtain ⟨page, hpage, ht⟩ := List.mem_flatMap.mp ht
  rcases List.mem_cons.mp ht with rfl | ht
  · exact ⟨page, hpage, _, List.mem_cons_self .., rfl⟩
  · obtain rfl := List.mem_singleton.mp ht
    exact ⟨page, hpage, _, List.mem_cons_of_mem _ (List.mem_cons_self ..), rfl⟩

/-- Two dots at the end of a name take back the name before them, or else that of the output. -/
theorem target_dots (e : Disk) {ns : List String} (hns : ∀ n ∈ ns, IsFileName n) (output : Path) :
    e.target (output.join ⟨"/".intercalate (ns ++ [".."])⟩) = (e.target output ++ ns).dropLast := by
  have hrelative := isAbsolute_dots hns
  rw [target, start, Path.isAbsolute_join hrelative, Path.names_join hrelative, names_dots hns,
    place_append, place_append, place_fileNames hns]
  rfl

/-- The name of a design leads to the output or below, but for two dots only. -/
theorem DesignFile.Called.target_prefix_iff {f : DesignFile} (h : f.Called) {e : Disk}
    {output : Path} (hroot : e.target output ≠ []) :
    e.target output <+: e.target (output.join ⟨f.name⟩) ↔ f.name ≠ ".." := by
  by_cases hup : ".." ∈ (⟨f.name⟩ : Path).pieces
  · obtain ⟨ns, hns, hname⟩ := h.upward hup
    rw [hname, target_dots e hns]
    rcases List.eq_nil_or_concat' ns with rfl | ⟨init, n, rfl⟩
    · -- one name is missing
      rw [List.append_nil]
      refine iff_of_false (fun hprefix => ?_) (fun hne => hne rfl)
      have hlength := hprefix.length_le
      have hpos := List.length_pos_iff.mpr hroot
      rw [List.length_dropLast] at hlength
      omega
    · rw [← List.append_assoc, List.dropLast_concat]
      refine iff_of_true (List.prefix_append _ init) fun hdots => ?_
      have hpieces := pieces_dots hns
      rw [hdots] at hpieces
      have hlength := congrArg List.length hpieces
      have hone : (⟨".."⟩ : Path).pieces.length = 1 := by decide
      simp only [hone, List.length_append, List.length_singleton] at hlength
      omega
  · obtain ⟨ns, hns, hname⟩ := h.folders hup
    refine iff_of_true ?_ fun hdots => hup (by rw [hdots]; decide)
    have hnames : ∀ n ∈ (⟨f.name⟩ : Path).names, IsFileName n := by
      rwa [hname, Path.names_intercalate hns]
    rw [target_join e (hname ▸ Path.isAbsolute_intercalate hns) hnames]
    exact List.prefix_append _ _

/-- All files are below the output unless a design is called by two dots only. -/
theorem above_texts_iff (hcalled : ∀ c ∈ results, ∃ f : DesignFile, f.Called ∧ c.name = f.name)
    (hslugs : ∀ c ∈ results, ∀ page ∈ c.pages, IsSlug page.slug) {e : Disk} {output : Path}
    (hroot : e.target output ≠ []) :
    (∀ t ∈ results.flatMap (·.texts output), Above (e.target output) (e.target t.1)) ↔
      ∀ c ∈ results, c.name = ".." → c.pages = [] := by
  -- the file of a page is in the folder that the name of its design leads to
  have habove : ∀ c ∈ results, ∀ page ∈ c.pages, ∀ n ∈ page.fileNames,
      (Above (e.target output) (e.target ((output.join ⟨c.name⟩).join ⟨n⟩)) ↔ c.name ≠ "..") := by
    intro c hc page hpage n hn
    obtain ⟨f, hf, hname⟩ := hcalled c hc
    rw [CompiledPage.target_fileName (hslugs c hc page hpage) hn, Location.above_concat_iff, hname]
    exact hf.target_prefix_iff hroot
  constructor
  · intro hall c hc hname
    by_contra hpages
    obtain ⟨page, hpage⟩ := List.exists_mem_of_ne_nil _ hpages
    have hmem : ((output.join ⟨c.name⟩).join ⟨page.markupFile⟩, page.markup) ∈
        results.flatMap (·.texts output) :=
      List.mem_flatMap.mpr ⟨c, hc, List.mem_flatMap.mpr ⟨page, hpage, List.mem_cons_self ..⟩⟩
    have hbelow := hall _ hmem
    simp only [habove c hc page hpage page.markupFile (List.mem_cons_self ..)] at hbelow
    exact hbelow hname
  · intro hall t ht
    obtain ⟨c, hc, ht⟩ := List.mem_flatMap.mp ht
    obtain ⟨page, hpage, n, hn, heq⟩ := CompiledDesign.mem_texts ht
    have hpages : c.pages ≠ [] := List.ne_nil_of_mem hpage
    rw [heq, habove c hc page hpage n hn]
    exact fun hname => hpages (hall c hc hname)

/-! ## Footprints -/

/-- No design is named with two dots. -/
def PlainNames (files : List DesignFile) : Prop :=
  ∀ f ∈ files, ".." ∉ (⟨f.name⟩ : Path).pieces

instance (files : List DesignFile) : Decidable (PlainNames files) :=
  inferInstanceAs (Decidable (∀ f ∈ files, ".." ∉ (⟨f.name⟩ : Path).pieces))

/-- Where the designs that come from some files go, on every disk and below every output. -/
structure Footprint (files : List DesignFile) (results : List CompiledDesign) : Prop where
  dot : ∀ f ∈ files, "." ∉ (⟨f.name⟩ : Path).pieces
  /-- Two dots come from files that are called by dots only, extension aside. -/
  dots : ∀ f ∈ files, ".." ∈ (⟨f.name⟩ : Path).pieces ↔
    f.name ≠ "" ∧ (f.path.stem? = some "." ∨ f.path.stem? = some "..")
  /-- Above the root is the root itself, so nothing leads out of it. -/
  below : ∀ (e : Disk) (output : Path), e.target output ≠ [] →
    ((∀ t ∈ results.flatMap (·.texts output), Above (e.target output) (e.target t.1)) ↔
      ∀ c ∈ results, c.name = ".." → c.pages = [])
  above : PlainNames files → ∀ (e : Disk) (output : Path),
    (∃ t ∈ results.flatMap (·.texts output), ∃ t' ∈ results.flatMap (·.texts output),
      Above (e.target t.1) (e.target t'.1)) ↔ Crosses results
  saved : PlainNames files → ∀ (e : Disk) (output : Path), e.IsTree → e.Fresh output →
    ((∃ written e', (saveAll results output).run.run e = (.ok written, e')) ↔ ¬ Crosses results)

/--
**Where saved designs go.** A name of a design has no single dot, and two dots only if its file is
called by dots. All files are below the output unless a design is called by two dots and nothing else.
If none is called with two dots, one file is above another exactly if designs cross; and all designs can
be saved below a fresh folder exactly if they do not.
-/
theorem compileAll_footprint [Readers] (hnamed : d.Named) (h : compileAll d s dir = .ok results) :
    ∃ files, discover d dir = .ok files ∧ Footprint files results := by
  -- every design has the name of its file, and slugs for its pages
  obtain ⟨files, hfiles, hresults⟩ := bind_eq_ok_iff.mp h
  have hcomes : List.Forall₂ (Command.ComesFrom d s) files results :=
    (forall₂_of_mapM hresults).imp fun _ _ => Command.comesFrom_of_compileFile
  have hcalled : ∀ f ∈ files, f.Called := fun f hf => discover_called hnamed hfiles hf
  have hfile : ∀ c ∈ results, ∃ f ∈ files, c.name = f.name := by
    intro c hc
    obtain ⟨f, hf, hcf⟩ := exists_of_forall₂ hcomes hc
    exact ⟨f, hf, hcf.name⟩
  have hslugs : ∀ c ∈ results, (∀ page ∈ c.pages, IsSlug page.slug) ∧
      (c.pages.map (·.slug)).Nodup := by
    intro c hc
    obtain ⟨f, -, hcf⟩ := exists_of_forall₂ hcomes hc
    obtain ⟨design, -, hcompile, -⟩ := hcf.pages
    exact Design.compile_slugs hcompile
  have hplain : ∀ c ∈ results, ".." ∉ (⟨c.name⟩ : Path).pieces → c.IsNamed := by
    intro c hc hup
    obtain ⟨f, hf, hname⟩ := hfile c hc
    obtain ⟨ns, hns, hfolders⟩ := (hcalled f hf).folders (hname ▸ hup)
    exact ⟨⟨ns, hns, hname.trans hfolders⟩, (hslugs c hc).1, (hslugs c hc).2⟩
  have hall : PlainNames files → ∀ c ∈ results, c.IsNamed := by
    intro hnames c hc
    obtain ⟨f, hf, hname⟩ := hfile c hc
    exact hplain c hc (hname ▸ hnames f hf)
  refine ⟨files, hfiles, ?_, ?_, ?_, ?_, ?_⟩
  · exact fun f hf => (hcalled f hf).dot_notMem
  · exact fun f hf => (hcalled f hf).dots_mem_iff
  · intro e output hroot
    refine above_texts_iff (fun c hc => ?_) (fun c hc => (hslugs c hc).1) hroot
    obtain ⟨f, hf, hname⟩ := hfile c hc
    exact ⟨f, hcalled f hf, hname⟩
  · intro hnames e output
    exact above_targets_iff (hall hnames) e output
  · intro hnames e output htree hfresh
    exact saveAll_iff (hall hnames) htree hfresh

/-- A design with one page, which has a box on it. -/
def pageText (name : String) : ByteArray :=
  ("id: 1\npages:\n  - id: 1\n    name: " ++ name ++
    "\n    components:\n      - id: 1\n        kind: box\n").toUTF8

/-- Two designs, of which one is in a folder that is called like the file of the other's page. -/
def crossedDisk : Disk where
  files := [(["designs", "home", "a.html", "b.yaml"], pageText "B"),
    (["designs", "home.yaml"], pageText "A")]
  folders := [["designs"], ["designs", "home"], ["designs", "home", "a.html"]]

def crossedFiles : List DesignFile :=
  [⟨"home", ⟨"designs/home.yaml"⟩⟩, ⟨"home/a.html/b", ⟨"designs/home/a.html/b.yaml"⟩⟩]

theorem crossedDisk_discover : discover crossedDisk ⟨"designs"⟩ = .ok crossedFiles := by
  have hlocate : crossedDisk.locate ⟨"designs"⟩ = .ok (.folder ["designs"]) := by decide +kernel
  have hbelow : crossedDisk.filesBelow ["designs"] =
      [["home", "a.html", "b.yaml"], ["home.yaml"]] :=
    List.mergeSort_of_pairwise (by decide +kernel)
  rw [discover_eq_ok_iff hlocate, hbelow]
  exact ⟨by decide +kernel, by decide +kernel⟩

/-- The two designs are compiled, and cannot be saved together. -/
theorem crossedDisk_footprint : ∃ results,
    compileAll crossedDisk {} ⟨"designs"⟩ = .ok results ∧ Footprint crossedFiles results ∧
      crossedDisk.IsTree ∧ crossedDisk.Fresh ⟨"out"⟩ ∧
      ¬ ∃ written e, (saveAll results ⟨"out"⟩).run.run crossedDisk = (.ok written, e) := by
  -- that the designs are compiled, and cross, is computed at once
  have hcompiled : (crossedFiles.mapM fun f => compileFile crossedDisk {} f.path f.name).toOption.any
      (fun results => decide (Crosses results)) = true := by
    decide +kernel
  cases hmap : crossedFiles.mapM fun f => compileFile crossedDisk {} f.path f.name with
  | error e =>
    rw [hmap] at hcompiled
    exact nomatch hcompiled
  | ok results =>
    rw [hmap] at hcompiled
    have hcrosses : Crosses results := by simpa [Except.toOption] using hcompiled
    have hresults : compileAll crossedDisk {} ⟨"designs"⟩ = .ok results := by
      rw [compileAll, bind_of_eq_ok crossedDisk_discover, hmap]
    obtain ⟨files, hfiles, hfootprint⟩ := compileAll_footprint (by decide +kernel) hresults
    obtain rfl := Except.ok.inj (crossedDisk_discover.symm.trans hfiles)
    have htree : crossedDisk.IsTree := by decide +kernel
    have hfresh : crossedDisk.Fresh ⟨"out"⟩ :=
      htree.fresh (l := ["out"]) (by decide) (by decide) (by decide +kernel)
    refine ⟨results, hresults, hfootprint, htree, hfresh, fun hsaved => ?_⟩
    exact (hfootprint.saved (by decide) crossedDisk ⟨"out"⟩ htree hfresh).mp hsaved hcrosses

/-- A design whose file is called by one dot, extension aside. -/
def upwardDisk : Disk where
  files := [(["designs", "..yaml"], pageText "Home")]
  folders := [["designs"]]

theorem upwardDisk_discover :
    discover upwardDisk ⟨"designs"⟩ = .ok [⟨"..", ⟨"designs/..yaml"⟩⟩] := by
  have hlocate : upwardDisk.locate ⟨"designs"⟩ = .ok (.folder ["designs"]) := by decide +kernel
  have hbelow : upwardDisk.filesBelow ["designs"] = [["..yaml"]] :=
    List.mergeSort_of_pairwise (by decide +kernel)
  rw [discover_eq_ok_iff hlocate, hbelow]
  exact ⟨by decide +kernel, by decide +kernel⟩

/-- The name of the design leads back up, and so its pages are saved beside the output. -/
theorem upwardDisk_escapes : ∃ results,
    discover upwardDisk ⟨"designs"⟩ = .ok [⟨"..", ⟨"designs/..yaml"⟩⟩] ∧
      compileAll upwardDisk {} ⟨"designs"⟩ = .ok results ∧
      ∃ written e, (saveAll results ⟨"out"⟩).run.run upwardDisk = (.ok written, e) ∧
        (upwardDisk.locate ⟨"home.html"⟩ = .ok (.vacant ["home.html"])) ∧
        e.locate ⟨"home.html"⟩ = .ok (.file ["home.html"]) ∧
        ¬ Above (upwardDisk.target ⟨"out"⟩) ["home.html"] := by
  have hcompiled : (compileAll upwardDisk {} ⟨"designs"⟩).toOption.any (fun results =>
      let run := (saveAll results ⟨"out"⟩).run.run upwardDisk
      run.1.isOk && decide (run.2.locate ⟨"home.html"⟩ = .ok (.file ["home.html"]))) = true := by
    decide +kernel
  cases hresults : compileAll upwardDisk {} ⟨"designs"⟩ with
  | error e =>
    rw [hresults] at hcompiled
    exact nomatch hcompiled
  | ok results =>
    rw [hresults] at hcompiled
    simp only [Except.toOption, Option.any_some, Bool.and_eq_true, decide_eq_true_eq] at hcompiled
    obtain ⟨hok, hfile⟩ := hcompiled
    obtain ⟨written, hwritten⟩ := isOk_iff.mp hok
    refine ⟨results, upwardDisk_discover, rfl, written, _, Prod.ext hwritten rfl,
      by decide +kernel, hfile, ?_⟩
    have htarget : upwardDisk.target ⟨"out"⟩ = ["out"] := by decide +kernel
    rw [htarget]
    rintro ⟨ns, -, heq⟩
    exact absurd (List.cons.inj heq).1 (by decide)

end DesignCompiler
