import DesignCompiler.Proofs.Files.Steadiness
import DesignCompiler.Proofs.Project.Listing

/-!
# DesignCompiler — reading again

Projects and designs are read from sources only. So when folders and other files have been added, what is
read is the same, as long as the paths to it are steady: the same designs are discovered, in the
same order or with the same error, and files have the same texts.

* `Disk.namesBefore_trans`, `Disk.namesBefore_antisymm` — the order in which files are met;
* `Grows.filter_filesBelow` — the sources below a folder are met in the same order;
* `discover_of_grows`, `load_of_grows` — designs, and what is in them;
* `Project.load_iff_of_grows` — projects.
-/

namespace DesignCompiler

namespace Disk

/-! ## The order of files -/

theorem namesBefore_cons_iff {a b : String} {as bs : List String} :
    namesBefore (a :: as) (b :: bs) = true ↔ a < b ∨ a = b ∧ namesBefore as bs = true := by
  simp [namesBefore]

theorem namesBefore_total (as bs : List String) :
    (namesBefore as bs || namesBefore bs as) = true := by
  induction as generalizing bs with
  | nil => rfl
  | cons a as ih =>
    cases bs with
    | nil => rfl
    | cons b bs =>
      rw [Bool.or_eq_true, namesBefore_cons_iff, namesBefore_cons_iff]
      rcases lt_trichotomy a b with hlt | rfl | hgt
      · exact Or.inl (Or.inl hlt)
      · exact (Bool.or_eq_true _ _ ▸ ih bs).imp (fun h => Or.inr ⟨rfl, h⟩) fun h => Or.inr ⟨rfl, h⟩
      · exact Or.inr (Or.inl hgt)

theorem namesBefore_trans (as bs cs : List String) (h : namesBefore as bs = true)
    (h' : namesBefore bs cs = true) : namesBefore as cs = true := by
  induction as generalizing bs cs with
  | nil => rfl
  | cons a as ih =>
    cases bs with
    | nil => exact nomatch h
    | cons b bs =>
      cases cs with
      | nil => exact nomatch h'
      | cons c cs =>
        rw [namesBefore_cons_iff] at h h' ⊢
        rcases h with hab | ⟨rfl, has⟩
        · rcases h' with hbc | ⟨rfl, -⟩
          · exact Or.inl (hab.trans hbc)
          · exact Or.inl hab
        · exact h'.imp_right fun ⟨heq, hbs⟩ => ⟨heq, ih bs cs has hbs⟩

theorem namesBefore_antisymm {as bs : List String} (h : namesBefore as bs = true)
    (h' : namesBefore bs as = true) : as = bs := by
  induction as generalizing bs with
  | nil =>
    cases bs with
    | nil => rfl
    | cons b bs => exact nomatch h'
  | cons a as ih =>
    cases bs with
    | nil => exact nomatch h
    | cons b bs =>
      rw [namesBefore_cons_iff] at h h'
      rcases h with hab | ⟨rfl, has⟩
      · rcases h' with hba | ⟨heq, -⟩
        · exact absurd hab hba.asymm
        · exact absurd heq hab.ne'
      · rcases h' with haa | ⟨-, hbs⟩
        · exact absurd rfl haa.ne
        · rw [ih has hbs]

variable {d d' : Disk} {p : Path} {l : Location} {ns : List String}

/-! ## Sources below a folder -/

/-- Files below a folder that are sources come from the sources. -/
theorem filter_filesBelow (d : Disk) (l : Location) :
    ((d.filesBelow l).filter fun ns => isSource (l ++ ns)).Perm
      (d.sources.filterMap fun (f, _) =>
        if l.isPrefixOf f then some (f.drop l.length) else none) := by
  refine ((List.mergeSort_perm _ _).filter _).trans ?_
  rw [List.filter_filterMap, sources, List.filterMap_filter]
  refine List.Perm.of_eq (List.filterMap_congr fun f _ => ?_)
  obtain ⟨f, bytes⟩ := f
  by_cases hbelow : l.isPrefixOf f
  · obtain ⟨rest, rfl⟩ := List.isPrefixOf_iff_prefix.mp hbelow
    simp only [if_pos hbelow, List.drop_left, Option.filter_some]
  · simp only [hbelow, Bool.false_eq_true, if_false, Option.filter_none, ite_self]

theorem filesBelow_pairwise (d : Disk) (l : Location) :
    (d.filesBelow l).Pairwise fun a b => namesBefore a b = true :=
  List.pairwise_mergeSort namesBefore_trans namesBefore_total _

/-- The sources below a folder are met in the same order. -/
theorem Grows.filter_filesBelow (h : d.Grows d') (l : Location) :
    (d'.filesBelow l).filter (fun ns => isSource (l ++ ns)) =
      (d.filesBelow l).filter fun ns => isSource (l ++ ns) := by
  have hperm := Disk.filter_filesBelow d' l
  rw [h.sources] at hperm
  -- both come from the same files, and are sorted by an order in which no two names are equal
  refine (hperm.trans (Disk.filter_filesBelow d l).symm).eq_of_pairwise ?_
    ((filesBelow_pairwise d' l).filter _) ((filesBelow_pairwise d l).filter _)
  exact fun a b _ _ => namesBefore_antisymm

/-! ## Files that are designs -/

/-- The last name of a path to a file is that of the file. -/
theorem getLast?_of_locate {n : String} (h : d.locate p = .ok (.file l)) (hn : p.fileName? = some n) :
    l.getLast? = some n := by
  have hplace : l = place (d.start p) p.names := walk_place (locate_eq_ok_iff.mp h).2.1
  rw [Path.fileName?] at hn
  obtain ⟨hlast, hup⟩ := Option.filter_eq_some_iff.mp hn
  obtain ⟨ns, hns⟩ := List.getLast?_eq_some_iff.mp hlast
  rw [hplace, hns, place_append, place, if_neg (by simpa using hup), place, List.getLast?_concat]

theorem isSource_concat {stem e : String} (he : e ∈ DesignFormat.extensions) (l : Location) :
    isSource (l ++ [stem ++ "." ++ e]) = true := by
  have hsuffix : ("." ++ e).toList.isSuffixOf (stem ++ "." ++ e).toList = true := by
    rw [List.isSuffixOf_iff_suffix, String.append_assoc, String.toList_append (s := stem)]
    exact List.suffix_append _ _
  have hdot : ∀ e ∈ DesignFormat.extensions, "." ++ e ∈ [".json", ".yaml", ".yml"] := by decide
  rw [isSource, List.getLast?_concat, Option.any_some, List.any_eq_true]
  exact ⟨_, hdot e he, hsuffix⟩

/-- A file with the extension of a design is a source. -/
theorem isSource_of_ofPath? (h : d.locate p = .ok (.file l)) (hp : (DesignFormat.ofPath? p).isSome) :
    isSource l = true := by
  obtain ⟨e, he, hext⟩ := DesignFormat.isSome_ofPath?_iff.mp hp
  rw [Path.extension?] at hext
  obtain ⟨n, hn, hsplit⟩ := Option.bind_eq_some_iff.mp hext
  obtain ⟨stem, rfl, -⟩ := exists_stem hsplit
  obtain ⟨folders, rfl⟩ := List.getLast?_eq_some_iff.mp (getLast?_of_locate h hn)
  exact isSource_concat he folders

/-- Only sources below a folder are designs. -/
theorem IsTree.designFiles_filter (h : d.IsTree) (hl : d.spot l = .folder l) (dir : Path) :
    designFiles dir (d.filesBelow l) =
      designFiles dir ((d.filesBelow l).filter fun ns => isSource (l ++ ns)) := by
  rw [designFiles, designFiles, List.filterMap_filter]
  refine List.filterMap_congr fun ns hns => ?_
  by_cases hsource : isSource (l ++ ns) = true
  · rw [if_pos hsource]
  · rw [if_neg hsource]
    refine if_neg fun hformat => hsource ?_
    obtain ⟨folders, last, rfl⟩ :=
      (List.eq_nil_or_concat' ns).resolve_left (h.ne_nil_of_mem_filesBelow hl hns)
    have hnames := h.names_of_mem_filesBelow hns
    obtain ⟨stem, e, rfl, -, he⟩ := (isSome_ofPath?_below hnames).mp hformat
    rw [← List.append_assoc]
    exact isSource_concat he _

/-- No source appears, and none disappears. -/
theorem Grows.mem_files_iff (h : d.Grows d') (hl : isSource l = true) :
    l ∈ d'.files.map Prod.fst ↔ l ∈ d.files.map Prod.fst := by
  have hsources : ∀ e : Disk, l ∈ e.files.map Prod.fst ↔ l ∈ e.sources.map Prod.fst := by
    intro e
    simp [Disk.sources, hl]
  rw [hsources, hsources, h.sources]

/-- Below nothing no source can appear. -/
theorem Grows.notMem_of_vacant (h : d.Grows d') (htree : d.IsTree) (hl : d.spot l = .vacant l)
    (hsource : isSource (l ++ ns) = true) : l ++ ns ∉ d'.files.map Prod.fst := by
  rw [h.mem_files_iff hsource]
  intro hmem
  exact nomatch (htree.vacant_below hl ns).symm.trans (htree.spot_of_mem hmem)

/-- A file that has appeared is no source. -/
theorem Grows.isSource_of_vacant (h : d.Grows d') (htree : d.IsTree) (hl : d.spot l = .vacant l)
    (hfile : d'.locate p = .ok (.file l)) : isSource l = false := by
  have hmem := mem_files_of_spot (spot_of_locate_file hfile)
  rw [Bool.eq_false_iff]
  intro hsource
  rw [h.mem_files_iff hsource] at hmem
  exact nomatch hl.symm.trans (htree.spot_of_mem hmem)

end Disk

/-! ## Discovery -/

open Disk

variable {d d' : Disk} {dir : Path}

theorem discover_of_has_eq_false (h : d.has dir = false) : discover d dir = .ok [] := by
  rw [Bool.eq_false_iff, ne_eq, has_iff] at h
  rw [discover]
  split
  · rename_i l hl
    exact absurd ⟨_, hl, fun _ hs => Spot.noConfusion hs⟩ h
  · rename_i l hl
    exact absurd ⟨_, hl, fun _ hs => Spot.noConfusion hs⟩ h
  · rfl

/-- Where nothing was, no designs are discovered either. -/
theorem discover_of_new (h : d.Grows d') (htree : d.IsTree)
    (hnew : ∀ s, d'.locate dir = .ok s → d.spot s.location = .vacant s.location) :
    discover d' dir = .ok [] := by
  have htree' := h.tree htree
  cases hlocate : d'.locate dir with
  | error e => rw [discover, hlocate]; rfl
  | ok s =>
    have hvacant := hnew s hlocate
    cases s with
    | folder l =>
      -- a new folder has other files than sources only
      have hempty : (d'.filesBelow l).filter (fun ns => isSource (l ++ ns)) = [] := by
        rw [List.filter_eq_nil_iff]
        exact fun ns hns hsource =>
          h.notMem_of_vacant htree hvacant hsource (mem_filesBelow_iff.mp hns)
      rw [discover_eq_ok_iff hlocate, htree'.designFiles_filter (htree'.spot_locate hlocate), hempty]
      exact ⟨.refl _, .nil⟩
    | file l =>
      have hformat : (DesignFormat.ofPath? dir).isSome = false := by
        rw [Bool.eq_false_iff]
        intro hformat
        have hsource := isSource_of_ofPath? hlocate hformat
        cases hsource.symm.trans (h.isSource_of_vacant htree hvacant hlocate)
      rw [discover, hlocate]
      simp only [designFiles, List.filterMap_cons, List.foldl_nil, hformat, Bool.false_eq_true,
        if_false, List.filterMap_nil]
      rfl
    | vacant l => rw [discover, hlocate]; rfl

/-- The same designs are discovered, or the same error is found. -/
theorem discover_of_grows (h : d.Grows d') (htree : d.IsTree) (hsteady : d.Steady dir) :
    discover d' dir = discover d dir := by
  have htree' := h.tree htree
  rcases h.locate_or htree hsteady with hlocate | ⟨hhas, hnew⟩
  · rw [discover, discover, hlocate]
    split
    · rename_i l hl
      rw [htree'.designFiles_filter (htree'.spot_locate (hlocate.trans hl)),
        htree.designFiles_filter (htree.spot_locate hl), h.filter_filesBelow]
    · rfl
    · rfl
  · rw [discover_of_has_eq_false hhas, discover_of_new h htree hnew]

/-! ## Texts -/

theorem exists_file_of_readText {p : Path} {text : String} (h : d.readText p = .ok text) :
    ∃ l, d.locate p = .ok (.file l) := by
  obtain ⟨s, hs, h⟩ := bind_eq_ok_iff.mp h
  cases s with
  | folder l => exact nomatch h
  | file l => exact ⟨l, hs⟩
  | vacant l => exact nomatch h

/-- A source has the same text. -/
theorem readText_of_grows (h : d.Grows d') {p : Path} {l : Location}
    (hp : d.locate p = .ok (.file l)) (hl : isSource l = true) : d'.readText p = d.readText p := by
  have hlocate : d'.locate p = .ok (.file l) := h.locate hp nofun
  obtain ⟨w, hext, hw⟩ := h.frame
  have hcontent : d'.content? l = d.content? l :=
    hext.content l fun hmem => Bool.noConfusion (hl.symm.trans (hw l hmem))
  rw [readText, readText, hp, hlocate]
  simp only [bind, Except.bind, hcontent]

/-- Where a path can lead to sources only, a text is read if it was before. -/
theorem readText_iff_of_grows (h : d.Grows d') (htree : d.IsTree) {p : Path} (hsteady : d.Steady p)
    (hsource : ∀ (e : Disk) l, e.locate p = .ok (.file l) → isSource l = true) {text : String} :
    d'.readText p = .ok text ↔ d.readText p = .ok text := by
  constructor
  · intro htext
    obtain ⟨l, hl⟩ := exists_file_of_readText htext
    rcases h.locate_or htree hsteady with hlocate | ⟨-, hnew⟩
    · rwa [← readText_of_grows h (hlocate.symm.trans hl) (hsource d' l hl)]
    · -- a source has not appeared
      exact nomatch (hsource d' l hl).symm.trans (h.isSource_of_vacant htree (hnew _ hl) hl)
  · intro htext
    obtain ⟨l, hl⟩ := exists_file_of_readText htext
    rwa [readText_of_grows h hl (hsource d l hl)]

/-! ## Designs -/

/-- A file that is discovered is there, and a source. -/
theorem exists_source_of_discover (htree : d.IsTree) {files : List DesignFile}
    (hfiles : discover d dir = .ok files) {f : DesignFile} (hf : f ∈ files) :
    ∃ l, d.locate f.path = .ok (.file l) ∧ isSource l = true := by
  rcases discover_cases hfiles with ⟨l, hl, rfl, -⟩ | ⟨⟨l, hl⟩, rfl⟩ | ⟨-, rfl⟩
  · obtain ⟨ns, hns, -, hpath, hformat⟩ := mem_designFiles (List.mem_mergeSort.mp hf)
    have hne := htree.ne_nil_of_mem_filesBelow (htree.spot_locate hl) hns
    have hfile := htree.locate_below hl hne (mem_filesBelow_iff.mp hns)
    rw [← hpath] at hfile
    exact ⟨_, hfile, isSource_of_ofPath? hfile hformat⟩
  · obtain ⟨ns, hns, -, hpath, hformat⟩ := mem_designFiles hf
    obtain rfl := List.mem_singleton.mp hns
    obtain rfl : f.path = dir := hpath
    exact ⟨l, hl, isSource_of_ofPath? hl hformat⟩
  · exact nomatch hf

/-- The same is read from a file that is discovered. -/
theorem load_of_grows [Readers] (h : d.Grows d') (htree : d.IsTree) {files : List DesignFile}
    (hfiles : discover d dir = .ok files) {f : DesignFile} (hf : f ∈ files) :
    Design.load d' f.path = Design.load d f.path := by
  obtain ⟨l, hl, hsource⟩ := exists_source_of_discover htree hfiles hf
  rw [Design.load, Design.load, Disk.read, Disk.read, readText_of_grows h hl hsource]

/-! ## Projects -/

/-- A path to a project leads to a folder, or to a file with the extension of a project file. -/
def Disk.LeadsToProject (d : Disk) (p : Path) : Prop :=
  (d.folder? p).isSome ∨ ∃ n, p.fileName? = some n ∧ ".yaml".toList.isSuffixOf n.toList = true

/-- The project in a text, in a folder. -/
def Project.ofText [Readers] (base : Path) (text : String) : Except ProjectError Project := do
  let config ← (Readers.config text).mapError .yaml
  config.settings.check.mapError .settings
  return { config, base }

/-- By the readers of the program, which read YAML. -/
theorem Project.ofText_eq_ok_iff {base : Path} {text : String} {p : Project} :
    Project.ofText base text = .ok p ↔ ∃ n, Yaml.Node.ofText? text = some n ∧
      Config.layout.read n = .ok p.config ∧ p.config.settings.check = .ok () ∧ p.base = base := by
  constructor
  · intro h
    obtain ⟨config, hconfig, h⟩ := bind_eq_ok_iff.mp h
    obtain ⟨⟨⟩, hcheck, h⟩ := bind_eq_ok_iff.mp h
    obtain rfl := Except.ok.inj h
    have hconfig : Yaml.read Config.layout.read text = .ok config := mapError_eq_ok_iff.mp hconfig
    rw [Yaml.read] at hconfig
    split at hconfig
    · rename_i n hn
      exact ⟨n, hn, hconfig, mapError_eq_ok_iff.mp hcheck, rfl⟩
    · cases hconfig
  · rintro ⟨n, hn, hread, hcheck, rfl⟩
    have hconfig : Yaml.read Config.layout.read text = .ok p.config := by
      rw [Yaml.read, hn]
      exact hread
    refine bind_eq_ok_iff.mpr ⟨p.config, mapError_eq_ok_iff.mpr hconfig, ?_⟩
    exact bind_eq_ok_iff.mpr ⟨(), mapError_eq_ok_iff.mpr hcheck, rfl⟩

theorem Project.load_eq_ok_iff [Readers] {path : Path} {p : Project} :
    Project.load d path = .ok p ↔ ∃ text, d.readText (Project.locate d path).1 = .ok text ∧
      Project.ofText (Project.locate d path).2 text = .ok p := by
  rw [Project.load]
  by_cases hhas : d.has (Project.locate d path).1 = true
  · simp only [hhas, Bool.not_true, Bool.false_eq_true, if_false]
    rw [bind_eq_ok_iff]
    simp only [Disk.read, mapError_eq_ok_iff]
    rfl
  · constructor
    · simp only [hhas, Bool.not_false, if_true]
      exact nofun
    · rintro ⟨text, htext, -⟩
      obtain ⟨l, hl⟩ := exists_file_of_readText htext
      exact absurd (has_iff.mpr ⟨_, hl, nofun⟩) hhas

theorem isSource_of_yaml {p : Path} {l : Location} {n : String} (hl : d.locate p = .ok (.file l))
    (hn : p.fileName? = some n) (hyaml : ".yaml".toList.isSuffixOf n.toList = true) :
    isSource l = true := by
  rw [isSource, getLast?_of_locate hl hn, Option.any_some, List.any_eq_true]
  exact ⟨".yaml", by decide, hyaml⟩

/-- The file of a project in a folder is read as before. -/
theorem readText_configFile_iff (h : d.Grows d') (htree : d.IsTree) {path : Path}
    (hsteady : d.Steady path) {text : String} :
    d'.readText (path.join ⟨configFile⟩) = .ok text ↔
      d.readText (path.join ⟨configFile⟩) = .ok text := by
  have hconfig : IsFileName configFile := by decide +kernel
  have hyaml : ".yaml".toList.isSuffixOf configFile.toList = true := by decide +kernel
  exact readText_iff_of_grows h htree (hsteady.join hconfig) fun e l hl =>
    isSource_of_yaml hl (Path.fileName?_join hconfig) hyaml

/-- The same projects are loaded. -/
theorem Project.load_iff_of_grows [Readers] (h : d.Grows d') (htree : d.IsTree) {path : Path}
    (hsteady : d.Steady path) (hleads : d'.LeadsToProject path) {p : Project} :
    Project.load d' path = .ok p ↔ Project.load d path = .ok p := by
  rw [Project.load_eq_ok_iff, Project.load_eq_ok_iff, Project.locate, Project.locate]
  cases hd : d.folder? path with
  | some l =>
    simp only [h.folder? hd, Option.isSome_some, if_true, readText_configFile_iff h htree hsteady]
  | none =>
    cases hd' : d'.folder? path with
    | none =>
      obtain ⟨n, hn, hyaml⟩ := hleads.resolve_left (by simp [hd'])
      simp only [Option.isSome_none, Bool.false_eq_true, if_false,
        readText_iff_of_grows h htree hsteady fun e l hl => isSource_of_yaml hl hn hyaml]
    | some l =>
      have hlocate' := folder?_eq_some_iff.mp hd'
      simp only [Option.isSome_none, Option.isSome_some, Bool.false_eq_true, if_false, if_true,
        readText_configFile_iff h htree hsteady]
      constructor
      · -- a folder that has appeared has no file that was there
        rintro ⟨text, htext, -⟩
        obtain ⟨l', hl'⟩ := exists_file_of_readText htext
        have hfolder := locate_of_join (by decide +kernel) (locate_eq_ok_iff.mp hlocate').1 hl'
        exact nomatch hd.symm.trans (folder?_eq_some_iff.mpr hfolder)
      · rintro ⟨text, htext, -⟩
        obtain ⟨l', hl'⟩ := exists_file_of_readText htext
        exact nomatch hlocate'.symm.trans (h.locate hl' nofun)

theorem Disk.LeadsToProject.of_grows (h : d.Grows d') {path : Path}
    (hleads : d.LeadsToProject path) : d'.LeadsToProject path := by
  refine hleads.imp_left fun hfolder => ?_
  obtain ⟨l, hl⟩ := Option.isSome_iff_exists.mp hfolder
  rw [h.folder? hl, Option.isSome_some]

/-- The path to a project that is loaded is steady. -/
theorem Project.steady_of_load [Readers] {path : Path} {p : Project}
    (hp : Project.load d path = .ok p) : d.Steady path := by
  obtain ⟨text, htext, -⟩ := Project.load_eq_ok_iff.mp hp
  obtain ⟨l, hl⟩ := exists_file_of_readText htext
  rw [Project.locate] at hl
  split at hl
  · rename_i hfolder
    obtain ⟨l', hl'⟩ := Option.isSome_iff_exists.mp hfolder
    exact steady_of_locate (folder?_eq_some_iff.mp hl')
  · exact steady_of_locate hl

end DesignCompiler
