import DesignCompiler.Proofs.Files.Tree
import DesignCompiler.Proofs.Project.Lookup

/-!
# DesignCompiler — designs of a folder

The files below a folder are met folder by folder, and two of one name are an error as soon as the second
is met. What comes out speaks of all files below the folder at once: there is one design for each file
with the extension of a design, if no two such files have the same names up to the extension.

* `Disk.IsDesignAt` — the files with designs below a folder;
* `mem_designFiles_iff`, `nodup_names_iff` — those among the files that are met;
* `distinct_eq_error` — the two files of which the error speaks;
* `Disk.Listing` — the designs of a folder, each once and in their order;
* `discover_lists` — they are discovered, if there are no two of one name.
-/

namespace DesignCompiler

/-! ## Files with designs -/

/-- Names lead from a folder to a file with the extension of a design; `relative` is the same without
this extension. -/
structure Disk.IsDesignAt (d : Disk) (l : Location) (names relative : List String) : Prop where
  file : l ++ names ∈ d.files.map Prod.fst
  extension : ∃ folders stem e, names = folders ++ [stem ++ "." ++ e] ∧
    relative = folders ++ [stem] ∧ stem ≠ "" ∧ e ∈ DesignFormat.extensions

/-- No file with a design below a folder is called by dots only, extension aside. -/
def Disk.PlainBelow (d : Disk) (l : Location) : Prop :=
  ∀ names relative, d.IsDesignAt l names relative →
    relative.getLast? ≠ some "." ∧ relative.getLast? ≠ some ".."

theorem isSome_ofPath?_below {dir : Path} {folders : List String} {last : String}
    (h : ∀ n ∈ folders ++ [last], IsFileName n) :
    (DesignFormat.ofPath? (dir.below (folders ++ [last]))).isSome ↔
      ∃ stem e, last = stem ++ "." ++ e ∧ stem ≠ "" ∧ e ∈ DesignFormat.extensions := by
  rw [DesignFormat.isSome_ofPath?_iff, Path.extension?, Path.fileName?_below h]
  constructor
  · rintro ⟨e, he, hext⟩
    obtain ⟨stem, hlast, hstem⟩ := exists_stem hext
    exact ⟨stem, e, hlast, hstem, he⟩
  · rintro ⟨stem, e, rfl, hstem, he⟩
    exact ⟨e, he, congrArg Prod.snd (splitName_append hstem (DesignFormat.noDot he))⟩

namespace Disk

variable {d : Disk} {l : Location} {ns ns' rel : List String}

theorem IsTree.filesBelow_nodup (h : d.IsTree) (l : Location) : (d.filesBelow l).Nodup := by
  rw [filesBelow, (List.mergeSort_perm _ _).nodup_iff, List.Nodup, List.pairwise_filterMap]
  have hdistinct := h.distinct
  rw [List.Nodup, List.pairwise_map] at hdistinct
  -- the names below the folder, put behind those of the folder, are the place of the file again
  refine hdistinct.imp fun {f g} hne ns hf ns' hg heq => hne ?_
  simp only [Option.ite_none_right_eq_some, List.isPrefixOf_iff_prefix, Option.some.injEq] at hf hg
  obtain ⟨⟨rest, hrest⟩, hdrop⟩ := hf
  obtain ⟨⟨rest', hrest'⟩, hdrop'⟩ := hg
  rw [← hrest, List.drop_left] at hdrop
  rw [← hrest', List.drop_left] at hdrop'
  rw [← hrest, ← hrest', hdrop, hdrop', heq]

theorem IsTree.names_of_mem_filesBelow (h : d.IsTree) (hns : ns ∈ d.filesBelow l) :
    ∀ n ∈ ns, IsFileName n :=
  (List.forall_mem_append.mp (h.names_of_mem (mem_filesBelow_iff.mp hns))).2

/-- A folder is not one of the files below it. -/
theorem IsTree.ne_nil_of_mem_filesBelow (h : d.IsTree) (hl : d.spot l = .folder l)
    (hns : ns ∈ d.filesBelow l) : ns ≠ [] := by
  rintro rfl
  have hfile := h.spot_of_mem (mem_filesBelow_iff.mp hns)
  rw [List.append_nil, hl] at hfile
  exact nomatch hfile

/-- Different files have different paths, so no design is listed twice. -/
theorem IsTree.designFiles_nodup (h : d.IsTree) (dir : Path) (l : Location) :
    (designFiles dir (d.filesBelow l)).Nodup := by
  rw [List.Nodup, designFiles, List.pairwise_filterMap]
  refine List.Pairwise.imp_of_mem ?_ (h.filesBelow_nodup l)
  intro ns ns' hns hns' hne f hf g hg heq
  have hbelow : dir.below ns = dir.below ns' := by
    obtain rfl := Option.some.inj (Option.ite_none_right_eq_some.mp hf).2
    obtain rfl := Option.some.inj (Option.ite_none_right_eq_some.mp hg).2
    exact congrArg DesignFile.path heq
  have hnames := congrArg Path.names hbelow
  rw [Path.names_below (h.names_of_mem_filesBelow hns),
    Path.names_below (h.names_of_mem_filesBelow hns'), List.append_cancel_left_eq] at hnames
  exact hne hnames

/-! ### One file -/

namespace IsDesignAt

variable {dir : Path} {rel' : List String}

theorem names (h : d.IsDesignAt l ns rel) (htree : d.IsTree) : ∀ n ∈ ns, IsFileName n :=
  htree.names_of_mem_filesBelow (mem_filesBelow_iff.mpr h.file)

theorem ne_nil (h : d.IsDesignAt l ns rel) : ns ≠ [] := by
  obtain ⟨folders, stem, e, rfl, -⟩ := h.extension
  exact List.append_ne_nil_of_right_ne_nil _ (List.cons_ne_nil _ _)

theorem relative_names (h : d.IsDesignAt l ns rel) (htree : d.IsTree) (hplain : d.PlainBelow l) :
    ∀ n ∈ rel, IsFileName n := by
  have hns := h.names htree
  obtain ⟨hdot, hdots⟩ := hplain ns rel h
  obtain ⟨folders, stem, e, rfl, rfl, hstem, -⟩ := h.extension
  rw [List.forall_mem_append, List.forall_mem_singleton] at hns ⊢
  rw [List.getLast?_concat, ne_eq, Option.some.injEq] at hdot hdots
  exact ⟨hns.1, isFileName_stem hns.2 hstem hdot hdots⟩

/-- Names without extensions are different if they are joined to different texts. -/
theorem relative_inj (h : d.IsDesignAt l ns rel) (h' : d.IsDesignAt l ns' rel') (htree : d.IsTree)
    (hplain : d.PlainBelow l) (hname : "/".intercalate rel = "/".intercalate rel') : rel = rel' := by
  have hnames := Path.names_intercalate (h.relative_names htree hplain)
  rwa [hname, Path.names_intercalate (h'.relative_names htree hplain), eq_comm] at hnames

theorem designName_eq (h : d.IsDesignAt l ns rel) (hplain : d.PlainBelow l) :
    designName ns = "/".intercalate rel := by
  obtain ⟨hdot, -⟩ := hplain ns rel h
  obtain ⟨folders, stem, e, rfl, rfl, hstem, he⟩ := h.extension
  rw [List.getLast?_concat, ne_eq, Option.some.injEq] at hdot
  have hdrop : dropExtension (stem ++ "." ++ e) = stem := by
    rw [dropExtension, splitName_append hstem (DesignFormat.noDot he), if_neg hdot]
  simp only [designName, List.getLast?_concat, List.dropLast_concat, hdrop]

theorem isSome_ofPath? (h : d.IsDesignAt l ns rel) (htree : d.IsTree) :
    (DesignFormat.ofPath? (dir.below ns)).isSome := by
  have hns := h.names htree
  obtain ⟨folders, stem, e, rfl, -, hstem, he⟩ := h.extension
  exact (isSome_ofPath?_below hns).mpr ⟨stem, e, rfl, hstem, he⟩

theorem below_inj (h : d.IsDesignAt l ns rel) (h' : d.IsDesignAt l ns' rel') (htree : d.IsTree)
    (hpath : dir.below ns = dir.below ns') : ns = ns' := by
  have hnames := congrArg Path.names hpath
  rwa [Path.names_below (h.names htree), Path.names_below (h'.names htree),
    List.append_cancel_left_eq] at hnames

end IsDesignAt

/-! ### All files -/

section Folder

variable {dir : Path} (htree : d.IsTree) (hdir : d.locate dir = .ok (.folder l))
  (hplain : d.PlainBelow l)

include htree hdir hplain

/-- Among the files below a folder, those are taken that are designs. -/
theorem mem_designFiles_iff {f : DesignFile} :
    f ∈ designFiles dir (d.filesBelow l) ↔
      ∃ ns rel, d.IsDesignAt l ns rel ∧ f = ⟨"/".intercalate rel, dir.below ns⟩ := by
  constructor
  · intro hf
    obtain ⟨ns, hmem, hname, hpath, hformat⟩ := mem_designFiles hf
    have hnames := htree.names_of_mem_filesBelow hmem
    -- the folder itself is no file
    have hne := htree.ne_nil_of_mem_filesBelow (htree.spot_locate hdir) hmem
    rw [mem_filesBelow_iff] at hmem
    obtain ⟨folders, last, rfl⟩ := (List.eq_nil_or_concat' ns).resolve_left hne
    rw [hpath] at hformat
    obtain ⟨stem, e, rfl, hstem, he⟩ := (isSome_ofPath?_below hnames).mp hformat
    have hdesign : d.IsDesignAt l (folders ++ [stem ++ "." ++ e]) (folders ++ [stem]) :=
      ⟨hmem, folders, stem, e, rfl, rfl, hstem, he⟩
    refine ⟨_, _, hdesign, ?_⟩
    rw [← hdesign.designName_eq hplain, ← hname]
    exact congrArg (DesignFile.mk f.name) hpath
  · rintro ⟨ns, rel, h, rfl⟩
    refine List.mem_filterMap.mpr ⟨ns, mem_filesBelow_iff.mpr h.file, ?_⟩
    rw [← h.designName_eq hplain]
    exact if_pos (h.isSome_ofPath? htree)

/-- The designs have different names if no two of their files are the same up to the extension. -/
theorem nodup_names_iff : ((designFiles dir (d.filesBelow l)).map (·.name)).Nodup ↔
    ∀ ns ns' rel, d.IsDesignAt l ns rel → d.IsDesignAt l ns' rel → ns = ns' := by
  constructor
  · intro hnodup ns ns' rel h h'
    have hmem := (mem_designFiles_iff htree hdir hplain).mpr ⟨ns, rel, h, rfl⟩
    have hmem' := (mem_designFiles_iff htree hdir hplain).mpr ⟨ns', rel, h', rfl⟩
    -- two entries of one name are one entry, and its path leads to both files
    have heq := List.inj_on_of_nodup_map hnodup hmem hmem' rfl
    exact h.below_inj h' htree (congrArg DesignFile.path heq)
  · intro hunique
    refine List.Nodup.map_on ?_ (htree.designFiles_nodup dir l)
    intro f hf g hg hname
    obtain ⟨ns, rel, h, rfl⟩ := (mem_designFiles_iff htree hdir hplain).mp hf
    obtain ⟨ns', rel', h', rfl⟩ := (mem_designFiles_iff htree hdir hplain).mp hg
    -- the names can be told from the name, so only the extensions may differ
    obtain rfl := h.relative_inj h' htree hplain hname
    rw [hunique ns ns' rel h h']

end Folder

end Disk

/-! ## What is discovered -/

/-- The error names a file and the one before it that has the same name. -/
theorem distinct_eq_error {seen fs : List DesignFile} {e : ProjectError}
    (h : distinct seen fs = .error e) : ∃ before f after, fs = before ++ f :: after ∧
      ∃ g ∈ seen ++ before, g.name = f.name ∧
        e = .duplicateDesign f.name g.path.text f.path.text := by
  induction fs generalizing seen with
  | nil => exact nomatch h
  | cons f fs ih =>
    rw [distinct] at h
    split at h
    · rename_i g hfind
      refine ⟨[], f, fs, rfl, g, ?_, by simpa using List.find?_some hfind, (Except.error.inj h).symm⟩
      rw [List.append_nil]
      exact List.mem_of_find?_eq_some hfind
    · rcases bind_eq_error_iff.mp h with hrest | ⟨rest, -, hpure⟩
      · -- the file itself is among those that come before the second one
        obtain ⟨before, f', after, rfl, g, hg, hname, he⟩ := ih hrest
        rw [List.append_assoc, List.singleton_append] at hg
        exact ⟨f :: before, f', after, rfl, g, hg, hname, he⟩
      · cases hpure

section Folder

variable {d : Disk} {dir : Path} {l : Location}

theorem exists_discover_iff (hdir : d.locate dir = .ok (.folder l)) :
    (∃ files, discover d dir = .ok files) ↔
      ((designFiles dir (d.filesBelow l)).map (·.name)).Nodup := by
  constructor
  · rintro ⟨files, h⟩
    have hperm := ((discover_eq_ok_iff hdir).mp h).1
    exact (hperm.map _).nodup_iff.mp (discover_nodup h)
  · intro hnodup
    exact ⟨_, (discover_eq_ok_iff hdir).mpr ⟨List.mergeSort_perm _ _, ascending_mergeSort hnodup⟩⟩

theorem discover_eq_error (hdir : d.locate dir = .ok (.folder l)) {e : ProjectError}
    (h : discover d dir = .error e) : distinct [] (designFiles dir (d.filesBelow l)) = .error e := by
  rw [discover, hdir] at h
  rcases bind_eq_error_iff.mp h with h | ⟨found, -, h⟩
  · exact h
  · cases h

variable [Readers]

/-- The designs of a folder: one for each file with the extension of a design, under the names that lead
to it, in their order. -/
structure Disk.Listing (d : Disk) (dir : Path) (l : Location) (files : List DesignFile) : Prop where
  members : ∀ f, f ∈ files ↔
    ∃ ns rel, d.IsDesignAt l ns rel ∧ f = ⟨"/".intercalate rel, dir.below ns⟩
  once : ∀ ns rel, d.IsDesignAt l ns rel →
    ∃! f, f ∈ files ∧ d.locate f.path = .ok (.file (l ++ ns))
  ascending : files.Pairwise fun f g => Text.bytes f.name < Text.bytes g.name
  /-- No file is refused for its extension, whatever it holds by then. -/
  format : ∀ f ∈ files, ∀ d' path, Design.load d' f.path ≠ .error (.designFormat path)

theorem load_ne_designFormat {p : Path} (h : (DesignFormat.ofPath? p).isSome) (d : Disk)
    (path : String) : Design.load d p ≠ .error (.designFormat path) := by
  obtain ⟨format, hformat⟩ := Option.isSome_iff_exists.mp h
  intro hload
  rcases bind_eq_error_iff.mp hload with hread | ⟨text, -, hrest⟩
  · obtain ⟨e, -, he⟩ := mapError_eq_error_iff.mp hread
    exact nomatch he
  · rw [hformat] at hrest
    rcases bind_eq_error_iff.mp hrest with htext | ⟨design, -, hpure⟩
    · -- what is wrong with the text is another error
      cases format <;> obtain ⟨e, -, he⟩ := mapError_eq_error_iff.mp htext <;> exact nomatch he
    · exact nomatch hpure

variable (htree : d.IsTree) (hdir : d.locate dir = .ok (.folder l)) (hplain : d.PlainBelow l)

include htree hdir hplain

theorem listing_of_discover {files : List DesignFile} (h : discover d dir = .ok files) :
    d.Listing dir l files := by
  obtain ⟨hperm, hascending⟩ := (discover_eq_ok_iff hdir).mp h
  have hmembers : ∀ f, f ∈ files ↔
      ∃ ns rel, d.IsDesignAt l ns rel ∧ f = ⟨"/".intercalate rel, dir.below ns⟩ :=
    fun f => hperm.mem_iff.trans (Disk.mem_designFiles_iff htree hdir hplain)
  refine ⟨hmembers, fun ns rel hdesign => ?_, hascending.imp Text.bytes_lt, fun f hf d' path => ?_⟩
  · refine ⟨_, ⟨(hmembers _).mpr ⟨ns, rel, hdesign, rfl⟩,
      htree.locate_below hdir hdesign.ne_nil hdesign.file⟩, ?_⟩
    -- another entry that leads there has the same names, so it is the same
    rintro g ⟨hg, hlocate⟩
    obtain ⟨ns', rel', hdesign', rfl⟩ := (hmembers g).mp hg
    rw [htree.locate_below hdir hdesign'.ne_nil hdesign'.file] at hlocate
    obtain rfl : ns' = ns := List.append_cancel_left (Spot.file.inj (Except.ok.inj hlocate))
    rw [← hdesign.designName_eq hplain, ← hdesign'.designName_eq hplain]
  · obtain ⟨ns, rel, hdesign, rfl⟩ := (hmembers f).mp hf
    exact load_ne_designFormat (hdesign.isSome_ofPath? htree) d' path

/--
**Discovery lists all designs.** The designs of a folder are discovered exactly if no two files with the
extension of a design have the same names up to this extension. Then each of these files is listed once,
under these names, in the order of the names. Otherwise the error names two different files that are
there, and the name that both have.
-/
theorem discover_lists :
    ((∃ files, discover d dir = .ok files) ↔
      ∀ ns ns' rel, d.IsDesignAt l ns rel → d.IsDesignAt l ns' rel → ns = ns') ∧
    (∀ files, discover d dir = .ok files → d.Listing dir l files) ∧
    ∀ e, discover d dir = .error e → ∃ ns ns' rel,
      d.IsDesignAt l ns rel ∧ d.IsDesignAt l ns' rel ∧ ns ≠ ns' ∧
      d.locate (dir.below ns) = .ok (.file (l ++ ns)) ∧
      d.locate (dir.below ns') = .ok (.file (l ++ ns')) ∧
      e = .duplicateDesign ("/".intercalate rel) (dir.below ns).text (dir.below ns').text := by
  refine ⟨?_, fun files => listing_of_discover htree hdir hplain, fun e he => ?_⟩
  · rw [exists_discover_iff hdir, Disk.nodup_names_iff htree hdir hplain]
  · obtain ⟨before, f, after, hfiles, g, hg, hname, rfl⟩ :=
      distinct_eq_error (discover_eq_error hdir he)
    rw [List.nil_append] at hg
    have hnodup := htree.designFiles_nodup dir l
    rw [hfiles, List.nodup_append] at hnodup
    have hmem : ∀ x ∈ before ++ f :: after,
        ∃ ns rel, d.IsDesignAt l ns rel ∧ x = ⟨"/".intercalate rel, dir.below ns⟩ := by
      rw [← hfiles]
      exact fun x => (Disk.mem_designFiles_iff htree hdir hplain).mp
    -- no entry is listed twice, so the one before is another one
    have hne : g ≠ f := hnodup.2.2 g hg f (List.mem_cons_self ..)
    obtain ⟨ns, rel, h, rfl⟩ := hmem g (List.mem_append_left _ hg)
    obtain ⟨ns', rel', h', rfl⟩ := hmem f (List.mem_append_right _ (List.mem_cons_self ..))
    obtain rfl := h.relative_inj h' htree hplain hname
    refine ⟨ns, ns', rel, h, h', ?_, htree.locate_below hdir h.ne_nil h.file,
      htree.locate_below hdir h'.ne_nil h'.file, rfl⟩
    rintro rfl
    exact hne rfl

end Folder

theorem plainBelow_of_forall {d : Disk} (l : Location)
    (h : ∀ f ∈ d.files, f.1.getLast?.map (fun n => (Path.splitName n).1) ∉ [some ".", some ".."]) :
    d.PlainBelow l := by
  intro ns rel hdesign
  obtain ⟨f, hf, heq⟩ := List.mem_map.mp hdesign.file
  obtain ⟨folders, stem, e, rfl, rfl, hstem, he⟩ := hdesign.extension
  have hlast := h f hf
  rw [heq, ← List.append_assoc, List.getLast?_concat, Option.map_some,
    splitName_append hstem (DesignFormat.noDot he)] at hlast
  simpa using hlast

/-- A folder with three designs, two of which have more dots in their names, and a file that is none. -/
def dottedDisk : Disk where
  files := [(["designs", "shop", "home.v2.json"], .empty), (["designs", "shop.list.yml"], .empty),
    (["designs", "shop.txt"], .empty), (["designs", "shop.yaml"], .empty)]
  folders := [["designs"], ["designs", "shop"]]

/-- The names of the designs, in their order. It is not the one in which the files are met. -/
def dottedFiles : List DesignFile :=
  [⟨"shop", ⟨"designs/shop.yaml"⟩⟩, ⟨"shop.list", ⟨"designs/shop.list.yml"⟩⟩,
    ⟨"shop/home.v2", ⟨"designs/shop/home.v2.json"⟩⟩]

theorem dottedDisk_lists : discover dottedDisk ⟨"designs"⟩ = .ok dottedFiles ∧
    dottedDisk.Listing ⟨"designs"⟩ ["designs"] dottedFiles := by
  have hlocate : dottedDisk.locate ⟨"designs"⟩ = .ok (.folder ["designs"]) := by decide +kernel
  have hbelow : dottedDisk.filesBelow ["designs"] =
      [["shop", "home.v2.json"], ["shop.list.yml"], ["shop.txt"], ["shop.yaml"]] :=
    List.mergeSort_of_pairwise (by decide +kernel)
  have hdiscover : discover dottedDisk ⟨"designs"⟩ = .ok dottedFiles := by
    rw [discover_eq_ok_iff hlocate, hbelow]
    exact ⟨by decide +kernel, by decide +kernel⟩
  have hplain := plainBelow_of_forall (d := dottedDisk) ["designs"] (by decide +kernel)
  exact ⟨hdiscover, (discover_lists (by decide +kernel) hlocate hplain).2.1 _ hdiscover⟩

end DesignCompiler
