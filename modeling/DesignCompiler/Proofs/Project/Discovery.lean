import DesignCompiler.Project.Load
import DesignCompiler.Proofs.Files.Paths
import DesignCompiler.Proofs.Outcome
import DesignCompiler.Proofs.Text.Spans
import Mathlib.Data.List.Nodup
import Mathlib.Data.List.TakeWhile

/-!
# DesignCompiler — names of discovered designs

The name of a design is made of the names that lead to its file. No two designs have the same, because
the second file of a name is an error; and they lead below the folder of the output, unless a file is
called by dots only.

* `Disk.Named` — all files have names that files can have;
* `discover_cases`, `discover_nodup` — what is discovered, and that the names are different;
* `splitName_append`, `append_of_splitName` — names with an extension;
* `DesignFormat.isSome_ofPath?_iff` — paths with the extension of a design;
* `DesignFile.Called`, `discover_called` — how designs are called after their files;
* `discover_name` — their names are put together from names that files can have.
-/

namespace DesignCompiler

/-- The names that lead to a file are names that files and folders can have. -/
def Disk.Named (d : Disk) : Prop :=
  ∀ f ∈ d.files, ∀ n ∈ f.1, IsFileName n

instance (d : Disk) : Decidable d.Named :=
  inferInstanceAs (Decidable (∀ f ∈ d.files, ∀ n ∈ f.1, IsFileName n))

/-! ## Different names -/

theorem distinct_eq_ok {seen fs found : List DesignFile} (h : distinct seen fs = .ok found)
    (hseen : (seen.map (·.name)).Nodup) :
    found = fs ∧ ((seen ++ fs).map (·.name)).Nodup := by
  induction fs generalizing seen found with
  | nil =>
    obtain rfl := Except.ok.inj h
    exact ⟨rfl, by rwa [List.append_nil]⟩
  | cons f fs ih =>
    rw [distinct] at h
    split at h
    · exact nomatch h
    · rename_i hnone
      obtain ⟨rest, hrest, h⟩ := bind_eq_ok_iff.mp h
      obtain rfl := Except.ok.inj h
      -- the file itself is one of those that are seen from now on
      have hnew : ((seen ++ [f]).map (·.name)).Nodup := by
        rw [List.map_append, List.nodup_append]
        refine ⟨hseen, List.nodup_singleton _, fun n hn m hm => ?_⟩
        obtain ⟨g, hg, rfl⟩ := List.mem_map.mp hn
        obtain rfl := List.mem_singleton.mp hm
        simpa using List.find?_eq_none.mp hnone g hg
      obtain ⟨rfl, hall⟩ := ih hrest hnew
      rw [List.append_assoc, List.singleton_append] at hall
      exact ⟨rfl, hall⟩

variable {d : Disk} {dir : Path} {files : List DesignFile}

/-- What is discovered: the designs below a folder, sorted by their names, which are different; or a
file in the place of the folder; or nothing. -/
theorem discover_cases (h : discover d dir = .ok files) :
    (∃ l, d.locate dir = .ok (.folder l) ∧
      files = (designFiles dir (d.filesBelow l)).mergeSort (fun a b => a.name ≤ b.name) ∧
      ((designFiles dir (d.filesBelow l)).map (·.name)).Nodup) ∨
    (∃ l, d.locate dir = .ok (.file l)) ∧ files = designFiles dir [[]] ∨
    (∀ l, d.locate dir ≠ .ok (.folder l)) ∧ files = [] := by
  -- A folder is searched, a file stands for itself, and nothing has no designs.
  rw [discover] at h
  split at h
  · rename_i l hl
    obtain ⟨found, hfound, h⟩ := bind_eq_ok_iff.mp h
    obtain rfl := Except.ok.inj h
    obtain ⟨rfl, hnodup⟩ := distinct_eq_ok hfound List.nodup_nil
    exact Or.inl ⟨l, hl, rfl, hnodup⟩
  · rename_i l hl
    exact Or.inr (Or.inl ⟨⟨l, hl⟩, (Except.ok.inj h).symm⟩)
  · rename_i hfolder _
    exact Or.inr (Or.inr ⟨hfolder, (Except.ok.inj h).symm⟩)

theorem discover_nodup (h : discover d dir = .ok files) : (files.map (·.name)).Nodup := by
  rcases discover_cases h with ⟨l, -, rfl, hnodup⟩ | ⟨-, rfl⟩ | ⟨-, rfl⟩
  · exact ((List.mergeSort_perm _ _).map _).nodup_iff.mpr hnodup
  · rw [designFiles, List.filterMap_cons]
    split <;> simp
  · exact List.nodup_nil

/-! ## Names with an extension -/

/-- The search for a dot from the end of a name stops in front of the extension. -/
theorem splitName_append {s e : String} (hs : s ≠ "") (he : '.' ∉ e.toList) :
    Path.splitName (s ++ "." ++ e) = (s, some e) := by
  have hchars : s.toList.reverse ≠ [] := by simpa using hs
  obtain ⟨c, cs, hcs⟩ := List.exists_cons_of_ne_nil hchars
  have hreverse : (s ++ "." ++ e).toList.reverse = e.toList.reverse ++ '.' :: c :: cs := by
    simp [← hcs]
  have hpass : ∀ c ∈ e.toList.reverse, (c != '.') = true := by
    intro c hc
    exact bne_iff_ne.mpr fun heq => he (heq ▸ List.mem_reverse.mp hc)
  have hstop : ∀ c' ∈ ('.' :: c :: cs).head?, (c' != '.') = false := by simp
  rw [Path.splitName]
  simp only [hreverse, takeWhile_append_stop hpass hstop, dropWhile_append_stop hpass hstop]
  rw [← hcs]
  simp

theorem append_of_splitName {n s e : String} (h : Path.splitName n = (s, some e)) :
    n = s ++ "." ++ e ∧ s ≠ "" ∧ '.' ∉ e.toList := by
  have hsplit := List.takeWhile_append_dropWhile (p := (· != '.')) (l := n.toList.reverse)
  rw [Path.splitName] at h
  simp only at h
  split at h
  · cases h
  · cases h
  · rename_i c before hne hdrop
    obtain ⟨rfl, hext⟩ := Prod.mk.inj h
    obtain rfl := Option.some.inj hext
    -- the search has stopped at a dot
    have hc : c = '.' := by
      have hhead := List.head?_dropWhile_not (· != '.') n.toList.reverse
      rw [hdrop] at hhead
      simpa using hhead
    rw [hdrop, hc] at hsplit
    refine ⟨?_, ?_, ?_⟩
    · refine String.toList_inj.mp (List.reverse_inj.mp (hsplit.symm.trans ?_))
      simp
    · intro hempty
      exact hne (by simpa using congrArg String.toList hempty)
    · rw [String.toList_ofList, List.mem_reverse]
      intro hmem
      simpa using List.mem_takeWhile_imp hmem

theorem exists_stem {n e : String} (h : (Path.splitName n).2 = some e) :
    ∃ stem, n = stem ++ "." ++ e ∧ stem ≠ "" := by
  have hsplit : Path.splitName n = ((Path.splitName n).1, some e) := Prod.ext rfl h
  obtain ⟨hn, hstem, -⟩ := append_of_splitName hsplit
  exact ⟨_, hn, hstem⟩

/-- What stands in front of an extension is a name too, if it does not consist of one dot or two. -/
theorem isFileName_stem {stem e : String} (h : IsFileName (stem ++ "." ++ e)) (hne : stem ≠ "")
    (hdot : stem ≠ ".") (hdots : stem ≠ "..") : IsFileName stem := by
  refine ⟨?_, hdots, fun hslash => h.noSlash (by simp [hslash])⟩
  rw [Path.isName, Bool.and_eq_true, bne_iff_ne, bne_iff_ne]
  exact ⟨hne, hdot⟩

theorem isFileName_dropExtension {name e : String} (hname : IsFileName name)
    (he : (Path.splitName name).2 = some e) (hdot : (Path.splitName name).1 ≠ ".")
    (hdots : (Path.splitName name).1 ≠ "..") : IsFileName (dropExtension name) := by
  have hsplit : Path.splitName name = ((Path.splitName name).1, some e) := Prod.ext rfl he
  obtain ⟨happend, hstem, -⟩ := append_of_splitName hsplit
  rw [happend] at hname
  rw [dropExtension, if_neg hdot]
  exact isFileName_stem hname hstem hdot hdots

/-! ## Formats -/

/-- The extensions of files with designs. -/
def DesignFormat.extensions : List String :=
  ["json", "yaml", "yml"]

theorem DesignFormat.noDot {e : String} (h : e ∈ extensions) : '.' ∉ e.toList := by
  revert e
  decide

theorem DesignFormat.isSome_ofPath?_iff {p : Path} :
    (ofPath? p).isSome ↔ ∃ e ∈ extensions, p.extension? = some e := by
  rw [ofPath?]
  constructor
  · intro h
    split at h
    · exact ⟨"json", by decide, ‹_›⟩
    · exact ⟨"yaml", by decide, ‹_›⟩
    · exact ⟨"yml", by decide, ‹_›⟩
    · exact nomatch h
  · rintro ⟨e, he, hp⟩
    simp only [extensions, List.mem_cons, List.not_mem_nil, or_false] at he
    rw [hp]
    rcases he with rfl | rfl | rfl <;> rfl

/-! ## Names of designs -/

theorem Disk.mem_filesBelow_iff {l : Location} {ns : List String} :
    ns ∈ d.filesBelow l ↔ l ++ ns ∈ d.files.map Prod.fst := by
  rw [Disk.filesBelow, List.mem_mergeSort, List.mem_filterMap, List.mem_map]
  refine exists_congr fun f => and_congr_right fun _ => ?_
  simp only [Option.ite_none_right_eq_some, List.isPrefixOf_iff_prefix, Option.some.injEq]
  constructor
  · rintro ⟨⟨rest, hrest⟩, hdrop⟩
    rw [← hrest, List.drop_left] at hdrop
    rw [← hrest, hdrop]
  · intro hf
    exact ⟨⟨ns, hf.symm⟩, by rw [hf, List.drop_left]⟩

theorem mem_designFiles {f : DesignFile} {paths : List (List String)}
    (h : f ∈ designFiles dir paths) : ∃ ns ∈ paths, f.name = designName ns ∧
      f.path = dir.below ns ∧ (DesignFormat.ofPath? f.path).isSome := by
  obtain ⟨ns, hns, h⟩ := List.mem_filterMap.mp h
  simp only at h
  split at h
  · rename_i hformat
    obtain rfl := Option.some.inj h
    exact ⟨ns, hns, rfl, rfl, hformat⟩
  · exact nomatch h

/-- How a design is called after its file. -/
inductive DesignFile.Called (f : DesignFile) : Prop where
  /-- The file is in the place of the folder of designs. -/
  | alone (hname : f.name = "")
  | names {ns : List String} (hne : ns ≠ []) (hns : ∀ n ∈ ns, IsFileName n)
      (hname : f.name = "/".intercalate ns) (hdot : f.path.stem? ≠ some ".")
      (hdots : f.path.stem? ≠ some "..")
  /-- The file is called by dots only, extension aside. -/
  | dots {ns : List String} (hns : ∀ n ∈ ns, IsFileName n)
      (hname : f.name = "/".intercalate (ns ++ [".."]))
      (hstem : f.path.stem? = some "." ∨ f.path.stem? = some "..")

/-- A design is called by the names of files that lead to its file. -/
theorem called_of_names {f : DesignFile} {ns : List String} (hns : ∀ n ∈ ns, IsFileName n)
    (hname : f.name = designName ns) (hpath : f.path = dir.below ns)
    (hformat : (DesignFormat.ofPath? f.path).isSome) : f.Called := by
  rcases List.eq_nil_or_concat' ns with rfl | ⟨init, last, rfl⟩
  · exact .alone hname
  · have hfile : f.path.fileName? = some last := by rw [hpath, Path.fileName?_below hns]
    have hstem : f.path.stem? = some (Path.splitName last).1 := by
      rw [Path.stem?, hfile, Option.map_some]
    obtain ⟨e, -, he⟩ := DesignFormat.isSome_ofPath?_iff.mp hformat
    rw [Path.extension?, hfile, Option.bind_some] at he
    rw [List.forall_mem_append, List.forall_mem_singleton] at hns
    -- only the last name loses something
    rw [designName, List.getLast?_concat, List.dropLast_concat] at hname
    simp only at hname
    by_cases hdot : (Path.splitName last).1 = "."
    · rw [dropExtension, if_pos hdot] at hname
      exact .dots hns.1 hname (Or.inl (hstem.trans (congrArg some hdot)))
    · by_cases hdots : (Path.splitName last).1 = ".."
      · rw [dropExtension, if_neg hdot, hdots] at hname
        exact .dots hns.1 hname (Or.inr (hstem.trans (congrArg some hdots)))
      · have hlast := isFileName_dropExtension hns.2 he hdot hdots
        refine .names (by simp) ?_ hname (by simpa [hstem] using hdot) (by simpa [hstem] using hdots)
        exact List.forall_mem_append.mpr ⟨hns.1, List.forall_mem_singleton.mpr hlast⟩

theorem discover_called (hnamed : d.Named) (h : discover d dir = .ok files) {f : DesignFile}
    (hf : f ∈ files) : f.Called := by
  rcases discover_cases h with ⟨l, -, rfl, -⟩ | ⟨-, rfl⟩ | ⟨-, rfl⟩
  · obtain ⟨ns, hns, hname, hpath, hformat⟩ := mem_designFiles (List.mem_mergeSort.mp hf)
    obtain ⟨g, hg, heq⟩ := List.mem_map.mp (Disk.mem_filesBelow_iff.mp hns)
    have hnames : ∀ n ∈ l ++ ns, IsFileName n := heq ▸ hnamed g hg
    exact called_of_names (List.forall_mem_append.mp hnames).2 hname hpath hformat
  · obtain ⟨ns, hns, hname, -, -⟩ := mem_designFiles hf
    obtain rfl := List.mem_singleton.mp hns
    exact .alone hname
  · exact nomatch hf

theorem discover_name (hnamed : d.Named) (h : discover d dir = .ok files) {f : DesignFile}
    (hf : f ∈ files) (hdot : f.path.stem? ≠ some ".") (hdots : f.path.stem? ≠ some "..") :
    ∃ ns, (∀ n ∈ ns, IsFileName n) ∧ f.name = "/".intercalate ns := by
  cases discover_called hnamed h hf with
  | alone hname => exact ⟨[], nofun, hname⟩
  | names _ hns hname => exact ⟨_, hns, hname⟩
  | dots _ _ hstem => exact absurd hstem (not_or.mpr ⟨hdot, hdots⟩)

end DesignCompiler
