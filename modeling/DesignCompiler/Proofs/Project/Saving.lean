import DesignCompiler.Project.Output
import DesignCompiler.Proofs.ClassName.Slugs
import DesignCompiler.Proofs.Files.Actions
import DesignCompiler.Proofs.Text.Spans
import Mathlib.Data.List.Nodup

/-!
# DesignCompiler — saved designs

Every page of a compiled design is saved as two files in the folder of the design. A slug has no dot,
so the name of a file says of which page it is and which of the two; and the names that lead to the
folder say of which design. So no two files of compiled designs are in one place.

* `CompiledDesign.texts`, `CompiledDesign.save_saves` — what is written where;
* `CompiledDesign.IsNamed` — designs whose name leads to a folder, and whose pages have slugs;
* `targets_texts_nodup` — all files of several designs are in different places.
-/

namespace DesignCompiler

open ClassName Disk

/-! ## What is written -/

/-- The two files of a page, in a folder. -/
def CompiledPage.texts (p : CompiledPage) (dir : Path) : List (Path × String) :=
  [(dir.join ⟨p.markupFile⟩, p.markup), (dir.join ⟨p.stylesheetFile⟩, p.stylesheet)]

/-- The files of a design, in a folder below that of the output. -/
def CompiledDesign.texts (c : CompiledDesign) (output : Path) : List (Path × String) :=
  c.pages.flatMap (·.texts (output.join ⟨c.name⟩))

theorem CompiledPage.save_saves (p : CompiledPage) (dir : Path) :
    Action.Saves (p.save dir) (p.texts dir) :=
  (makeFolders_saves dir).bind fun _ => (saveText_saves _ p.markup).bind fun _ =>
    (saveText_saves _ p.stylesheet).bind fun _ => .pure _

theorem CompiledDesign.save_saves (c : CompiledDesign) (output : Path) :
    Action.Saves (c.save output) (c.texts output) := by
  have hpages : Action.Saves (c.pages.mapM (·.save (output.join ⟨c.name⟩))) (c.texts output) :=
    .mapM fun p _ => p.save_saves _
  rw [← List.append_nil (c.texts output)]
  exact hpages.bind fun _ => .pure _

/-! ## Names of files -/

theorem IsFileName.of_dot {s e : List Char} (hs : s ≠ []) (hdot : '.' ∉ s) (hslash : '/' ∉ s)
    (he : '/' ∉ e) : IsFileName (String.ofList (s ++ '.' :: e)) := by
  obtain ⟨c, s, rfl⟩ := List.exists_cons_of_ne_nil hs
  have hc : c ≠ '.' := fun h => hdot (h ▸ List.mem_cons_self ..)
  have hne : ∀ t : String, t.toList.head? ≠ some c →
      String.ofList ((c :: s) ++ '.' :: e) ≠ t := by
    rintro _ hhead rfl
    exact hhead (by rw [String.toList_ofList]; rfl)
  refine ⟨?_, hne ".." (by simpa using hc.symm), ?_⟩
  · rw [Path.isName, Bool.and_eq_true, bne_iff_ne, bne_iff_ne]
    exact ⟨hne "" (by simp), hne "." (by simpa using hc.symm)⟩
  · rw [String.toList_ofList, List.mem_append, not_or]
    refine ⟨hslash, ?_⟩
    rw [List.mem_cons, not_or]
    exact ⟨by decide, he⟩

/-- What stands before the first dot, and behind it. -/
theorem dot_inj {a b x y : List Char} (ha : '.' ∉ a) (hb : '.' ∉ b)
    (h : a ++ '.' :: x = b ++ '.' :: y) : a = b ∧ x = y := by
  have hstop : ∀ z : List Char, ∀ c ∈ ('.' :: z).head?, (c != '.') = false := by simp
  have hpass : ∀ s : List Char, '.' ∉ s → ∀ c ∈ s, (c != '.') = true := by
    intro s hs c hc
    exact bne_iff_ne.mpr fun heq => hs (heq ▸ hc)
  obtain rfl : a = b := by
    rw [← takeWhile_append_stop (hpass a ha) (hstop x), h,
      takeWhile_append_stop (hpass b hb) (hstop y)]
  exact ⟨rfl, by simpa using h⟩

namespace CompiledPage

variable {p q : CompiledPage}

/-- The names of the two files of a page. -/
def fileNames (p : CompiledPage) : List String :=
  [p.markupFile, p.stylesheetFile]

theorem exists_of_mem_fileNames {n : String} (hn : n ∈ p.fileNames) :
    ∃ e, '/' ∉ e ∧ n.toList = p.slug.toList ++ '.' :: e := by
  rcases List.mem_cons.mp hn with rfl | hn
  · refine ⟨p.dialect.keyword.toList, ?_, ?_⟩
    · cases p.dialect <;> decide
    · rw [markupFile, String.toList_append, String.toList_append, List.append_assoc]
      rfl
  · obtain rfl := List.mem_singleton.mp hn
    refine ⟨"css".toList, by decide, ?_⟩
    rw [stylesheetFile, DesignCompiler.stylesheetFile, String.toList_append]
    rfl

theorem isFileName_of_mem_fileNames (hp : IsSlug p.slug) {n : String} (hn : n ∈ p.fileNames) :
    IsFileName n := by
  obtain ⟨e, he, hchars⟩ := exists_of_mem_fileNames hn
  rw [← String.ofList_toList (s := n), hchars]
  refine .of_dot ?_ (hp.notMem rfl rfl (by decide)) (hp.notMem rfl rfl (by decide)) he
  exact fun h => hp.ne_empty (String.toList_eq_nil_iff.mp h)

/-- The file names of two pages are different if the slugs are. -/
theorem slug_eq_of_mem_fileNames (hp : IsSlug p.slug) (hq : IsSlug q.slug) {n : String}
    (hnp : n ∈ p.fileNames) (hnq : n ∈ q.fileNames) : p.slug = q.slug := by
  obtain ⟨e, -, he⟩ := exists_of_mem_fileNames hnp
  obtain ⟨e', -, he'⟩ := exists_of_mem_fileNames hnq
  exact String.toList_inj.mp (dot_inj (hp.notMem rfl rfl (by decide))
    (hq.notMem rfl rfl (by decide)) (he.symm.trans he')).1

theorem fileNames_nodup (p : CompiledPage) : p.fileNames.Nodup := by
  have hne : p.markupFile ≠ p.stylesheetFile := by
    intro h
    have hchars := congrArg String.toList h
    rw [markupFile, stylesheetFile, DesignCompiler.stylesheetFile, String.toList_append,
      String.toList_append, String.toList_append, List.append_assoc,
      List.append_cancel_left_eq] at hchars
    cases hd : p.dialect <;> rw [hd] at hchars <;> exact absurd hchars (by decide)
  simpa [fileNames] using hne

theorem target_fileName {p : CompiledPage} (hp : IsSlug p.slug) {n : String} (hn : n ∈ p.fileNames)
    (d : Disk) (dir : Path) : d.target (dir.join ⟨n⟩) = d.target dir ++ [n] := by
  have hname := isFileName_of_mem_fileNames hp hn
  have hnames := Path.names_fileName hname
  rw [target_join d (Path.isAbsolute_of_noSlash hname.noSlash), hnames]
  rw [hnames]
  exact List.forall_mem_singleton.mpr hname

section Pages

variable {ps : List CompiledPage} (hslugs : ∀ p ∈ ps, IsSlug p.slug)

include hslugs

/-- Pages with different slugs have no file name in common. -/
theorem flatMap_fileNames_nodup (hnodup : (ps.map (·.slug)).Nodup) :
    (ps.flatMap fileNames).Nodup := by
  rw [List.nodup_flatMap]
  refine ⟨fun p _ => p.fileNames_nodup, ?_⟩
  refine (List.pairwise_map.mp hnodup).imp_of_mem fun {p q} hp hq hne n hnp hnq => ?_
  exact hne (slug_eq_of_mem_fileNames (hslugs p hp) (hslugs q hq) hnp hnq)

/-- Pages are saved into one folder, each under its names. -/
theorem targets_texts (d : Disk) (dir : Path) :
    d.targets (ps.flatMap (·.texts dir)) =
      (ps.flatMap fileNames).map fun n => d.target dir ++ [n] := by
  rw [targets, List.map_flatMap, List.map_flatMap]
  refine List.flatMap_congr fun p hp => ?_
  have hfile : ∀ n ∈ p.fileNames, d.target (dir.join ⟨n⟩) = d.target dir ++ [n] :=
    fun n hn => target_fileName (hslugs p hp) hn d dir
  exact congrArg₂ (fun l l' => [l, l']) (hfile _ (List.mem_cons_self ..))
    (hfile _ (List.mem_cons_of_mem _ (List.mem_cons_self ..)))

theorem targets_texts_nodup (hnodup : (ps.map (·.slug)).Nodup) (d : Disk) (dir : Path) :
    (d.targets (ps.flatMap (·.texts dir))).Nodup := by
  rw [targets_texts hslugs]
  exact (flatMap_fileNames_nodup hslugs hnodup).map fun n n' heq => by simpa using heq

/-- What is saved of such pages, one after the other, is there in the end. -/
theorem readText_saved (hnodup : (ps.map (·.slug)).Nodup) {dir : Path} {d d' : Disk}
    {written : List (List Path)}
    (h : (ps.mapM (save · dir)).run.run d = (.ok written, d')) {p : CompiledPage}
    (hp : p ∈ ps) :
    d'.readText (dir.join ⟨p.markupFile⟩) = .ok p.markup ∧
      d'.readText (dir.join ⟨p.stylesheetFile⟩) = .ok p.stylesheet := by
  have hsaves : Action.Saves (ps.mapM (save · dir)) (ps.flatMap (·.texts dir)) :=
    .mapM fun p _ => p.save_saves dir
  have hholds := (hsaves d d' written h).holds (targets_texts_nodup hslugs hnodup d dir)
  have hmem : ∀ t ∈ p.texts dir, t ∈ ps.flatMap (·.texts dir) :=
    fun t ht => List.mem_flatMap.mpr ⟨p, hp, ht⟩
  exact ⟨(hholds _ (hmem _ (List.mem_cons_self ..))).readText,
    (hholds _ (hmem _ (List.mem_cons_of_mem _ (List.mem_cons_self ..)))).readText⟩

end Pages

end CompiledPage

/-! ## Places of files -/

/-- The name of a design is made of names that folders can have, and all its pages have different
slugs. -/
structure CompiledDesign.IsNamed (c : CompiledDesign) : Prop where
  folders : ∃ ns, (∀ n ∈ ns, IsFileName n) ∧ c.name = "/".intercalate ns
  slugs : ∀ p ∈ c.pages, IsSlug p.slug
  nodup : (c.pages.map (·.slug)).Nodup

namespace CompiledDesign

variable {c : CompiledDesign} {cs : List CompiledDesign}

/-- Where the files of a design are, below the folder of the output. -/
def places (c : CompiledDesign) : List Location :=
  c.pages.flatMap fun p => p.fileNames.map fun n => (⟨c.name⟩ : Path).names ++ [n]

theorem targets_texts (h : c.IsNamed) (d : Disk) (output : Path) :
    d.targets (c.texts output) = c.places.map (d.target output ++ ·) := by
  obtain ⟨ns, hns, hname⟩ := h.folders
  have hfolder : d.target (output.join ⟨c.name⟩) = d.target output ++ (⟨c.name⟩ : Path).names := by
    refine target_join d ?_ ?_
    · rw [hname, Path.isAbsolute_intercalate hns]
    · rw [hname, Path.names_intercalate hns]
      exact hns
  rw [texts, CompiledPage.targets_texts h.slugs, hfolder, places, ← List.map_flatMap, List.map_map]
  exact List.map_congr_left fun n _ => List.append_assoc _ _ _

theorem targets_texts_all (h : ∀ c ∈ cs, c.IsNamed) (d : Disk) (output : Path) :
    d.targets (cs.flatMap (·.texts output)) = (cs.flatMap places).map (d.target output ++ ·) := by
  rw [targets, List.map_flatMap, List.map_flatMap]
  exact List.flatMap_congr fun c hc => targets_texts (h c hc) d output

theorem mem_places {l : Location} (hl : l ∈ c.places) :
    ∃ p ∈ c.pages, ∃ n ∈ p.fileNames, l = (⟨c.name⟩ : Path).names ++ [n] := by
  obtain ⟨p, hp, hl⟩ := List.mem_flatMap.mp hl
  obtain ⟨n, hn, rfl⟩ := List.mem_map.mp hl
  exact ⟨p, hp, n, hn, rfl⟩

theorem places_nodup (h : c.IsNamed) : c.places.Nodup := by
  rw [places, ← List.map_flatMap]
  exact (CompiledPage.flatMap_fileNames_nodup h.slugs h.nodup).map fun n n' heq => by simpa using heq

theorem name_eq_of_mem_places {c' : CompiledDesign} (h : c.IsNamed) (h' : c'.IsNamed)
    {l : Location} (hl : l ∈ c.places) (hl' : l ∈ c'.places) : c.name = c'.name := by
  obtain ⟨ns, hns, hname⟩ := h.folders
  obtain ⟨ns', hns', hname'⟩ := h'.folders
  obtain ⟨p, -, n, -, rfl⟩ := mem_places hl
  obtain ⟨p', -, n', -, heq⟩ := mem_places hl'
  -- the last name is that of the file, those before it are those of the folder
  have hfolders := (List.append_inj' heq rfl).1
  rw [hname, hname', Path.names_intercalate hns, Path.names_intercalate hns'] at hfolders
  rw [hname, hname', hfolders]

/-- All files of several designs are in different places. -/
theorem targets_texts_nodup (h : ∀ c ∈ cs, c.IsNamed) (hnames : (cs.map (·.name)).Nodup) (d : Disk)
    (output : Path) : (d.targets (cs.flatMap (·.texts output))).Nodup := by
  rw [targets_texts_all h]
  refine List.Nodup.map (fun l l' heq => by simpa using heq) ?_
  rw [List.nodup_flatMap]
  refine ⟨fun c hc => places_nodup (h c hc), ?_⟩
  refine (List.pairwise_map.mp hnames).imp_of_mem fun {c c'} hc hc' hne l hl hl' => ?_
  exact hne (name_eq_of_mem_places (h c hc) (h c' hc') hl hl')

end CompiledDesign

end DesignCompiler
