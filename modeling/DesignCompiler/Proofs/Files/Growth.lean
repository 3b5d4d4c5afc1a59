import DesignCompiler.Proofs.Files.Actions
import DesignCompiler.Proofs.Files.Tree

/-!
# DesignCompiler — how files grow in number

Projects and designs are read from files of three extensions. What is written has others, so writing it
and making folders for it leaves all sources alone; and what stands in a tree is put at the end of a
path there, so the tree stays one.

* `Disk.isSource`, `Disk.sources` — the files from which something may be read;
* `Disk.Grows` — the tree stays one, nothing is taken away, and the sources are the same;
* `makeFolder_grows`, `writeFile_grows` — single changes;
* `saveText_moves` — what is written, also in runs that fail.
-/

namespace DesignCompiler.Disk

variable {d d' d'' : Disk} {p : Path} {l l' : Location} {ns : List String} {bytes : ByteArray}

/-! ## Sources -/

/-- Whether a location has the extension of a project file or of a design. -/
def isSource (l : Location) : Bool :=
  l.getLast?.any fun n => [".json", ".yaml", ".yml"].any fun e => e.toList.isSuffixOf n.toList

/-- All files with such an extension, and what is in them. -/
def sources (d : Disk) : List (Location × ByteArray) :=
  d.files.filter (isSource ·.1)

/-- `d'` comes from `d` by making folders and writing files that are no sources. -/
structure Grows (d d' : Disk) : Prop where
  tree : d.IsTree → d'.IsTree
  frame : ∃ w, d.Extends d' w ∧ ∀ l ∈ w, isSource l = false
  sources : d'.sources = d.sources

theorem Grows.refl (d : Disk) : d.Grows d :=
  ⟨id, ⟨[], .refl d, fun _ hl => nomatch hl⟩, rfl⟩

theorem Grows.trans (h : d.Grows d') (h' : d'.Grows d'') : d.Grows d'' := by
  obtain ⟨w, hext, hw⟩ := h.frame
  obtain ⟨w', hext', hw'⟩ := h'.frame
  refine ⟨h'.tree ∘ h.tree, ⟨w ++ w', hext.trans hext', ?_⟩, h'.sources.trans h.sources⟩
  exact List.forall_mem_append.mpr ⟨hw, hw'⟩

instance : IsPreorder Disk Grows where
  refl := Grows.refl
  trans _ _ _ := Grows.trans

/-- A path that leads to something leads there still. -/
theorem Grows.locate {s : Spot} (h : d.Grows d') (hp : d.locate p = .ok s)
    (hs : ∀ l, s ≠ .vacant l) : d'.locate p = .ok s := by
  obtain ⟨w, hext, -⟩ := h.frame
  exact hext.locate hp hs

theorem Grows.folder? (h : d.Grows d') (hp : d.folder? p = some l) : d'.folder? p = some l :=
  folder?_eq_some_iff.mpr (h.locate (folder?_eq_some_iff.mp hp) nofun)

/-! ## Places in a tree -/

/-- The names of a path lead down to names of files. -/
theorem place_names (hl : ∀ n ∈ l, IsFileName n) (p : Path) :
    ∀ n ∈ place l p.names, IsFileName n := by
  have hnames : ∀ n ∈ p.names, n = ".." ∨ IsFileName n := by
    intro n hn
    obtain ⟨hpiece, hname⟩ := List.mem_filter.mp hn
    obtain ⟨cs, hcs, rfl⟩ := List.mem_map.mp hpiece
    refine or_iff_not_imp_left.mpr fun hup => ⟨hname, hup, ?_⟩
    rw [String.toList_ofList]
    exact Text.mem_pieces hcs
  -- the location grows by names of files only, and two dots take one of them away
  generalize p.names = ns at hnames
  induction ns generalizing l with
  | nil => exact hl
  | cons n ns ih =>
    obtain ⟨hn, hns⟩ := List.forall_mem_cons.mp hnames
    rw [place]
    split
    · exact ih (fun m hm => hl m (List.dropLast_subset l hm)) hns
    · rename_i hup
      refine ih (List.forall_mem_append.mpr ⟨hl, ?_⟩) hns
      exact List.forall_mem_singleton.mpr (hn.resolve_left hup)

theorem map_fst_putFile (d : Disk) (l : Location) (bytes : ByteArray) :
    (d.putFile l bytes).files.map Prod.fst =
      if (d.content? l).isSome then d.files.map Prod.fst else d.files.map Prod.fst ++ [l] := by
  rw [putFile]
  split
  · rw [List.map_map]
    refine List.map_congr_left fun f _ => ?_
    by_cases hl : f.1 = l <;> simp [hl]
  · rw [List.map_append]
    rfl

theorem mem_places_putFile (hl' : l' ∈ (d.putFile l bytes).files.map Prod.fst) :
    l' = l ∨ l' ∈ d.files.map Prod.fst := by
  rw [map_fst_putFile] at hl'
  split at hl'
  · exact Or.inr hl'
  · rw [List.mem_append, List.mem_singleton] at hl'
    exact hl'.symm

theorem mem_entries_putFile (hl' : l' ∈ (d.putFile l bytes).entries) : l' = l ∨ l' ∈ d.entries := by
  rw [entries, folders_putFile, List.mem_append] at hl'
  rw [entries, List.mem_append]
  rcases hl' with hfolder | hfile
  · exact Or.inr (Or.inl hfolder)
  · exact (mem_places_putFile hfile).imp_right Or.inr

theorem nodup_places_putFile (h : (d.files.map Prod.fst).Nodup) :
    ((d.putFile l bytes).files.map Prod.fst).Nodup := by
  rw [map_fst_putFile]
  split
  · exact h
  · rename_i hnone
    -- the place is new
    rw [isSome_content?_iff] at hnone
    rw [List.nodup_append]
    refine ⟨h, List.pairwise_singleton .., fun a ha b hb => ?_⟩
    obtain rfl := List.mem_singleton.mp hb
    exact fun heq => hnone (heq ▸ ha)

theorem mem_entries_addFolder (hl' : l' ∈ { d with folders := d.folders ++ [l] }.entries) :
    l' = l ∨ l' ∈ d.entries := by
  simp only [entries, List.mem_append, List.mem_singleton] at hl' ⊢
  tauto

namespace IsTree

theorem names_of_spot (h : d.IsTree) (hl : d.spot l ≠ .vacant l) : ∀ n ∈ l, IsFileName n := by
  rcases mem_entries_of_spot hl with rfl | hentry
  · exact nofun
  · exact h.names l hentry

/-- Where a path leads to a file or to nothing, names of files lead to it, and it stands in a folder. -/
theorem target_names (h : d.IsTree) (p : Path) : ∀ n ∈ d.target p, IsFileName n := by
  have hstart : d.spot (d.start p) ≠ .vacant (d.start p) := (h.spot_start p).trans_ne nofun
  exact place_names (h.names_of_spot hstart) p

theorem spot_parent (h : d.IsTree) (hl : d.spot l = .folder l) {s : Spot}
    (hwalk : d.walk l ns = .ok s) (hs : s ≠ .folder s.location) :
    d.spot s.location.dropLast = .folder s.location.dropLast := by
  -- the walk goes on from folders only, so it ends directly below one
  fun_induction d.walk l ns with
  | case1 l =>
    obtain rfl := Except.ok.inj hwalk
    exact absurd rfl hs
  | case2 l ns ih => exact ih (h.spot_dropLast (by simp [hl])) hwalk
  | case3 l n hn ns l'' hspot ih =>
    obtain rfl := eq_of_spot_folder hspot
    exact ih hspot hwalk
  | case4 l n hn hspot =>
    rw [← Except.ok.inj hwalk, spot_location, List.dropLast_concat]
    exact hl
  | case5 => cases hwalk
  | case6 => cases hwalk

/-- A folder that is made in a folder of a tree belongs to the tree. -/
theorem addFolder (h : d.IsTree) (hvacant : d.spot l = .vacant l) (hnames : ∀ n ∈ l, IsFileName n)
    (hparent : d.spot l.dropLast = .folder l.dropLast) :
    { d with folders := d.folders ++ [l] }.IsTree := by
  -- folders stay folders, so everything that was there has its folder above it as before
  have hkeep : ∀ l', d.spot l' = .folder l' →
      { d with folders := d.folders ++ [l] }.spot l' = .folder l' := by
    intro l' hl'
    rw [spot_addFolder]
    split
    · rename_i heq
      rw [heq]
    · exact hl'
  refine ⟨fun l' hl' => ?_, fun l' hl' => hkeep _ ?_, fun f hf => ?_, h.distinct, hkeep _ h.current⟩
  · rcases mem_entries_addFolder hl' with rfl | hl'
    · exact hnames
    · exact h.names l' hl'
  · rcases mem_entries_addFolder hl' with rfl | hl'
    · exact hparent
    · exact h.above l' hl'
  · rw [spot_addFolder, if_neg]
    · exact h.file f hf
    · rintro rfl
      cases hvacant.symm.trans (h.file f hf)

/-- A file that is written in a folder of a tree belongs to the tree. -/
theorem putFile (h : d.IsTree) (hfree : d.spot l ≠ .folder l) (hnames : ∀ n ∈ l, IsFileName n)
    (hparent : d.spot l.dropLast = .folder l.dropLast) : (d.putFile l bytes).IsTree := by
  have hext : d.Extends (d.putFile l bytes) [l] := putFile_extends hfree
  refine ⟨fun l' hl' => ?_, fun l' hl' => hext.folder _ ?_, fun f hf => ?_,
    nodup_places_putFile h.distinct, ?_⟩
  · rcases mem_entries_putFile hl' with rfl | hl'
    · exact hnames
    · exact h.names l' hl'
  · rcases mem_entries_putFile hl' with rfl | hl'
    · exact hparent
    · exact h.above l' hl'
  · -- a file that was there is one at its place still
    rcases mem_places_putFile (List.mem_map_of_mem hf) with heq | hf
    · rw [heq, spot_putFile d hfree, if_pos rfl]
    · exact hext.file _ (h.spot_of_mem hf)
  · have hcurrent := hext.folder _ h.current
    rwa [← hext.current] at hcurrent

end IsTree

/-! ## Single changes -/

theorem sources_putFile (d : Disk) (hl : isSource l = false) (bytes : ByteArray) :
    (d.putFile l bytes).sources = d.sources := by
  rw [sources, sources, putFile]
  split
  · simp only
    induction d.files with
    | nil => rfl
    | cons f fs ih =>
      obtain ⟨l', old⟩ := f
      by_cases heq : l' = l
      · subst heq
        simpa [List.filter_cons, hl] using ih
      · rw [List.map_cons, if_neg heq, List.filter_cons, List.filter_cons, ih]
  · rw [List.filter_append]
    simp [hl]

theorem makeFolder_grows (h : d.makeFolder p = .ok d') : d.Grows d' := by
  refine ⟨fun htree => ?_, ⟨[], makeFolder_extends h, fun _ hl => nomatch hl⟩, ?_⟩
  · obtain ⟨l, hwalk, hvacant, rfl⟩ := makeFolder_eq_ok h
    have hplace : l = d.target p := walk_place hwalk
    refine htree.addFolder hvacant ?_ (htree.spot_parent (htree.spot_start p) hwalk nofun)
    rw [hplace]
    exact htree.target_names p
  · obtain ⟨l, -, -, rfl⟩ := makeFolder_eq_ok h
    rfl

theorem writeFile_grows (h : d.writeFile p bytes = .ok d') (hsource : isSource (d.target p) = false) :
    d.Grows d' := by
  obtain ⟨rfl, -, -, hwalk, hfree⟩ := writeFile_eq_ok h
  refine ⟨fun htree => ?_, ⟨[d.target p], putFile_extends hfree, ?_⟩, sources_putFile d hsource bytes⟩
  · have hparent := htree.spot_parent (htree.spot_start p) hwalk (by rwa [spot_location])
    rw [spot_location] at hparent
    exact htree.putFile hfree (htree.target_names p) hparent
  · exact List.forall_mem_singleton.mpr hsource

/-- A text moves the files if it does not go to a source. -/
theorem saveText_moves (text : String) (hsource : ∀ d : Disk, isSource (d.target p) = false) :
    Moves Grows (saveText p text) :=
  change_moves fun d _ h => writeFile_grows h (hsource d)

end DesignCompiler.Disk
