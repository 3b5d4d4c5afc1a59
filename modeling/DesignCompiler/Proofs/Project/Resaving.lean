import DesignCompiler.Proofs.Files.Growth
import DesignCompiler.Proofs.Project.Saving

/-!
# DesignCompiler — saving again

What is saved has other extensions than what is read, so saving leaves the sources alone, even where it
fails. And where everything has been saved, saving it again finds all folders and files in their places,
and writes what is there.

* `CompiledDesign.save_moves` — saving designs leaves the sources alone;
* `Disk.SameShape` — the same folders, and files in the same places;
* `CompiledDesign.save_stays` — saving what has its places succeeds and keeps the shape;
* `Disk.eq_of_writes` — then all files are as they were.
-/

namespace DesignCompiler

open Disk ClassName

/-! ## Extensions -/

/-- What is written is no source. -/
theorem Disk.isSource_written {e : String} (he : e ∈ [".html", ".jsx", ".css"]) (stem : String)
    (l : Location) : isSource (l ++ [stem ++ e]) = false := by
  have hneither : ∀ e ∈ [".html", ".jsx", ".css"], ∀ e' ∈ [".json", ".yaml", ".yml"],
      ¬ e'.toList <:+ e.toList ∧ ¬ e.toList <:+ e'.toList := by decide +kernel
  rw [isSource, List.getLast?_concat, Option.any_some, List.any_eq_false]
  intro e' he' hsuffix
  rw [List.isSuffixOf_iff_suffix, String.toList_append] at hsuffix
  -- of two ends of one text, one is the end of the other
  obtain ⟨hshort, hlong⟩ := hneither e he e' he'
  rcases List.suffix_or_suffix_of_suffix hsuffix (List.suffix_append stem.toList _) with h | h
  · exact hshort h
  · exact hlong h

namespace CompiledPage

theorem isSource_fileName {p : CompiledPage} {n : String} (hn : n ∈ p.fileNames) (l : Location) :
    isSource (l ++ [n]) = false := by
  rcases List.mem_cons.mp hn with rfl | hn
  · have hmarkup : p.markupFile = p.slug ++ ("." ++ p.dialect.keyword) := by
      rw [markupFile, String.append_assoc]
    rw [hmarkup]
    exact isSource_written (by cases p.dialect <;> decide) _ l
  · obtain rfl := List.mem_singleton.mp hn
    exact isSource_written (by decide) _ l

theorem save_moves (p : CompiledPage) (hp : IsSlug p.slug) (dir : Path) :
    Moves Grows (p.save dir) := by
  have hsource : ∀ n ∈ p.fileNames, ∀ d : Disk, isSource (d.target (dir.join ⟨n⟩)) = false := by
    intro n hn d
    rw [target_fileName hp hn]
    exact isSource_fileName hn _
  exact (makeFolders_moves (fun _ _ _ => makeFolder_grows) dir).bind fun _ =>
    (saveText_moves _ (hsource _ (List.mem_cons_self ..))).bind fun _ =>
      (saveText_moves _ (hsource _ (List.mem_cons_of_mem _ (List.mem_cons_self ..)))).bind fun _ =>
        .pure _

end CompiledPage

/-- Saving a design leaves the sources alone. -/
theorem CompiledDesign.save_moves (c : CompiledDesign) (hslugs : ∀ p ∈ c.pages, IsSlug p.slug)
    (output : Path) : Moves Grows (c.save output) :=
  (Moves.mapM fun p hp => p.save_moves (hslugs p hp) _).bind fun _ => .pure _

/-! ## Shapes -/

namespace Disk

/-- The same folders, and files in the same places. -/
structure SameShape (d e : Disk) : Prop where
  current : e.current = d.current
  folders : e.folders = d.folders
  places : e.files.map Prod.fst = d.files.map Prod.fst

variable {d d' d'' e : Disk} {p : Path} {l : Location}

theorem SameShape.refl (d : Disk) : d.SameShape d :=
  ⟨rfl, rfl, rfl⟩

theorem SameShape.spot (h : d.SameShape e) (l : Location) : e.spot l = d.spot l := by
  have hthere : (e.content? l).isSome = (d.content? l).isSome := by
    rw [Bool.eq_iff_iff, isSome_content?_iff, isSome_content?_iff, h.places]
  rw [Disk.spot, Disk.spot, h.folders, hthere]

theorem walk_congr (h : ∀ l, e.spot l = d.spot l) (l : Location) (ns : List String) :
    e.walk l ns = d.walk l ns := by
  fun_induction d.walk l ns with
  | case1 l => rfl
  | case2 l ns ih => rw [walk, ih]
  | case3 l n hn ns l' hspot ih => rw [walk.eq_3 e l n ns l' hn ((h _).trans hspot), ih]
  | case4 l n hn hspot =>
    rw [walk_last hn, h]
    rfl
  | case5 l n hn m ms l' hspot => rw [walk.eq_5 e l n m ms hn l' ((h _).trans hspot)]
  | case6 l n hn m ms l' hspot => rw [walk.eq_6 e l n m ms hn l' ((h _).trans hspot)]

theorem SameShape.locate (h : d.SameShape e) (p : Path) : e.locate p = d.locate p := by
  rw [Disk.locate, Disk.locate, start, start, h.current, walk_congr h.spot]

/-! ## Saving where everything has its place -/

/-- Folders that are there are not made again. -/
theorem makeFolders_stays (h : p.text.isEmpty = true ∨ ∃ l, d.locate p = .ok (.folder l)) :
    Stays d.SameShape (makeFolders p) := by
  intro e he
  refine ⟨(), e, ?_, he⟩
  rcases h with hempty | ⟨l, hl⟩
  · rw [makeFolders, makeFoldersAbove, if_pos hempty]
    rfl
  · have hlocate : e.locate p = .ok (.folder l) := (he.locate p).trans hl
    obtain ⟨hempty, hwalk, -⟩ := locate_eq_ok_iff.mp hlocate
    -- The folder is there already, so nothing is made.
    have hmake : e.makeFolder p = .error .isThere := by
      rw [makeFolder, hwalk, hempty]
      rfl
    have hfolder := folder?_eq_some_iff.mpr hlocate
    rw [makeFolders, makeFoldersAbove, hempty, if_neg Bool.false_ne_true, run_bind, run_get]
    simp only [hmake, run_bind, run_get, hfolder]
    rfl

/-- A file that is there is written in its place. -/
theorem saveText_stays (text : String) (h : d.locate p = .ok (.file l)) :
    Stays d.SameShape (saveText p text) := by
  intro e he
  have hlocate : e.locate p = .ok (.file l) := (he.locate p).trans h
  have hwrite : e.writeFile p text.toUTF8 = .ok (e.putFile l text.toUTF8) := by
    rw [writeFile, hlocate]
    rfl
  refine ⟨(), e.putFile l text.toUTF8, ?_, ?_, ?_, ?_⟩
  · rw [saveText, change, run_bind, run_get]
    simp only [hwrite]
    rfl
  · have hfree : e.spot l ≠ .folder l := (spot_of_locate_file hlocate).trans_ne nofun
    exact (putFile_extends hfree).current.trans he.current
  · exact (folders_putFile e l _).trans he.folders
  · -- The file is written over, not added.
    have hthere : (e.content? l).isSome := by
      rw [isSome_content?_iff]
      exact mem_files_of_spot (spot_of_locate_file hlocate)
    rw [map_fst_putFile, if_pos hthere, he.places]

/-- Files are told by their places and their contents. -/
theorem eq_of_lookup {xs ys : List (Location × ByteArray)}
    (hkeys : xs.map Prod.fst = ys.map Prod.fst) (hnodup : (ys.map Prod.fst).Nodup)
    (h : ∀ l, xs.lookup l = ys.lookup l) : xs = ys := by
  induction xs generalizing ys with
  | nil => exact (List.map_eq_nil_iff.mp hkeys.symm).symm
  | cons x xs ih =>
    cases ys with
    | nil => exact nomatch hkeys
    | cons y ys =>
      obtain ⟨k, a⟩ := x
      obtain ⟨k', b⟩ := y
      obtain ⟨rfl, hrest⟩ : k = k' ∧ xs.map Prod.fst = ys.map Prod.fst := by simpa using hkeys
      rw [List.map_cons, List.nodup_cons] at hnodup
      have hfst := h k
      simp only [List.lookup_cons, beq_self_eq_true] at hfst
      rw [Option.some.inj hfst, ih hrest hnodup.2 fun l => ?_]
      by_cases hl : l = k
      · -- no other file is in this place
        have hnone : ∀ zs : List (Location × ByteArray), k ∉ zs.map Prod.fst →
            zs.lookup k = none := by
          intro zs hzs
          refine List.lookup_eq_none_iff.mpr fun z hz => bne_iff_ne.mpr ?_
          exact fun heq => hzs (heq ▸ List.mem_map_of_mem hz)
        rw [hl, hnone xs (hrest ▸ hnodup.1), hnone ys hnodup.1]
      · have hsnd := h l
        simpa only [List.lookup_cons, beq_false_of_ne hl] using hsnd

/-- Texts that are written twice to the same places are there after the first time. -/
theorem eq_of_writes {ts : List (Path × String)} (htree : d'.IsTree) (h : d.Writes d' ts)
    (hagain : d'.Writes d'' ts) (hshape : d'.SameShape d'') : d'' = d' := by
  have hwrites : d'.writes ts = d.writes ts :=
    List.map_congr_left fun t _ => by rw [h.frame.target]
  have hcontent : ∀ l, d''.content? l = d'.content? l := by
    intro l
    rw [hagain.content, hwrites, h.content]
    cases (d.writes ts).reverse.lookup l <;> rfl
  have hfiles : d''.files = d'.files := eq_of_lookup hshape.places htree.distinct hcontent
  cases d'
  cases d''
  obtain ⟨hcurrent, hfolders, -⟩ := hshape
  simp only at hcurrent hfolders hfiles
  rw [hcurrent, hfolders, hfiles]

end Disk

/-- Saving a design whose files all have their places succeeds. -/
theorem CompiledDesign.save_stays {d : Disk} {c : CompiledDesign} {output : Path}
    (hslugs : ∀ p ∈ c.pages, IsSlug p.slug)
    (h : ∀ t ∈ c.texts output, ∃ l, d.locate t.1 = .ok (.file l)) :
    Stays d.SameShape (c.save output) := by
  refine Stays.bind (Stays.mapM fun p hp => ?_) fun _ => .pure _
  have hmem : ∀ t ∈ p.texts (output.join ⟨c.name⟩), t ∈ c.texts output := fun t ht =>
    List.mem_flatMap.mpr ⟨p, hp, ht⟩
  obtain ⟨l, hmarkup⟩ := h _ (hmem _ (List.mem_cons_self ..))
  obtain ⟨l', hstylesheet⟩ := h _ (hmem _ (List.mem_cons_of_mem _ (List.mem_cons_self ..)))
  have hname := p.isFileName_of_mem_fileNames (hslugs p hp) (List.mem_cons_self ..)
  refine (makeFolders_stays ?_).bind fun _ => (saveText_stays _ hmarkup).bind fun _ =>
    (saveText_stays _ hstylesheet).bind fun _ => .pure _
  -- the files stand in the folder
  cases hempty : (output.join ⟨c.name⟩).text.isEmpty with
  | true => exact Or.inl rfl
  | false => exact Or.inr ⟨_, locate_of_join hname hempty hmarkup⟩

end DesignCompiler
