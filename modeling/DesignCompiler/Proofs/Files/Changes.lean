import DesignCompiler.Proofs.Files.Places

/-!
# DesignCompiler — what changes to files leave alone

Making folders and writing files never takes anything away: a folder stays a folder and a file stays a
file, and all files but those that are written keep their contents. So what one change has written is
still there after the next ones, if these write somewhere else.

* `Disk.Extends` — the frame of some changes: the locations of the files that were written;
* `Disk.Holds` — a path leads to a file with some text;
* `Disk.Writes` — changes that write some texts, one after the other;
* `Writes.holds` — each of them is there in the end, if they go to different files;
* `writeFile_writes`, `makeFolder_extends` — single changes;
* `Writes.trans` — changes one after the other.
-/

namespace DesignCompiler.Disk

variable {d d' d'' : Disk} {p : Path} {l : Location} {text : String} {bytes : ByteArray}

/-! ## Frames -/

/-- `d'` comes from `d` by changes that write files at some locations at most. -/
structure Extends (d d' : Disk) (written : List Location) : Prop where
  current : d'.current = d.current
  folder : ∀ l, d.spot l = .folder l → d'.spot l = .folder l
  file : ∀ l, d.spot l = .file l → d'.spot l = .file l
  content : ∀ l ∉ written, d'.content? l = d.content? l

theorem Extends.refl (d : Disk) : d.Extends d [] :=
  ⟨rfl, fun _ h => h, fun _ h => h, fun _ _ => rfl⟩

theorem Extends.trans {w w' : List Location} (h : d.Extends d' w) (h' : d'.Extends d'' w') :
    d.Extends d'' (w ++ w') where
  current := h'.current.trans h.current
  folder l hl := h'.folder l (h.folder l hl)
  file l hl := h'.file l (h.file l hl)
  content l hl := by
    rw [List.mem_append, not_or] at hl
    rw [h'.content l hl.2, h.content l hl.1]

theorem Extends.start {w : List Location} (h : d.Extends d' w) (p : Path) :
    d'.start p = d.start p := by
  rw [Disk.start, Disk.start, h.current]

theorem Extends.target {w : List Location} (h : d.Extends d' w) (p : Path) :
    d'.target p = d.target p := by
  rw [Disk.target, Disk.target, h.start]

/-! ## Texts at paths -/

theorem locate_eq_ok_iff {s : Spot} :
    d.locate p = .ok s ↔ p.text.isEmpty = false ∧ d.walk (d.start p) p.names = .ok s ∧
      ∀ l, s = .file l → p.wantsFolder = false := by
  rw [locate]
  cases p.text.isEmpty with
  | true => simp [bind, Except.bind]
  | false =>
    simp only [Bool.false_eq_true, if_false, bind_eq_ok_iff, true_and]
    constructor
    · rintro ⟨found, hwalk, h⟩
      -- only a file is looked at again
      cases found with
      | folder l =>
        obtain rfl := Except.ok.inj h
        exact ⟨hwalk, fun _ hs => nomatch hs⟩
      | file l =>
        simp only at h
        split at h
        · exact nomatch h
        · rename_i hfolder
          obtain rfl := Except.ok.inj h
          exact ⟨hwalk, fun _ _ => Bool.eq_false_iff.mpr hfolder⟩
      | vacant l =>
        obtain rfl := Except.ok.inj h
        exact ⟨hwalk, fun _ hs => nomatch hs⟩
    · rintro ⟨hwalk, hfile⟩
      refine ⟨s, hwalk, ?_⟩
      cases s with
      | folder l => rfl
      | file l => simp only [hfile l rfl, Bool.false_eq_true, if_false]; rfl
      | vacant l => rfl

/-- A path leads to a file with some text. -/
structure Holds (d : Disk) (p : Path) (text : String) : Prop where
  located : d.locate p = .ok (.file (d.target p))
  spot : d.spot (d.target p) = .file (d.target p)
  content : d.content? (d.target p) = some text.toUTF8

theorem Holds.readText (h : d.Holds p text) : d.readText p = .ok text := by
  have hutf : String.fromUTF8? text.toUTF8 = some text := by
    rw [String.toUTF8_eq_toByteArray, String.fromUTF8?, dif_pos text.isValidUTF8]
    rfl
  rw [Disk.readText, h.located]
  simp only [bind, Except.bind, h.content, Option.bind_some, hutf]
  rfl

theorem spot_of_locate_file (h : d.locate p = .ok (.file l)) : d.spot l = .file l :=
  (walk_spot (locate_eq_ok_iff.mp h).2.1).resolve_left nofun

/-- A path that leads to something leads there after changes too. -/
theorem Extends.locate {w : List Location} {s : Spot} (h : d.Extends d' w)
    (hp : d.locate p = .ok s) (hs : ∀ l, s ≠ .vacant l) : d'.locate p = .ok s := by
  obtain ⟨hempty, hwalk, hfolder⟩ := locate_eq_ok_iff.mp hp
  have hwalk' := walk_again h.folder hwalk
  rw [← h.start] at hwalk'
  have hrevisit : d'.revisit s = s := by
    cases s with
    | folder l => rfl
    | file l => exact h.file l (spot_of_locate_file hp)
    | vacant l => exact absurd rfl (hs l)
  exact locate_eq_ok_iff.mpr ⟨hempty, hrevisit ▸ hwalk', hfolder⟩

/-! ## One file -/

theorem lookup_map_if (fs : List (Location × ByteArray)) (l l' : Location) (bytes : ByteArray) :
    (fs.map fun (f, old) => if f = l then (f, bytes) else (f, old)).lookup l' =
      if l' = l then (fs.lookup l').map fun _ => bytes else fs.lookup l' := by
  induction fs with
  | nil => simp
  | cons f fs ih =>
    obtain ⟨f, old⟩ := f
    rw [List.map_cons, List.lookup_cons]
    by_cases hl : l' = f
    · subst hl
      by_cases hf : l' = l <;> simp [hf]
    · have hne : (l' == f) = false := beq_false_of_ne hl
      by_cases hf : f = l
      · rw [if_pos hf, List.lookup_cons, hne, ih]
      · rw [if_neg hf, List.lookup_cons, hne, ih]

theorem content?_putFile (d : Disk) (l l' : Location) (bytes : ByteArray) :
    (d.putFile l bytes).content? l' = if l' = l then some bytes else d.content? l' := by
  rw [putFile]
  split
  · -- a file that is there is replaced where it stands
    rename_i hthere
    rw [content?, lookup_map_if]
    by_cases hl : l' = l
    · rw [if_pos hl, if_pos hl, hl]
      obtain ⟨old, hold⟩ := Option.isSome_iff_exists.mp hthere
      rw [content?] at hold
      rw [hold]
      rfl
    · rw [if_neg hl, if_neg hl, content?]
  · -- a new one comes behind the others
    rename_i hnone
    rw [Option.not_isSome_iff_eq_none, content?] at hnone
    rw [content?, List.lookup_append, content?]
    by_cases hl : l' = l
    · simp [hl, hnone]
    · have hne : (l' == l) = false := beq_false_of_ne hl
      simp [hl, List.lookup_cons, hne]

theorem folders_putFile (d : Disk) (l : Location) (bytes : ByteArray) :
    (d.putFile l bytes).folders = d.folders := by
  rw [putFile]
  split <;> rfl

theorem spot_putFile (d : Disk) {l : Location} (hl : d.spot l ≠ .folder l) (l' : Location)
    (bytes : ByteArray) :
    (d.putFile l bytes).spot l' = if l' = l then .file l else d.spot l' := by
  rw [spot, spot, folders_putFile, content?_putFile]
  by_cases heq : l' = l
  · subst heq
    rw [spot] at hl
    split
    · rename_i hfolder
      rw [if_pos hfolder] at hl
      exact absurd rfl hl
    · simp
  · simp [heq]

/-- A file that is written is there then, and nothing else has changed. -/
theorem putFile_extends (hl : d.spot l ≠ .folder l) : d.Extends (d.putFile l bytes) [l] where
  current := by
    rw [putFile]
    split <;> rfl
  folder l' h := by
    rw [spot_putFile d hl, if_neg, h]
    rintro rfl
    exact hl h
  file l' h := by
    rw [spot_putFile d hl]
    split
    · rename_i heq
      rw [heq]
    · exact h
  content l' hl' := by
    rw [List.mem_singleton] at hl'
    rw [content?_putFile, if_neg hl']

/-! ## One folder -/

theorem spot_addFolder (d : Disk) (l l' : Location) :
    { d with folders := d.folders ++ [l] }.spot l' = if l' = l then .folder l else d.spot l' := by
  have hcontent : { d with folders := d.folders ++ [l] }.content? l' = d.content? l' := rfl
  rw [spot, spot, hcontent]
  by_cases hl : l' = l <;> simp [hl]

/-- A folder is only made where nothing is. -/
theorem makeFolder_eq_ok (h : d.makeFolder p = .ok d') : ∃ l,
    d.walk (d.start p) p.names = .ok (.vacant l) ∧ d.spot l = .vacant l ∧
      d' = { d with folders := d.folders ++ [l] } := by
  rw [makeFolder] at h
  split at h
  · exact nomatch h
  · obtain ⟨s, hwalk, h⟩ := bind_eq_ok_iff.mp h
    -- only at a vacant place a folder is made
    cases s with
    | folder l => exact nomatch h
    | file l => exact nomatch h
    | vacant l =>
      have hvacant : d.spot l = .vacant l := (walk_spot hwalk).resolve_left nofun
      simp only at h
      split at h
      · exact nomatch h
      · exact ⟨l, hwalk, hvacant, (Except.ok.inj h).symm⟩

theorem makeFolder_extends (h : d.makeFolder p = .ok d') : d.Extends d' [] := by
  obtain ⟨l, -, hvacant, rfl⟩ := makeFolder_eq_ok h
  refine ⟨rfl, fun l' hl' => ?_, fun l' hl' => ?_, fun _ _ => rfl⟩
  · rw [spot_addFolder, hl']
    split
    · rename_i heq
      rw [heq]
    · rfl
  · -- the new folder is not in the place of a file
    rw [spot_addFolder, if_neg, hl']
    rintro rfl
    rw [hvacant] at hl'
    exact nomatch hl'

/-! ## Texts one after the other -/

/-- The locations of some texts that are written. -/
def targets (d : Disk) (texts : List (Path × String)) : List Location :=
  texts.map fun t => d.target t.1

/-- What is written where, by some texts. -/
def writes (d : Disk) (texts : List (Path × String)) : List (Location × ByteArray) :=
  texts.map fun t => (d.target t.1, t.2.toUTF8)

theorem map_fst_writes (d : Disk) (texts : List (Path × String)) :
    (d.writes texts).map Prod.fst = d.targets texts := by
  rw [writes, targets, List.map_map]
  rfl

/-- `d'` comes from `d` by writing some texts, in their order, and by making folders. -/
structure Writes (d d' : Disk) (texts : List (Path × String)) : Prop where
  frame : d.Extends d' (d.targets texts)
  located : ∀ t ∈ texts, d'.locate t.1 = .ok (.file (d.target t.1))
  /-- A file that is written several times has the last of its texts. -/
  content : ∀ l, d'.content? l = ((d.writes texts).reverse.lookup l).or (d.content? l)

theorem Extends.writes (h : d.Extends d' []) : d.Writes d' [] :=
  ⟨h, fun _ ht => (nomatch ht), fun l => h.content l List.not_mem_nil⟩

theorem Writes.trans {ts ts' : List (Path × String)} (h : d.Writes d' ts)
    (h' : d'.Writes d'' ts') : d.Writes d'' (ts ++ ts') := by
  have htarget := h.frame.target
  have htargets : d'.targets ts' = d.targets ts' := List.map_congr_left fun t _ => htarget t.1
  have hwrites : d'.writes ts' = d.writes ts' := List.map_congr_left fun t _ => by rw [htarget]
  refine ⟨?_, fun t ht => ?_, fun l => ?_⟩
  · have happend : d.targets (ts ++ ts') = d.targets ts ++ d.targets ts' := List.map_append
    have hframe := h'.frame
    rw [htargets] at hframe
    exact happend ▸ h.frame.trans hframe
  · rcases List.mem_append.mp ht with ht | ht
    · exact h'.frame.locate (h.located t ht) nofun
    · rw [← htarget]
      exact h'.located t ht
  · -- what was written last comes first
    have happend : d.writes (ts ++ ts') = d.writes ts ++ d.writes ts' := List.map_append
    rw [h'.content, h.content, happend, hwrites, List.reverse_append, List.lookup_append,
      Option.or_assoc]

/-- Texts that go to different files are all there in the end. -/
theorem Writes.holds {ts : List (Path × String)} (h : d.Writes d' ts)
    (hnodup : (d.targets ts).Nodup) : ∀ t ∈ ts, d'.Holds t.1 t.2 := by
  intro t ht
  have hlocated := h.located t ht
  -- no later text goes to the same place
  have hlookup : (d.writes ts).reverse.lookup (d.target t.1) = some t.2.toUTF8 := by
    have hmem : (d.target t.1, t.2.toUTF8) ∈ (d.writes ts).reverse :=
      List.mem_reverse.mpr (List.mem_map_of_mem ht)
    have hkeys : (((d.writes ts).reverse).map Prod.fst).Nodup := by
      rwa [List.map_reverse, (List.reverse_perm _).nodup_iff, map_fst_writes]
    obtain ⟨before, after, hsplit⟩ := List.append_of_mem hmem
    rw [hsplit, List.map_append, List.map_cons, List.nodup_append] at hkeys
    refine List.lookup_eq_some_iff.mpr ⟨before, after, hsplit, fun w hw => ?_⟩
    exact bne_iff_ne.mpr (hkeys.2.2 w.1 (List.mem_map_of_mem hw) _ (List.mem_cons_self ..)).symm
  rw [← h.frame.target] at hlocated
  refine ⟨hlocated, spot_of_locate_file hlocated, ?_⟩
  rw [h.frame.target, h.content, hlookup, Option.some_or]

/-- Where a file is written, there is a file or nothing, in a folder that is there. -/
theorem writeFile_eq_ok (h : d.writeFile p bytes = .ok d') :
    d' = d.putFile (d.target p) bytes ∧ p.text.isEmpty = false ∧ p.wantsFolder = false ∧
      d.walk (d.start p) p.names = .ok (d.spot (d.target p)) ∧
      d.spot (d.target p) ≠ .folder (d.target p) := by
  obtain ⟨s, hlocate, h⟩ := bind_eq_ok_iff.mp h
  obtain ⟨hempty, hwalk, hfolder⟩ := locate_eq_ok_iff.mp hlocate
  have hplace : s.location = d.target p := walk_place hwalk
  have hspot : s ≠ .folder (d.target p) → d.spot (d.target p) = s := by
    intro hne
    rw [← hplace]
    exact (walk_spot hwalk).resolve_left hne
  -- a file is replaced, a vacant place is filled, and a folder is refused
  cases s with
  | folder l => exact nomatch h
  | file l =>
    obtain rfl : l = d.target p := hplace
    obtain rfl := Except.ok.inj h
    rw [hspot nofun]
    exact ⟨rfl, hempty, hfolder _ rfl, hwalk, nofun⟩
  | vacant l =>
    obtain rfl : l = d.target p := hplace
    simp only at h
    split at h
    · exact nomatch h
    · rename_i hwants
      obtain rfl := Except.ok.inj h
      rw [hspot nofun]
      exact ⟨rfl, hempty, Bool.eq_false_iff.mpr hwants, hwalk, nofun⟩

theorem writeFile_writes (h : d.writeFile p text.toUTF8 = .ok d') : d.Writes d' [(p, text)] := by
  obtain ⟨rfl, hempty, hwants, hwalk, hfree⟩ := writeFile_eq_ok h
  have hext : d.Extends (d.putFile (d.target p) text.toUTF8) [d.target p] := putFile_extends hfree
  have hthere : (d.putFile (d.target p) text.toUTF8).spot (d.target p) = .file (d.target p) := by
    rw [spot_putFile d hfree, if_pos rfl]
  refine ⟨hext, fun t ht => ?_, fun l => ?_⟩
  · obtain rfl := List.mem_singleton.mp ht
    -- the walk that found the place before now ends at the file
    have hwalk' := walk_again hext.folder hwalk
    rw [revisit_spot _ hfree, hthere] at hwalk'
    refine locate_eq_ok_iff.mpr ⟨hempty, ?_, fun _ _ => hwants⟩
    rw [hext.start, hwalk']
  · rw [content?_putFile]
    by_cases hl : l = d.target p
    · simp [writes, hl]
    · simp [writes, hl, List.lookup_cons, beq_false_of_ne hl]

end DesignCompiler.Disk
