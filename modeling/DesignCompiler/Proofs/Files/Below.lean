import DesignCompiler.Proofs.Files.Filling

/-!
# DesignCompiler — changes in a folder

Where a path leads to a folder, one more name leads to what is there, and that decides whether a file
can be written or a folder made in its place.

* `Path.join_join` — a path with two names behind it;
* `locate_join`, `locate_join_file` — one more name behind the path of a folder, or of a file;
* `saveText_below`, `makeFolders_below` — what changes below a folder do;
* `makeFolders_of_folder`, `makeFolders_of_file` — a folder that is made where something is.
-/

namespace DesignCompiler

/-- A path with two names behind it. -/
theorem Path.join_join {p : Path} {a b : String} (ha : IsFileName a) (hb : IsFileName b) :
    (p.join ⟨a⟩).join ⟨b⟩ = p.join ⟨a ++ "/" ++ b⟩ := by
  have hne : a.toList ≠ [] := by
    intro hnil
    have hname := ha.isName
    rw [String.toList_eq_nil_iff.mp hnil] at hname
    exact absurd hname (by decide)
  have hslash : ∀ c, a.toList.getLast? = some c ∨ a.toList.head? = some c → c ≠ '/' := by
    rintro c hc rfl
    exact ha.noSlash (hc.elim List.mem_of_getLast? List.mem_of_head?)
  have htext := join_of_relative (p := p) (isAbsolute_of_noSlash ha.noSlash)
  -- the first name does not end in a slash, so one is put behind it
  obtain ⟨before, hbefore⟩ : ∃ before, (p.join ⟨a⟩).text.toList = before ++ a.toList := by
    split at htext
    · exact ⟨_, htext⟩
    · exact ⟨p.text.toList ++ ['/'], by rw [htext]; simp⟩
  have hbetween : ((p.join ⟨a⟩).text.isEmpty || (p.join ⟨a⟩).text.toList.getLast? == some '/') =
      false := by
    rw [isEmpty_join ha, Bool.false_or, hbefore, List.getLast?_append_of_ne_nil _ hne,
      beq_eq_false_iff_ne]
    exact fun hlast => hslash _ (Or.inl hlast) rfl
  have hrelative : (⟨a ++ "/" ++ b⟩ : Path).isAbsolute = false := by
    rw [isAbsolute, String.toList_append, String.toList_append, List.append_assoc,
      List.head?_append_of_ne_nil _ hne, beq_eq_false_iff_ne]
    exact fun hhead => hslash _ (Or.inr hhead) rfl
  have htwice := join_of_relative (p := p.join ⟨a⟩) (isAbsolute_of_noSlash hb.noSlash)
  rw [hbetween, if_neg Bool.false_ne_true, htext] at htwice
  have hsame : ((p.join ⟨a⟩).join ⟨b⟩).text.toList = (p.join ⟨a ++ "/" ++ b⟩).text.toList := by
    rw [htwice, join_of_relative hrelative]
    split <;> simp
  exact congrArg Path.mk (String.toList_inj.mp hsame)

namespace Disk

variable {d : Disk} {p : Path} {l : Location} {n : String}

theorem start_join (hn : IsFileName n) : d.start (p.join ⟨n⟩) = d.start p := by
  rw [start, start, Path.isAbsolute_join (Path.isAbsolute_of_noSlash hn.noSlash)]

/-- One more name leads from a folder to what is there. -/
theorem walk_join (hp : d.locate p = .ok (.folder l)) (hn : IsFileName n) :
    d.walk (d.start (p.join ⟨n⟩)) (p.join ⟨n⟩).names = .ok (d.spot (l ++ [n])) := by
  rw [start_join hn, Path.names_join (Path.isAbsolute_of_noSlash hn.noSlash), Path.names_fileName hn,
    walk_append (locate_eq_ok_iff.mp hp).2.1, walk_last hn.notUp]

theorem locate_join (hp : d.locate p = .ok (.folder l)) (hn : IsFileName n) :
    d.locate (p.join ⟨n⟩) = .ok (d.spot (l ++ [n])) :=
  locate_eq_ok_iff.mpr ⟨Path.isEmpty_join hn, walk_join hp hn, fun _ _ => Path.wantsFolder_join hn⟩

/-- A text is written below a folder, unless there is a folder in its place. -/
theorem saveText_below (hp : d.locate p = .ok (.folder l)) (hn : IsFileName n) (text : String) :
    (saveText (p.join ⟨n⟩) text).run.run d =
      if d.spot (l ++ [n]) = .folder (l ++ [n]) then (.error .isFolder, d)
      else (.ok (), d.putFile (l ++ [n]) text.toUTF8) := by
  rw [saveText, change, run_bind, run_get]
  by_cases hspot : d.spot (l ++ [n]) = .folder (l ++ [n])
  · have hwrite : d.writeFile (p.join ⟨n⟩) text.toUTF8 = .error .isFolder := by
      rw [writeFile, locate_join hp hn, hspot]
      rfl
    simp only [hwrite, if_pos hspot]
    rfl
  · have hwrite := writeFile_of_walk text.toUTF8 (Path.isEmpty_join hn) (Path.wantsFolder_join hn)
      (walk_join hp hn) hspot
    simp only [hwrite, if_neg hspot]
    rfl

/-- No folder is made in the place of a file, nor behind a file. -/
theorem makeFolders_of_blocked {e : FileError} (hp : p.text.isEmpty = false)
    (hmake : d.makeFolder p = .error e) (he : e ≠ .notFound) (hfolder : d.folder? p = none) :
    (makeFolders p).run.run d = (.error e, d) := by
  rw [makeFolders, makeFoldersAbove, hp, if_neg Bool.false_ne_true, run_bind, run_get]
  cases e with
  | notFound => exact absurd rfl he
  | _ =>
    simp only [hmake, run_bind, run_get, hfolder]
    rfl

/-- A folder is made below a folder, unless there is a file in its place. -/
theorem makeFolders_below (htree : d.IsTree) (hp : d.locate p = .ok (.folder l))
    (hn : IsFileName n) :
    d.spot (l ++ [n]) = .file (l ++ [n]) ∧
        (makeFolders (p.join ⟨n⟩)).run.run d = (.error .isThere, d) ∨
      d.spot (l ++ [n]) ≠ .file (l ++ [n]) ∧
        ∃ d', (makeFolders (p.join ⟨n⟩)).run.run d = (.ok (), d') ∧ d.Opens (l ++ [n]) d' := by
  have hwalk := (locate_eq_ok_iff.mp hp).2.1
  have hdot : (p.join ⟨n⟩).endsInDot = false :=
    Path.endsInDot_eq_false hn.isName (Path.getLast?_pieces_join hn)
  by_cases hspot : d.spot (l ++ [n]) = .file (l ++ [n])
  · refine Or.inl ⟨hspot, makeFolders_of_blocked (Path.isEmpty_join hn) ?_ (by decide) ?_⟩
    · rw [makeFolder, walk_join hp hn, hspot, Path.isEmpty_join hn, hdot]
      rfl
    · rw [folder?, locate_join hp hn, hspot]
  · have hstart : d.walk (d.start (p.join ⟨n⟩)) p.names = .ok (.folder l) :=
      (start_join hn).symm ▸ hwalk
    refine Or.inr ⟨hspot, makeFolders_opens htree ⟨?_, hstart, ?_, ?_, Or.inr hdot⟩⟩
    · rw [Path.names_join (Path.isAbsolute_of_noSlash hn.noSlash), Path.names_fileName hn]
    · simpa using hn.notUp.symm
    · -- on the way there is the folder itself, and the one that is made
      intro ms hms
      cases ms with
      | nil =>
        rw [List.append_nil, htree.spot_locate hp]
        intro hfile
        cases hfile
      | cons m ms =>
        obtain ⟨rfl, hnil⟩ := List.cons_prefix_cons.mp hms
        rwa [List.prefix_nil.mp hnil]

/-- Nothing is behind a file. -/
theorem walk_append_file {l' : Location} {a b : List String} (h : d.walk l a = .ok (.file l'))
    (hb : b ≠ []) : d.walk l (a ++ b) = .error .notFolder := by
  obtain ⟨m, ms, rfl⟩ := List.exists_cons_of_ne_nil hb
  fun_induction d.walk l a with
  | case1 => cases h
  | case2 l ns ih =>
    rw [List.cons_append, walk]
    exact ih h
  | case3 l n hn ns l'' hspot ih =>
    rw [List.cons_append, walk.eq_3 d l n _ l'' hn hspot]
    exact ih h
  | case4 l n hn hspot => exact walk.eq_5 d l n m ms hn l' (Except.ok.inj h)
  | case5 => cases h
  | case6 => cases h

theorem walk_join_file (hp : d.locate p = .ok (.file l)) (hn : IsFileName n) :
    d.walk (d.start (p.join ⟨n⟩)) (p.join ⟨n⟩).names = .error .notFolder := by
  rw [start_join hn, Path.names_join (Path.isAbsolute_of_noSlash hn.noSlash), Path.names_fileName hn,
    walk_append_file (locate_eq_ok_iff.mp hp).2.1 (List.cons_ne_nil n [])]

theorem locate_join_file (hp : d.locate p = .ok (.file l)) (hn : IsFileName n) :
    d.locate (p.join ⟨n⟩) = .error .notFolder := by
  rw [locate, walk_join_file hp hn, Path.isEmpty_join hn]
  rfl

/-- A folder that is there is not made again. -/
theorem makeFolders_of_folder (hp : d.locate p = .ok (.folder l)) :
    (makeFolders p).run.run d = (.ok (), d) := by
  obtain ⟨hempty, hwalk, -⟩ := locate_eq_ok_iff.mp hp
  obtain ⟨hmake, hfolder⟩ := makeFolder_isThere hempty hwalk
  rw [makeFolders, makeFoldersAbove, hempty, if_neg Bool.false_ne_true, run_bind, run_get]
  simp only [hmake, run_bind, run_get, hfolder]
  rfl

theorem makeFolders_of_file (hp : d.locate p = .ok (.file l)) :
    ∃ e, (makeFolders p).run.run d = (.error e, d) := by
  obtain ⟨hempty, hwalk, -⟩ := locate_eq_ok_iff.mp hp
  have hfolder : d.folder? p = none := by rw [folder?, hp]
  refine ⟨_, makeFolders_of_blocked hempty (e := if p.endsInDot then .notFolder else .isThere) ?_ ?_
    hfolder⟩
  · rw [makeFolder, hwalk, hempty]
    rfl
  · split <;> decide

theorem makeFolders_behind_file (hp : d.locate p = .ok (.file l)) (hn : IsFileName n) :
    (makeFolders (p.join ⟨n⟩)).run.run d = (.error .notFolder, d) := by
  refine makeFolders_of_blocked (Path.isEmpty_join hn) ?_ (by decide) ?_
  · rw [makeFolder, walk_join_file hp hn, Path.isEmpty_join hn]
    rfl
  · rw [folder?, locate_join_file hp hn]

end Disk

end DesignCompiler
