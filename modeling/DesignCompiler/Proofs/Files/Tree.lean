import DesignCompiler.Proofs.Files.Changes
import Mathlib.Tactic.ByContra

/-!
# DesignCompiler — trees of files

Files and folders have names that lead to them, and whatever stands in a folder has this folder above
it. So the names of a file, joined to the path of a folder above it, make a path that leads to the file;
and where nothing is, nothing is below.

* `Disk.IsTree` — the files and folders are a tree;
* `IsTree.spot_above`, `IsTree.vacant_below` — what is above a file, and below nothing;
* `IsTree.locate_below` — the names of a file lead to it.
-/

namespace DesignCompiler

namespace Disk

/-- The locations of all folders and files. The root itself is not listed. -/
def entries (d : Disk) : List Location :=
  d.folders ++ d.files.map Prod.fst

/-- The files and folders are a tree, and the working folder is one of the folders. -/
structure IsTree (d : Disk) : Prop where
  names : ∀ l ∈ d.entries, ∀ n ∈ l, IsFileName n
  above : ∀ l ∈ d.entries, d.spot l.dropLast = .folder l.dropLast
  /-- No file is in the place of a folder. -/
  file : ∀ f ∈ d.files, d.spot f.1 = .file f.1
  distinct : (d.files.map Prod.fst).Nodup
  current : d.spot d.current = .folder d.current

instance (d : Disk) : Decidable d.IsTree :=
  decidable_of_iff ((∀ l ∈ d.entries, ∀ n ∈ l, IsFileName n) ∧
      (∀ l ∈ d.entries, d.spot l.dropLast = .folder l.dropLast) ∧
      (∀ f ∈ d.files, d.spot f.1 = .file f.1) ∧ (d.files.map Prod.fst).Nodup ∧
      d.spot d.current = .folder d.current)
    ⟨fun ⟨h₁, h₂, h₃, h₄, h₅⟩ => ⟨h₁, h₂, h₃, h₄, h₅⟩,
      fun ⟨h₁, h₂, h₃, h₄, h₅⟩ => ⟨h₁, h₂, h₃, h₄, h₅⟩⟩

variable {d : Disk} {l : Location} {ns : List String}

/-! ## Spots -/

theorem isSome_content?_iff : (d.content? l).isSome ↔ l ∈ d.files.map Prod.fst := by
  rw [content?]
  induction d.files with
  | nil => simp
  | cons f fs ih =>
    obtain ⟨l', bytes⟩ := f
    rw [List.lookup_cons, List.map_cons, List.mem_cons]
    by_cases heq : l = l'
    · simp [heq]
    · rw [beq_false_of_ne heq, ih]
      simp [heq]

theorem spot_eq_folder_iff : d.spot l = .folder l ↔ l = [] ∨ l ∈ d.folders := by
  rw [spot]
  split
  · rename_i h
    simpa using h
  · rename_i h
    split <;> simpa using h

theorem mem_files_of_spot (h : d.spot l = .file l) : l ∈ d.files.map Prod.fst := by
  rw [← isSome_content?_iff]
  rw [spot] at h
  split at h
  · cases h
  · split at h
    · assumption
    · cases h

theorem mem_entries_of_spot (h : d.spot l ≠ .vacant l) : l = [] ∨ l ∈ d.entries := by
  rw [entries, List.mem_append]
  rw [spot] at h
  split at h
  · rename_i hfolder
    rw [Bool.or_eq_true, List.isEmpty_iff, List.contains_iff_mem] at hfolder
    exact hfolder.imp_right Or.inl
  · split at h
    · rename_i hfile
      exact Or.inr (Or.inr (isSome_content?_iff.mp hfile))
    · exact absurd rfl h

/-! ## Walks -/

theorem walk_append {a b : List String} {l' : Location} (h : d.walk l a = .ok (.folder l')) :
    d.walk l (a ++ b) = d.walk l' b := by
  fun_induction d.walk l a with
  | case1 l =>
    obtain rfl := Spot.folder.inj (Except.ok.inj h)
    rfl
  | case2 l ns ih =>
    rw [List.cons_append, walk]
    exact ih h
  | case3 l n hn ns l'' hspot ih =>
    rw [List.cons_append, walk.eq_3 d l n _ l'' hn hspot]
    exact ih h
  | case4 l n hn hspot => exact absurd (Except.ok.inj h) (hspot _)
  | case5 => cases h
  | case6 => cases h

/-- Names that are walked through up to the last are those of folders. -/
theorem walk_of_append {a b : List String} {s : Spot} (hb : b ≠ []) (h : d.walk l (a ++ b) = .ok s) :
    d.walk l a = .ok (.folder (place l a)) := by
  induction a generalizing l with
  | nil => rfl
  | cons n a ih =>
    rw [List.cons_append] at h
    by_cases hn : n = ".."
    · subst hn
      rw [walk] at h ⊢
      rw [place, if_pos rfl]
      exact ih h
    · rw [place, if_neg hn]
      -- behind a file or behind nothing the walk could not go on
      cases hspot : d.spot (l ++ [n]) with
      | folder l' =>
        obtain rfl := eq_of_spot_folder hspot
        rw [walk.eq_3 d l n _ _ hn hspot] at h ⊢
        exact ih h
      | file l' =>
        obtain ⟨m, ms, hms⟩ := List.exists_cons_of_ne_nil (List.append_ne_nil_of_right_ne_nil a hb)
        rw [hms, walk.eq_5 d l n m ms hn l' hspot] at h
        cases h
      | vacant l' =>
        obtain ⟨m, ms, hms⟩ := List.exists_cons_of_ne_nil (List.append_ne_nil_of_right_ne_nil a hb)
        rw [hms, walk.eq_6 d l n m ms hn l' hspot] at h
        cases h

namespace IsTree

theorem spot_of_mem (h : d.IsTree) (hl : l ∈ d.files.map Prod.fst) : d.spot l = .file l := by
  obtain ⟨f, hf, rfl⟩ := List.mem_map.mp hl
  exact h.file f hf

theorem names_of_mem (h : d.IsTree) (hl : l ∈ d.files.map Prod.fst) : ∀ n ∈ l, IsFileName n :=
  h.names l (List.mem_append_right _ hl)

/-- Above everything that is there are folders. -/
theorem spot_above (h : d.IsTree) (hns : ns ≠ []) (hspot : d.spot (l ++ ns) ≠ .vacant (l ++ ns)) :
    d.spot l = .folder l := by
  induction ns using List.reverseRecOn with
  | nil => exact absurd rfl hns
  | append_singleton ns n ih =>
    have hentry := (mem_entries_of_spot hspot).resolve_left (by simp)
    have habove := h.above _ hentry
    rw [← List.append_assoc, List.dropLast_concat] at habove
    cases ns with
    | nil => rwa [List.append_nil] at habove
    | cons m ms => exact ih (List.cons_ne_nil m ms) (habove.trans_ne nofun)

/-- Below nothing is nothing. -/
theorem vacant_below (h : d.IsTree) (hspot : d.spot l = .vacant l) (ns : List String) :
    d.spot (l ++ ns) = .vacant (l ++ ns) := by
  by_contra hne
  cases ns with
  | nil =>
    rw [List.append_nil] at hne
    exact hne hspot
  | cons n ns => exact nomatch hspot.symm.trans (h.spot_above (List.cons_ne_nil n ns) hne)

theorem spot_dropLast (h : d.IsTree) (hspot : d.spot l ≠ .vacant l) :
    d.spot l.dropLast = .folder l.dropLast := by
  rcases mem_entries_of_spot hspot with rfl | hentry
  · exact spot_eq_folder_iff.mpr (Or.inl rfl)
  · exact h.above l hentry

/-- Walks from a folder that end at a folder end at one that is there. -/
theorem spot_walk (h : d.IsTree) {l' : Location} (hl : d.spot l = .folder l)
    (hwalk : d.walk l ns = .ok (.folder l')) : d.spot l' = .folder l' := by
  fun_induction d.walk l ns with
  | case1 l =>
    obtain rfl := Spot.folder.inj (Except.ok.inj hwalk)
    exact hl
  | case2 l ns ih => exact ih (h.spot_dropLast (by simp [hl])) hwalk
  | case3 l n hn ns l'' hspot ih =>
    obtain rfl := eq_of_spot_folder hspot
    exact ih hspot hwalk
  | case4 l n hn hspot => exact absurd (Except.ok.inj hwalk) (hspot _)
  | case5 => cases hwalk
  | case6 => cases hwalk

theorem spot_start (h : d.IsTree) (p : Path) : d.spot (d.start p) = .folder (d.start p) := by
  rw [start]
  split
  · exact spot_eq_folder_iff.mpr (Or.inl rfl)
  · exact h.current

/-- The names of a file lead to it from every folder above. -/
theorem walk_file (h : d.IsTree) (hns : ns ≠ []) (hfile : l ++ ns ∈ d.files.map Prod.fst) :
    d.walk l ns = .ok (.file (l ++ ns)) := by
  have hspot := h.spot_of_mem hfile
  have hnames := h.names_of_mem hfile
  induction ns generalizing l with
  | nil => exact absurd rfl hns
  | cons n ns ih =>
    have hn : n ≠ ".." := (hnames n (by simp)).notUp
    cases ns with
    | nil => rw [walk_last hn, hspot]
    | cons m ms =>
      rw [List.append_cons] at hfile hspot hnames
      -- above a file there are folders
      have hfolder : d.spot (l ++ [n]) = .folder (l ++ [n]) :=
        h.spot_above (List.cons_ne_nil m ms) (hspot.trans_ne nofun)
      rw [walk.eq_3 d l n _ _ hn hfolder, ih (List.cons_ne_nil m ms) hfile hspot hnames,
        ← List.append_cons]

end IsTree

end Disk

/-! ## Paths of files -/

namespace Path

variable {p : Path} {n : String}

/-- A joined path ends in the pieces of the path behind it. -/
theorem exists_pieces_join {q : Path} (hq : q.isAbsolute = false) :
    ∃ before, (p.join q).pieces = before ++ q.pieces := by
  simp only [pieces, join_of_relative hq]
  split
  · rename_i hend
    rw [Bool.or_eq_true] at hend
    rcases hend with hempty | hslash
    · rw [String.isEmpty_iff] at hempty
      rw [hempty, String.toList_empty, List.nil_append]
      exact ⟨[], rfl⟩
    · obtain ⟨cs, hcs⟩ := List.getLast?_eq_some_iff.mp (eq_of_beq hslash)
      rw [hcs, List.append_assoc, List.singleton_append, Text.pieces_append, List.map_append]
      exact ⟨_, rfl⟩
  · rw [Text.pieces_append, List.map_append]
    exact ⟨_, rfl⟩

/-- The last piece of a joined path is that of the name behind it. -/
theorem getLast?_pieces_join (h : IsFileName n) : (p.join ⟨n⟩).pieces.getLast? = some n := by
  obtain ⟨before, hbefore⟩ := exists_pieces_join (p := p) (isAbsolute_of_noSlash h.noSlash)
  have hpieces : (⟨n⟩ : Path).pieces = [n] := by
    rw [pieces, Text.pieces_of_notMem h.noSlash]
    simp
  rw [hbefore, hpieces, List.getLast?_concat]

theorem wantsFolder_join (h : IsFileName n) : (p.join ⟨n⟩).wantsFolder = false := by
  rw [wantsFolder, getLast?_pieces_join h]
  simp only [h.isName, Bool.not_true]

theorem isEmpty_join (h : IsFileName n) : (p.join ⟨n⟩).text.isEmpty = false := by
  have hlast := getLast?_pieces_join (p := p) h
  rw [Bool.eq_false_iff]
  intro hempty
  rw [pieces, String.isEmpty_iff.mp hempty] at hlast
  obtain rfl : "" = n := Option.some.inj hlast
  exact absurd h.isName (by decide)

end Path

namespace Disk

variable {d : Disk} {p : Path} {l : Location} {ns : List String}

/-- A path that leads to a folder leads to one that is there. -/
theorem IsTree.spot_locate (h : d.IsTree) (hp : d.locate p = .ok (.folder l)) :
    d.spot l = .folder l :=
  h.spot_walk (h.spot_start p) (locate_eq_ok_iff.mp hp).2.1

theorem start_below (h : ∀ n ∈ ns, IsFileName n) : d.start (p.below ns) = d.start p := by
  rw [start, start, Path.isAbsolute_below h]

/-- The names of a file, behind the path of a folder above it, lead to the file. -/
theorem IsTree.locate_below (h : d.IsTree) (hdir : d.locate p = .ok (.folder l)) (hns : ns ≠ [])
    (hfile : l ++ ns ∈ d.files.map Prod.fst) :
    d.locate (p.below ns) = .ok (.file (l ++ ns)) := by
  have hnames : ∀ n ∈ ns, IsFileName n := (List.forall_mem_append.mp (h.names_of_mem hfile)).2
  have hwalk : d.walk (d.start (p.below ns)) (p.below ns).names = .ok (.file (l ++ ns)) := by
    rw [start_below hnames, Path.names_below hnames,
      walk_append (locate_eq_ok_iff.mp hdir).2.1, h.walk_file hns hfile]
  obtain ⟨init, last, rfl⟩ := (List.eq_nil_or_concat' ns).resolve_left hns
  have hlast : IsFileName last := hnames last (by simp)
  rw [Path.below_concat] at hwalk ⊢
  exact locate_eq_ok_iff.mpr
    ⟨Path.isEmpty_join hlast, hwalk, fun _ _ => Path.wantsFolder_join hlast⟩

theorem folder?_eq_some_iff : d.folder? p = some l ↔ d.locate p = .ok (.folder l) := by
  rw [folder?]
  rcases d.locate p with e | s
  · simp
  · cases s <;> simp

/-- What stands below a path stands in a folder. -/
theorem locate_of_join {n : String} {s : Spot} (hn : IsFileName n) (hempty : p.text.isEmpty = false)
    (h : d.locate (p.join ⟨n⟩) = .ok s) : d.locate p = .ok (.folder (d.target p)) := by
  have hrelative := Path.isAbsolute_of_noSlash hn.noSlash
  have hwalk := (locate_eq_ok_iff.mp h).2.1
  rw [start, Path.isAbsolute_join hrelative, Path.names_join hrelative, Path.names_fileName hn] at hwalk
  exact locate_eq_ok_iff.mpr
    ⟨hempty, walk_of_append (List.cons_ne_nil n []) hwalk, fun _ hs => Spot.noConfusion hs⟩

end Disk

end DesignCompiler
