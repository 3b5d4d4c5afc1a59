import DesignCompiler.Proofs.Files.Making
import DesignCompiler.Proofs.Files.Steadiness

/-!
# DesignCompiler — filling a fresh folder

Files are written to places below a folder that is new or empty, and folders are made for them. A file
is in the way of another one only if its place is above the other's; if no place is above another, each
file finds its folder, and nothing is where it goes but an earlier text of its own.

* `Location.Above` — a location that properly begins another;
* `Disk.Fresh` — a path at which a folder is empty, or can be made;
* `Disk.Fills` — what filling some places has done so far;
* `Fills.makeFolders`, `Fills.saveText` — the two steps, which succeed and go on filling.
-/

namespace DesignCompiler

open Disk

/-! ## Locations above others -/

/-- The names of one location begin those of another, which has more. -/
def Location.Above (a b : Location) : Prop :=
  ∃ ns : List String, ns ≠ [] ∧ b = a ++ ns

namespace Location

theorem above_append_iff {l a b : Location} : Above (l ++ a) (l ++ b) ↔ Above a b := by
  simp only [Above, List.append_assoc, List.append_cancel_left_eq]

theorem above_concat_iff {a b : Location} {n : String} : Above a (b ++ [n]) ↔ a <+: b := by
  constructor
  · rintro ⟨ns, hns, hb⟩
    obtain ⟨init, last, rfl⟩ := (List.eq_nil_or_concat' ns).resolve_left hns
    rw [← List.append_assoc] at hb
    exact ⟨init, (List.append_inj' hb rfl).1.symm⟩
  · rintro ⟨ms, rfl⟩
    exact ⟨ms ++ [n], by simp, by rw [List.append_assoc]⟩

end Location

open Location (Above)

namespace Disk

variable {d e e' : Disk} {p : Path} {l : Location} {ns : List String}

/-! ## Fresh folders -/

/-- A path at which a folder is there with nothing in it, or nothing is and a folder can be made. -/
structure Fresh (d : Disk) (p : Path) : Prop where
  /-- No dots lead back out of folders that are not there. -/
  steady : d.Steady p
  there : d.locate p = .ok (.folder (d.target p)) ∨
    d.Lacks (d.start p) p.names ∧ p.endsInDot = false
  empty : ∀ ns, ns ≠ [] → d.spot (d.target p ++ ns) = .vacant (d.target p ++ ns)

theorem eq_of_spot_vacant {l' : Location} (h : d.spot l = .vacant l') : l' = l := by
  have hlocation := spot_location d l
  rwa [h] at hlocation

/-- Steady names that lead to nothing lead to a folder first, and from there down. -/
theorem SteadyFrom.exists_way (hsteady : d.SteadyFrom l ns) (h : d.Lacks l ns) :
    ∃ up n down l', ns = up ++ n :: down ∧ d.walk l up = .ok (.folder l') ∧ ".." ∉ n :: down ∧
      d.spot (l' ++ [n]) = .vacant (l' ++ [n]) := by
  rw [Lacks] at h
  -- along the walk: names that are passed belong to the way up, and the walk stops at the first one
  -- that is not there
  fun_induction d.walk l ns with
  | case1 l =>
    rcases h with ⟨l', hvacant⟩ | hnone
    · cases Except.ok.inj hvacant
    · cases hnone
  | case2 l ns ih =>
    obtain ⟨up, n, down, l', rfl, hup, hdown, hspot⟩ :=
      ih (hsteady.tail fun ms => by rw [walk]) h
    exact ⟨".." :: up, n, down, l', rfl, by rw [walk, hup], hdown, hspot⟩
  | case3 l n hn ns l' hspot ih =>
    obtain ⟨up, m, down, l'', rfl, hup, hdown, hspot'⟩ :=
      ih (hsteady.tail fun ms => walk.eq_3 d l n ms _ hn hspot) h
    exact ⟨n :: up, m, down, l'', rfl, (walk.eq_3 d l n up _ hn hspot).trans hup, hdown, hspot'⟩
  | case4 l n hn hspot =>
    obtain ⟨l', hvacant⟩ : ∃ l', d.spot (l ++ [n]) = .vacant l' := by
      rcases h with ⟨l', hvacant⟩ | hnone
      · exact ⟨l', Except.ok.inj hvacant⟩
      · cases hnone
    refine ⟨[], n, [], l, rfl, rfl, by simpa using Ne.symm hn, ?_⟩
    rw [hvacant, ← eq_of_spot_vacant hvacant]
  | case5 => rcases h with ⟨l', hvacant⟩ | hnone <;> contradiction
  | case6 l n hn m ms l' hspot =>
    obtain rfl := eq_of_spot_vacant hspot
    refine ⟨[], n, m :: ms, l, rfl, rfl, ?_, hspot⟩
    rw [List.mem_cons, not_or]
    exact ⟨Ne.symm hn, hsteady.notMem hn hspot⟩

/-- The way to a fresh folder: up to a folder that is there, and down to nothing. -/
theorem Fresh.exists_way (h : d.Fresh p) (htree : d.IsTree) :
    ∃ up down l, d.Leads p up down l ∧ d.target p = l ++ down ∧
      ∀ ms, ms <+: down → ms ≠ [] → d.spot (l ++ ms) = .vacant (l ++ ms) := by
  rcases h.there with hfolder | ⟨hlacks, hdot⟩
  · -- the folder is there already, so there is no way down
    have hspot := htree.spot_locate hfolder
    refine ⟨p.names, [], d.target p, ?_, (List.append_nil _).symm, ?_⟩
    · refine ⟨(List.append_nil _).symm, (locate_eq_ok_iff.mp hfolder).2.1, by simp, ?_, ?_⟩
      · intro ms hms
        rw [List.prefix_nil.mp hms, List.append_nil, hspot]
        exact nofun
      · rw [List.append_nil]
        exact Or.inl hspot
    · exact fun ms hms hne => absurd (List.prefix_nil.mp hms) hne
  · obtain ⟨up, n, down, l, hnames, hup, hdown, hspot⟩ := h.steady.exists_way hlacks
    have hl := htree.spot_walk (htree.spot_start p) hup
    have hvacant : ∀ ms, ms <+: n :: down → ms ≠ [] → d.spot (l ++ ms) = .vacant (l ++ ms) := by
      rintro ms hms hne
      obtain ⟨m, ms, rfl⟩ := List.exists_cons_of_ne_nil hne
      obtain ⟨rfl, -⟩ := List.cons_prefix_cons.mp hms
      rw [List.append_cons]
      exact htree.vacant_below hspot ms
    refine ⟨up, n :: down, l, ⟨hnames, hup, hdown, ?_, Or.inr hdot⟩, ?_, hvacant⟩
    · intro ms hms
      by_cases hne : ms = []
      · rw [hne, List.append_nil, hl]
        exact nofun
      · rw [hvacant ms hms hne]
        exact nofun
    · rw [target, hnames, place_append, place_of_notMem hdown]
      exact congrArg (· ++ n :: down) (walk_place hup).symm

/-- Nothing, in a folder that is there, is fresh. -/
theorem IsTree.fresh (h : d.IsTree) (hup : ".." ∉ p.names) (hdot : p.endsInDot = false)
    (hwalk : d.walk (d.start p) p.names = .ok (.vacant l)) : d.Fresh p := by
  have hplace : l = d.target p := walk_place hwalk
  have hspot : d.spot l = .vacant l := (walk_spot hwalk).resolve_left nofun
  rw [hplace] at hspot
  exact ⟨steady_of_notMem hup, Or.inr ⟨Or.inl ⟨l, hwalk⟩, hdot⟩, fun ns _ => h.vacant_below hspot ns⟩

/-! ## Filling -/

/-- `e` comes from `d` by putting files at some places, and folders above them. -/
structure Fills (d : Disk) (places : List Location) (e : Disk) : Prop where
  tree : e.IsTree
  current : e.current = d.current
  spot : ∀ x, e.spot x = d.spot x ∨ x ∈ places ∧ e.spot x = .file x ∨
    (∃ y ∈ places, Above x y) ∧ e.spot x = .folder x

theorem Fills.refl (h : d.IsTree) (places : List Location) : d.Fills places d :=
  ⟨h, rfl, fun _ => Or.inl rfl⟩

theorem Fills.opens {places : List Location} (h : d.Fills places e) (ho : e.Opens l e')
    (hl : ∃ y ∈ places, Above l y) : d.Fills places e' where
  tree := ho.tree
  current := ho.current.trans h.current
  spot x := by
    rcases ho.spot x with heq | ⟨⟨ms, rfl⟩, hfolder⟩
    · rw [heq]
      exact h.spot x
    · -- what is above a folder on the way is above the place as well
      obtain ⟨y, hy, ns, hns, rfl⟩ := hl
      refine Or.inr (Or.inr ⟨⟨_, hy, ms ++ ns, ?_, ?_⟩, hfolder⟩)
      · exact List.append_ne_nil_of_right_ne_nil ms hns
      · rw [List.append_assoc]

theorem Fills.putFile {places : List Location} (h : d.Fills places e) (hl : l ∈ places)
    (hfree : e.spot l ≠ .folder l) (hnames : ∀ n ∈ l, IsFileName n)
    (hparent : e.spot l.dropLast = .folder l.dropLast) (bytes : ByteArray) :
    d.Fills places (e.putFile l bytes) where
  tree := h.tree.putFile hfree hnames hparent
  current := (putFile_extends hfree).current.trans h.current
  spot x := by
    rw [spot_putFile e hfree]
    by_cases hx : x = l
    · rw [if_pos hx, hx]
      exact Or.inr (Or.inl ⟨hl, rfl⟩)
    · rw [if_neg hx]
      exact h.spot x

/-- A file is written where there is none or nothing. -/
theorem writeFile_of_walk (bytes : ByteArray) (hempty : p.text.isEmpty = false)
    (hwants : p.wantsFolder = false) (hwalk : d.walk (d.start p) p.names = .ok (d.spot l))
    (hfree : d.spot l ≠ .folder l) : d.writeFile p bytes = .ok (d.putFile l bytes) := by
  have hlocate : d.locate p = .ok (d.spot l) :=
    locate_eq_ok_iff.mpr ⟨hempty, hwalk, fun _ _ => hwants⟩
  have hlocation := spot_location d l
  rw [writeFile, hlocate]
  -- a file is replaced, and a vacant place is filled
  cases hs : d.spot l with
  | folder x =>
    obtain rfl := eq_of_spot_folder hs
    exact absurd hs hfree
  | file x =>
    rw [hs] at hlocation
    obtain rfl : x = l := hlocation
    rfl
  | vacant x =>
    obtain rfl := eq_of_spot_vacant hs
    simp only [bind, Except.bind, hwants, Bool.false_eq_true, if_false]
    rfl

/-- Places below a fresh folder, none of them above another. -/
structure Uncrossed (rel : List (List String)) : Prop where
  names : ∀ a ∈ rel, a ≠ [] ∧ ∀ n ∈ a, IsFileName n
  apart : ∀ a ∈ rel, ∀ b ∈ rel, ¬ Above a b

section Steps

variable {rel : List (List String)} (htree : d.IsTree) (hfresh : d.Fresh p)
  (hrel : Uncrossed rel)

include hrel

/-- No file is in the place of a folder that a place stands in. -/
theorem Fills.spot_ne_file (h : d.Fills (rel.map (d.target p ++ ·)) e) {x : Location}
    {b : List String} (hb : b ∈ rel) (hx : Above x (d.target p ++ b)) (hnone : d.spot x ≠ .file x) :
    e.spot x ≠ .file x := by
  rcases h.spot x with heq | ⟨hplace, -⟩ | ⟨-, hfolder⟩
  · rwa [heq]
  · obtain ⟨a, ha, rfl⟩ := List.mem_map.mp hplace
    exact absurd (Location.above_append_iff.mp hx) (hrel.apart a ha b hb)
  · simp [hfolder]

include hfresh

theorem Fills.folder (h : d.Fills (rel.map (d.target p ++ ·)) e) {x : Location}
    (hx : d.spot x = .folder x) : e.spot x = .folder x := by
  rcases h.spot x with heq | ⟨hplace, -⟩ | ⟨-, hfolder⟩
  · exact heq.trans hx
  · -- nothing was at the places
    obtain ⟨a, ha, rfl⟩ := List.mem_map.mp hplace
    exact nomatch (hfresh.empty a (hrel.names a ha).1).symm.trans hx
  · exact hfolder

/-- No folder is at a place. -/
theorem Fills.spot_ne_folder (h : d.Fills (rel.map (d.target p ++ ·)) e) {b : List String}
    (hb : b ∈ rel) : e.spot (d.target p ++ b) ≠ .folder (d.target p ++ b) := by
  rcases h.spot (d.target p ++ b) with heq | ⟨-, hfile⟩ | ⟨⟨y, hy, habove⟩, -⟩
  · simp [heq, hfresh.empty b (hrel.names b hb).1]
  · simp [hfile]
  · obtain ⟨a, ha, rfl⟩ := List.mem_map.mp hy
    exact absurd (Location.above_append_iff.mp habove) (hrel.apart b hb a ha)

variable {q : Path} {ms : List String} {n : String}

include htree

/-- The path of a folder with a place in it has no file in its way. -/
theorem Fills.leads (h : d.Fills (rel.map (d.target p ++ ·)) e)
    (hstart : q.isAbsolute = p.isAbsolute) (hnames : q.names = p.names ++ ms)
    (hplace : ms ++ [n] ∈ rel)
    (hdot : e.spot (d.target p ++ ms) = .folder (d.target p ++ ms) ∨ q.endsInDot = false) :
    ∃ up down l, e.Leads q up (down ++ ms) l ∧ d.target p = l ++ down := by
  obtain ⟨up, down, l, hleads, htarget, hvacant⟩ := hfresh.exists_way htree
  refine ⟨up, down, l, ⟨by rw [hnames, hleads.names, List.append_assoc], ?_, ?_, ?_, ?_⟩, htarget⟩
  · rw [start, h.current, hstart]
    exact walk_again (fun _ => h.folder hfresh hrel) hleads.upward
  · rw [List.mem_append, not_or]
    refine ⟨hleads.notUp, fun hup => ?_⟩
    exact ((hrel.names _ hplace).2 ".." (List.mem_append_left _ hup)).notUp rfl
  · rintro ws ⟨rest, hws⟩
    refine h.spot_ne_file hrel hplace ⟨rest ++ [n], by simp, ?_⟩ ?_
    · rw [htarget, List.append_assoc, ← List.append_assoc down, ← hws]
      simp
    · -- on the way to the fresh folder there is no file, and nothing is below it
      rcases List.append_eq_append_iff.mp hws with ⟨ws', rfl, -⟩ | ⟨ws', rfl, -⟩
      · exact hleads.free ws (List.prefix_append ws ws')
      · rw [← List.append_assoc, ← htarget]
        by_cases hne : ws' = []
        · rw [hne, List.append_nil, htarget]
          exact hleads.free down (List.prefix_refl down)
        · simp [hfresh.empty ws' hne]
  · rwa [← List.append_assoc, ← htarget]

/-- Making the folder of a place succeeds. -/
theorem Fills.makeFolders (h : d.Fills (rel.map (d.target p ++ ·)) e)
    (hstart : q.isAbsolute = p.isAbsolute) (hnames : q.names = p.names ++ ms)
    (hplace : ms ++ [n] ∈ rel)
    (hdot : d.spot (d.target p ++ ms) = .folder (d.target p ++ ms) ∨ q.endsInDot = false) :
    ∃ e', (Disk.makeFolders q).run.run e = (.ok (), e') ∧
      d.Fills (rel.map (d.target p ++ ·)) e' ∧
      e'.spot (d.target p ++ ms) = .folder (d.target p ++ ms) := by
  obtain ⟨up, down, l, hleads, htarget⟩ := h.leads htree hfresh hrel hstart hnames hplace
    (hdot.imp_left (h.folder hfresh hrel))
  obtain ⟨e', hrun, hopens⟩ := makeFolders_opens h.tree hleads
  rw [← List.append_assoc, ← htarget] at hopens
  refine ⟨e', hrun, h.opens hopens ⟨_, List.mem_map_of_mem hplace, [n], by simp, ?_⟩, hopens.there⟩
  rw [List.append_assoc]

/-- Writing a text to its place succeeds. -/
theorem Fills.saveText (h : d.Fills (rel.map (d.target p ++ ·)) e)
    (hstart : q.isAbsolute = p.isAbsolute) (hnames : q.names = p.names ++ ms)
    (hplace : ms ++ [n] ∈ rel)
    (hfolder : e.spot (d.target p ++ ms) = .folder (d.target p ++ ms)) (text : String) :
    ∃ e', (Disk.saveText (q.join ⟨n⟩) text).run.run e = (.ok (), e') ∧
      d.Fills (rel.map (d.target p ++ ·)) e' ∧
      e'.spot (d.target p ++ ms) = .folder (d.target p ++ ms) := by
  obtain ⟨up, down, l, hleads, htarget⟩ :=
    h.leads htree hfresh hrel hstart hnames hplace (Or.inl hfolder)
  have hnames' := (hrel.names _ hplace).2
  have hn : IsFileName n := hnames' n (by simp)
  have hrelative := Path.isAbsolute_of_noSlash hn.noSlash
  have hfree := h.spot_ne_folder hfresh hrel hplace
  have hl : e.spot l = .folder l := h.tree.spot_walk (h.tree.spot_start q) hleads.upward
  -- the walk to the folder ends there, and one more name leads to the place
  have hwalk : e.walk (e.start (q.join ⟨n⟩)) (q.join ⟨n⟩).names =
      .ok (e.spot (d.target p ++ (ms ++ [n]))) := by
    rw [htarget, List.append_assoc] at hfolder
    rcases h.tree.walk_down hl hleads.notUp hleads.free with ⟨-, hwalk⟩ | ⟨hvacant, -⟩
    · have hstart' : e.start (q.join ⟨n⟩) = e.start q := by
        rw [start, start, Path.isAbsolute_join hrelative]
      rw [hstart', Path.names_join hrelative, Path.names_fileName hn,
        walk_append (hleads.walk.trans hwalk), walk_last hn.notUp, htarget]
      simp
    · cases hvacant.symm.trans hfolder
  have hwrite := writeFile_of_walk text.toUTF8 (Path.isEmpty_join hn) (Path.wantsFolder_join hn)
    hwalk hfree
  refine ⟨e.putFile (d.target p ++ (ms ++ [n])) text.toUTF8, ?_, ?_, ?_⟩
  · rw [Disk.saveText, change, run_bind, run_get]
    simp only [hwrite]
    rfl
  · refine h.putFile (List.mem_map_of_mem hplace) hfree ?_ ?_ _
    · exact List.forall_mem_append.mpr ⟨htree.target_names p, hnames'⟩
    · rwa [← List.append_assoc, List.dropLast_concat]
  · rw [spot_putFile e hfree, if_neg (by simp), hfolder]

end Steps

end Disk

end DesignCompiler
