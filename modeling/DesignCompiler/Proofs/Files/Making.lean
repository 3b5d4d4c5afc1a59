import DesignCompiler.Proofs.Files.Growth
import Mathlib.Data.List.DropRight

/-!
# DesignCompiler — making folders

A folder is made after the folders above it. The path above a path has its names but for the last one,
so going up leads from nothing to a folder that is there, and coming back down each folder can be made.
This fails only where a file is in the way.

* `Path.exists_parent?` — the path above a path has all its names but the last;
* `IsTree.walk_down` — where a walk down from a folder ends if no file is in its way;
* `Disk.Leads`, `Disk.Opens` — a path without files in its way, and the folders that are made for it;
* `makeFolders_opens` — at the end of such a path a folder can be made, with those above it.
-/

namespace DesignCompiler

/-! ## The path above -/

namespace Path

variable {p : Path}

theorem noSlash_of_mem_pieces {s : String} (h : s ∈ p.pieces) : '/' ∉ s.toList := by
  obtain ⟨cs, hcs, rfl⟩ := List.mem_map.mp h
  rw [String.toList_ofList]
  exact Text.mem_pieces hcs

theorem pieces_ne_nil (p : Path) : p.pieces ≠ [] := by
  rw [pieces, ne_eq, List.map_eq_nil_iff]
  exact Text.pieces_ne_nil _ _

/-- An absolute path has nothing before its first slash. -/
theorem isAbsolute_iff {first : String} {rest : List String} (h : p.pieces = first :: rest) :
    p.isAbsolute = true ↔ first = "" ∧ rest ≠ [] := by
  rw [pieces] at h
  rw [isAbsolute]
  cases hp : p.text.toList with
  | nil =>
    rw [hp] at h
    obtain ⟨rfl, rfl⟩ := List.cons.inj h
    simp
  | cons c cs =>
    rw [hp, Text.pieces] at h
    by_cases hc : c = '/'
    · rw [if_pos hc, List.map_cons] at h
      obtain ⟨rfl, rfl⟩ := List.cons.inj h
      simpa [hc] using Text.pieces_ne_nil '/' cs
    · -- the first piece begins with the first character
      rw [if_neg hc] at h
      have hfirst : first ≠ "" := by
        rintro rfl
        split at h <;>
          exact absurd (congrArg String.toList (List.cons.inj h).1) (by simp)
      simp [hc, hfirst]

/-- Pieces without slashes are the pieces of the path that is put together from them. -/
theorem pieces_of_intercalate {ps : List String} (hne : ps ≠ []) (h : ∀ s ∈ ps, '/' ∉ s.toList) :
    (⟨"/".intercalate ps⟩ : Path).pieces = ps := by
  have hsplit : Text.pieces '/' ("/".intercalate ps).toList = ps.map String.toList := by
    rw [String.toList_intercalate]
    refine Text.pieces_intercalate (by simpa using hne) fun cs hcs => ?_
    obtain ⟨s, hs, rfl⟩ := List.mem_map.mp hcs
    exact h s hs
  rw [pieces, hsplit]
  simp [Function.comp_def]

theorem pieces_ofPieces {ps : List String} (hne : ps ≠ []) (hroot : ps ≠ [""])
    (h : ∀ s ∈ ps, '/' ∉ s.toList) : (ofPieces ps).pieces = ps := by
  rw [ofPieces, if_neg hroot, pieces_of_intercalate hne h]

/-- A path that is put together from pieces has their names, and is absolute if nothing is the first
of them. -/
theorem ofPieces_spec {ps : List String} (h : ∀ s ∈ ps, '/' ∉ s.toList) :
    (ofPieces ps).names = ps.filter isName ∧
      ((ofPieces ps).isAbsolute = true ↔ ps.head? = some "") := by
  cases ps with
  | nil => exact ⟨by decide, by decide⟩
  | cons first rest =>
    by_cases hroot : first :: rest = [""]
    · rw [hroot]
      exact ⟨by decide, by decide⟩
    · have hpieces := pieces_ofPieces (List.cons_ne_nil first rest) hroot h
      refine ⟨by rw [names, hpieces], ?_⟩
      rw [isAbsolute_iff hpieces, List.head?_cons, Option.some.injEq]
      exact ⟨And.left, fun hfirst => ⟨hfirst, fun hrest => hroot (by rw [hfirst, hrest])⟩⟩

theorem filter_dropEndWhile (l : List String) :
    (Text.dropEndWhile (!isName ·) l).filter isName = l.filter isName := by
  have hdrop : ∀ l : List String, Text.dropEndWhile (!isName ·) l = l.rdropWhile (!isName ·) :=
    fun _ => rfl
  rw [hdrop]
  induction l using List.reverseRecOn with
  | nil => rfl
  | append_singleton l n ih =>
    rw [List.rdropWhile_concat]
    cases hn : isName n with
    | true => simp
    | false => simp [ih, hn]

/-- The pieces that are left end in a name, or there is only the first. -/
theorem dropIdle_cons (first : String) (rest : List String) :
    dropIdle (first :: rest) = [first] ∨ ∃ init n, isName n = true ∧
      dropIdle (first :: rest) = first :: (init ++ [n]) := by
  have hlast : ∀ h, ¬ (!isName ((Text.dropEndWhile (!isName ·) rest).getLast h)) = true :=
    List.rdropWhile_last_not (!isName ·) rest
  rw [dropIdle]
  rcases List.eq_nil_or_concat' (Text.dropEndWhile (!isName ·) rest) with hnil | ⟨init, n, hinit⟩
  · rw [hnil]
    exact Or.inl rfl
  · right
    refine ⟨init, n, ?_, by rw [hinit]⟩
    simp only [hinit] at hlast
    simpa using hlast

theorem endsInDot_eq_false {n : String} (hn : isName n = true) (h : p.pieces.getLast? = some n) :
    p.endsInDot = false := by
  rw [isName, Bool.and_eq_true, bne_iff_ne, bne_iff_ne] at hn
  obtain ⟨init, hinit⟩ := List.getLast?_eq_some_iff.mp h
  have hkeep : Text.dropEndWhile String.isEmpty p.pieces = p.pieces := by
    rw [hinit, Text.dropEndWhile, List.reverse_append, List.reverse_singleton,
      List.singleton_append, List.dropWhile_cons_of_neg (by simpa using hn.1)]
    simp
  rw [endsInDot, hkeep, h]
  simpa using hn.2

theorem filter_dropIdle (ps : List String) : (dropIdle ps).filter isName = ps.filter isName := by
  cases ps with
  | nil => rfl
  | cons first rest => rw [dropIdle, List.filter_cons, List.filter_cons, filter_dropEndWhile]

/-- The last piece that is left is the last name, if there is one. -/
theorem filter_dropLast_dropIdle (ps : List String) :
    (dropIdle ps).dropLast.filter isName = (ps.filter isName).dropLast := by
  rw [← filter_dropIdle ps]
  cases ps with
  | nil => rfl
  | cons first rest =>
    rcases dropIdle_cons first rest with hidle | ⟨init, n, hn, hidle⟩
    · rw [hidle]
      cases hfirst : isName first <;> simp [hfirst]
    · rw [hidle, ← List.cons_append, List.dropLast_concat, List.filter_append]
      simp [hn]

theorem mem_of_mem_dropIdle {ps : List String} {s : String} (h : s ∈ dropIdle ps) : s ∈ ps := by
  cases ps with
  | nil => exact h
  | cons first rest =>
    rw [dropIdle, List.mem_cons] at h
    exact List.mem_cons.mpr (h.imp_right (List.rdropWhile_prefix (!isName ·) rest).mem)

/-- A path that is put together from pieces without idle ones at the end does not end in a dot. -/
theorem endsInDot_ofPieces_dropIdle {ps : List String} (h : ∀ s ∈ ps, '/' ∉ s.toList)
    (hne : ps.filter isName ≠ []) : (ofPieces (dropIdle ps)).endsInDot = false := by
  have hslash : ∀ s ∈ dropIdle ps, '/' ∉ s.toList := fun s hs => h s (mem_of_mem_dropIdle hs)
  rw [← filter_dropIdle] at hne
  obtain ⟨n, hn, hlast⟩ : ∃ n, isName n = true ∧ (dropIdle ps).getLast? = some n := by
    cases ps with
    | nil => exact absurd rfl hne
    | cons first rest =>
      rcases dropIdle_cons first rest with hidle | ⟨init, n, hn, hidle⟩
      · refine ⟨first, ?_, by rw [hidle]; rfl⟩
        rw [hidle] at hne
        simpa using hne
      · exact ⟨n, hn, by rw [hidle, ← List.cons_append, List.getLast?_concat]⟩
  refine endsInDot_eq_false hn ?_
  rw [pieces_ofPieces ?_ ?_ hslash, hlast]
  · rintro hnil
    rw [hnil] at hlast
    exact nomatch hlast
  · -- a single piece would be the name
    intro hroot
    rw [hroot] at hlast
    obtain rfl : "" = n := Option.some.inj hlast
    exact absurd hn (by decide)

/-- Nothing behind a path leaves it as it is, or puts a slash at its end. -/
theorem join_nothing (p : Path) : p.join ⟨""⟩ = p ∨ (p.join ⟨""⟩).pieces = p.pieces ++ [""] := by
  have htext := join_of_relative (p := p) (q := ⟨""⟩) (by decide)
  split at htext
  · left
    have hsame : (p.join ⟨""⟩).text.toList = p.text.toList := by
      rw [htext]
      simp
    exact congrArg Path.mk (String.toList_inj.mp hsame)
  · right
    rw [pieces, htext, Text.pieces_append, List.map_append]
    rfl

/-- Names behind a path make it end in a name, and without names it ends as before. -/
theorem endsInDot_join {ns : List String} (hns : ∀ n ∈ ns, IsFileName n)
    (h : ns = [] → p.endsInDot = false) : (p.join ⟨"/".intercalate ns⟩).endsInDot = false := by
  rcases List.eq_nil_or_concat' ns with rfl | ⟨init, n, rfl⟩
  · have hnone : "/".intercalate ([] : List String) = "" := by decide
    rw [hnone]
    rcases p.join_nothing with heq | heq
    · rw [heq]
      exact h rfl
    · -- nothing behind the last slash does not count
      rw [endsInDot, heq, Text.dropEndWhile, List.reverse_append, List.reverse_singleton,
        List.singleton_append, List.dropWhile_cons_of_pos (by decide)]
      exact h rfl
  · have hlast : IsFileName n := hns n (by simp)
    have hrelative := isAbsolute_intercalate hns
    obtain ⟨before, hbefore⟩ := exists_pieces_join (p := p) hrelative
    refine endsInDot_eq_false hlast.isName ?_
    rw [hbefore, pieces_of_intercalate (by simp) fun m hm => (hns m hm).noSlash,
      ← List.append_assoc, List.getLast?_concat]

/-- The path above a path has all its names but the last. It starts where the path starts, and it does
not end in a dot. -/
theorem exists_parent? (h : p.names ≠ []) : ∃ q, p.parent? = some q ∧
    q.names = p.names.dropLast ∧ q.isAbsolute = p.isAbsolute ∧
      (q.names ≠ [] → q.endsInDot = false) := by
  obtain ⟨first, rest, hpieces⟩ := List.exists_cons_of_ne_nil p.pieces_ne_nil
  have hnames : p.names = (dropIdle p.pieces).filter isName := (filter_dropIdle _).symm
  have hslash : ∀ s ∈ (dropIdle p.pieces).dropLast, '/' ∉ s.toList := fun s hs =>
    noSlash_of_mem_pieces (mem_of_mem_dropIdle (List.dropLast_subset _ hs))
  have habove : (ofPieces (dropIdle (dropIdle p.pieces).dropLast)).names =
      (dropIdle p.pieces).dropLast.filter isName := by
    rw [(ofPieces_spec fun s hs => hslash s (mem_of_mem_dropIdle hs)).1, filter_dropIdle]
  refine ⟨_, by rw [parent?, if_neg (by simpa using h)], ?_, ?_, fun hne =>
    endsInDot_ofPieces_dropIdle hslash (habove ▸ hne)⟩
  · rw [habove, filter_dropLast_dropIdle, names]
  · rw [Bool.eq_iff_iff, (ofPieces_spec fun s hs => hslash s (mem_of_mem_dropIdle hs)).2,
      isAbsolute_iff hpieces, hpieces]
    rw [hnames, hpieces] at h
    rcases dropIdle_cons first rest with hidle | ⟨init, n, hn, hidle⟩
    · -- the first piece is the only name, so the path is relative
      rw [hidle] at h ⊢
      have hfirst : first ≠ "" := by
        rintro rfl
        exact absurd h (by decide)
      simp [dropIdle, hfirst]
    · have hrest : rest ≠ [] := by
        rintro rfl
        simp [dropIdle] at hidle
      rw [hidle, ← List.cons_append, List.dropLast_concat]
      simp [dropIdle, hrest]

end Path

/-- A path has no more names than characters. -/
theorem Path.length_names_le (p : Path) : p.names.length ≤ p.text.length := by
  have hpieces : ∀ cs : List Char, (namesOf (Text.pieces '/' cs)).length ≤ cs.length := by
    intro cs
    fun_induction Text.pieces '/' cs with
    | case1 => simp [namesOf, isName]
    | case2 cs ih =>
      have hskip : namesOf ([] :: Text.pieces '/' cs) = namesOf (Text.pieces '/' cs) := by
        simp [namesOf, isName]
      rw [hskip, List.length_cons]
      omega
    | case3 c cs hc hnil ih =>
      exact (List.length_filter_le _ _).trans (by simp)
    | case4 c cs hc l ls hls ih =>
      -- one name more at most
      have hmore : (namesOf ((c :: l) :: ls)).length ≤ (namesOf ls).length + 1 := by
        rw [namesOf, List.map_cons, List.filter_cons]
        split <;> simp [namesOf]
      have hrest : (namesOf ls).length ≤ (namesOf (l :: ls)).length := by
        rw [namesOf, namesOf, List.map_cons, List.filter_cons]
        split <;> simp
      rw [hls] at ih
      rw [List.length_cons]
      omega
  rw [names_eq, ← String.length_toList]
  exact hpieces _

namespace Disk

variable {d d' : Disk} {p : Path} {l : Location} {ns : List String}

/-! ## Walking down -/

theorem walk_append_error {e : FileError} {a : List String} (h : d.walk l a = .error e)
    (b : List String) : d.walk l (a ++ b) = .error e := by
  fun_induction d.walk l a with
  | case1 => cases h
  | case2 l ns ih =>
    rw [List.cons_append, walk]
    exact ih h
  | case3 l n hn ns l' hspot ih =>
    rw [List.cons_append, walk.eq_3 d l n _ l' hn hspot]
    exact ih h
  | case4 => cases h
  | case5 l n hn m ms l' hspot => exact (walk.eq_5 d l n m (ms ++ b) hn l' hspot).trans h
  | case6 l n hn m ms l' hspot => exact (walk.eq_6 d l n m (ms ++ b) hn l' hspot).trans h

/-- Nothing is behind nothing. -/
theorem walk_append_vacant {l' : Location} {a b : List String} (h : d.walk l a = .ok (.vacant l'))
    (hb : b ≠ []) : d.walk l (a ++ b) = .error .notFound := by
  obtain ⟨m, ms, rfl⟩ := List.exists_cons_of_ne_nil hb
  fun_induction d.walk l a with
  | case1 => cases h
  | case2 l ns ih =>
    rw [List.cons_append, walk]
    exact ih h
  | case3 l n hn ns l'' hspot ih =>
    rw [List.cons_append, walk.eq_3 d l n _ l'' hn hspot]
    exact ih h
  | case4 l n hn hspot => exact walk.eq_6 d l n m ms hn l' (Except.ok.inj h)
  | case5 => cases h
  | case6 => cases h

/-- A walk down from a folder of a tree, with no file in its way, gets to a folder, to nothing in a
folder, or to nothing before its end. -/
theorem IsTree.walk_down (h : d.IsTree) (hl : d.spot l = .folder l) (hup : ".." ∉ ns)
    (hfree : ∀ ms, ms <+: ns → d.spot (l ++ ms) ≠ .file (l ++ ms)) :
    d.spot (l ++ ns) = .folder (l ++ ns) ∧ d.walk l ns = .ok (.folder (l ++ ns)) ∨
      d.spot (l ++ ns) = .vacant (l ++ ns) ∧ ns ≠ [] ∧
        (d.spot (l ++ ns.dropLast) = .folder (l ++ ns.dropLast) ∧
            d.walk l ns = .ok (.vacant (l ++ ns)) ∨
          d.spot (l ++ ns.dropLast) = .vacant (l ++ ns.dropLast) ∧
            d.walk l ns = .error .notFound) := by
  induction ns using List.reverseRecOn with
  | nil =>
    rw [List.append_nil]
    exact Or.inl ⟨hl, rfl⟩
  | append_singleton ns n ih =>
    rw [List.mem_append, not_or, List.mem_singleton] at hup
    have hlast := hfree (ns ++ [n]) (List.prefix_refl _)
    rw [List.dropLast_concat, ← List.append_assoc] at *
    rcases ih hup.1 fun ms hms => hfree ms (hms.trans (List.prefix_append ns [n])) with
      ⟨hspot, hwalk⟩ | ⟨hspot, -, hcases⟩
    · have hwalk' : d.walk l (ns ++ [n]) = .ok (d.spot (l ++ ns ++ [n])) := by
        rw [walk_append hwalk, walk_last (Ne.symm hup.2)]
      have hlocation := spot_location d (l ++ ns ++ [n])
      cases hs : d.spot (l ++ ns ++ [n]) with
      | folder x =>
        obtain rfl : x = l ++ ns ++ [n] := by rwa [hs] at hlocation
        exact Or.inl ⟨rfl, hwalk'.trans (by rw [hs])⟩
      | file x =>
        obtain rfl : x = l ++ ns ++ [n] := by rwa [hs] at hlocation
        exact absurd hs hlast
      | vacant x =>
        obtain rfl : x = l ++ ns ++ [n] := by rwa [hs] at hlocation
        exact Or.inr ⟨rfl, by simp, Or.inl ⟨hspot, hwalk'.trans (by rw [hs])⟩⟩
    · -- there is nothing already, so there is nothing behind it
      refine Or.inr ⟨h.vacant_below hspot [n], by simp, Or.inr ⟨hspot, ?_⟩⟩
      rcases hcases with ⟨-, hwalk⟩ | ⟨-, hwalk⟩
      · exact walk_append_vacant hwalk (List.cons_ne_nil n [])
      · exact walk_append_error hwalk [n]

/-! ## Making folders -/

/-- `d'` comes from `d` by making folders on the way to a location, which is one of them. -/
structure Opens (d : Disk) (l : Location) (d' : Disk) : Prop where
  tree : d'.IsTree
  current : d'.current = d.current
  there : d'.spot l = .folder l
  spot : ∀ x, d'.spot x = d.spot x ∨ x <+: l ∧ d'.spot x = .folder x

theorem Opens.folder {x : Location} (h : d.Opens l d') (hx : d.spot x = .folder x) :
    d'.spot x = .folder x :=
  (h.spot x).elim (·.trans hx) (·.2)

theorem Opens.start (h : d.Opens l d') (p : Path) : d'.start p = d.start p := by
  rw [Disk.start, Disk.start, h.current]

theorem makeFolder_isThere (hp : p.text.isEmpty = false)
    (hwalk : d.walk (d.start p) p.names = .ok (.folder l)) :
    d.makeFolder p = .error .isThere ∧ d.folder? p = some l := by
  refine ⟨by rw [makeFolder, hwalk, hp]; rfl, folder?_eq_some_iff.mpr ?_⟩
  exact locate_eq_ok_iff.mpr ⟨hp, hwalk, fun _ hs => Spot.noConfusion hs⟩

theorem makeFolder_vacant (hp : p.text.isEmpty = false) (hdot : p.endsInDot = false)
    (hwalk : d.walk (d.start p) p.names = .ok (.vacant l)) :
    d.makeFolder p = .ok { d with folders := d.folders ++ [l] } := by
  rw [makeFolder, hwalk, hp, hdot]
  rfl

theorem makeFolder_notFound (hp : p.text.isEmpty = false)
    (hwalk : d.walk (d.start p) p.names = .error .notFound) :
    d.makeFolder p = .error .notFound := by
  rw [makeFolder, hwalk, hp]
  rfl

theorem addFolder_opens (h : d.IsTree) (hmake : d.makeFolder p =
      .ok { d with folders := d.folders ++ [l] }) :
    d.Opens l { d with folders := d.folders ++ [l] } where
  tree := (makeFolder_grows hmake).tree h
  current := rfl
  there := by rw [spot_addFolder, if_pos rfl]
  spot x := by
    rw [spot_addFolder]
    by_cases hx : x = l
    · rw [if_pos hx, hx]
      exact Or.inr ⟨List.prefix_refl l, rfl⟩
    · rw [if_neg hx]
      exact Or.inl rfl

/-- A path leads up to a folder, and from there down to folders or to nothing. -/
structure Leads (d : Disk) (p : Path) (up down : List String) (l : Location) : Prop where
  names : p.names = up ++ down
  upward : d.walk (d.start p) up = .ok (.folder l)
  notUp : ".." ∉ down
  free : ∀ ms, ms <+: down → d.spot (l ++ ms) ≠ .file (l ++ ms)
  /-- A new folder cannot be made at a path that ends in a dot. -/
  noDot : d.spot (l ++ down) = .folder (l ++ down) ∨ p.endsInDot = false

theorem Leads.walk {up down : List String} (h : d.Leads p up down l) :
    d.walk (d.start p) p.names = d.walk l down := by
  rw [h.names, walk_append h.upward]

theorem Leads.opens {x : Location} {up down : List String} (h : d.Leads p up down l)
    (ho : d.Opens x d') : d'.Leads p up down l where
  names := h.names
  upward := by
    rw [ho.start]
    exact walk_again (fun _ => ho.folder) h.upward
  notUp := h.notUp
  free ms hms := by
    rcases ho.spot (l ++ ms) with heq | ⟨-, hfolder⟩
    · rw [heq]
      exact h.free ms hms
    · simp [hfolder]
  noDot := h.noDot.imp_left ho.folder

theorem Opens.trans {d'' : Disk} {x : Location} (h : d.Opens x d') (hx : x <+: l)
    (h' : d'.Opens l d'') : d.Opens l d'' where
  tree := h'.tree
  current := h'.current.trans h.current
  there := h'.there
  spot y := by
    rcases h'.spot y with heq | hfolder
    · rw [heq]
      exact (h.spot y).imp_right fun ⟨hy, hspot⟩ => ⟨hy.trans hx, hspot⟩
    · exact Or.inr hfolder

/-- A folder that is not there is made in one that is. -/
theorem makeFolder_opens (htree : d.IsTree) {up down : List String} (h : d.Leads p up down l)
    (hp : p.text.isEmpty = false) (hspot : d.spot (l ++ down) = .vacant (l ++ down))
    (habove : d.spot (l ++ down.dropLast) = .folder (l ++ down.dropLast)) :
    ∃ d', d.makeFolder p = .ok d' ∧ d.Opens (l ++ down) d' := by
  have hl : d.spot l = .folder l := htree.spot_walk (htree.spot_start p) h.upward
  have hdot := h.noDot.resolve_left (by simp [hspot])
  rcases htree.walk_down hl h.notUp h.free with ⟨hthere, -⟩ | ⟨-, -, ⟨-, hwalk⟩ | ⟨hnone, -⟩⟩
  · exact nomatch hspot.symm.trans hthere
  · have hmake := makeFolder_vacant hp hdot (h.walk.trans hwalk)
    exact ⟨_, hmake, addFolder_opens htree hmake⟩
  · exact nomatch hnone.symm.trans habove

/-- Above the last of several names is a path that leads up and down as far. -/
theorem Leads.exists_parent? {up init : List String} {n : String} (h : d.Leads p up (init ++ [n]) l)
    (hinit : init ≠ []) :
    ∃ q, p.parent? = some q ∧ d.Leads q up init l ∧ q.text.isEmpty = false := by
  obtain ⟨q, hq, hnames, habsolute, hdot⟩ := Path.exists_parent? (p := p)
    (by rw [h.names, ← List.append_assoc]; simp)
  rw [h.names, ← List.append_assoc, List.dropLast_concat] at hnames
  -- the path above has names, so it neither is empty nor ends in a dot
  have hne : q.names ≠ [] := by
    rw [hnames]
    exact List.append_ne_nil_of_right_ne_nil up hinit
  refine ⟨q, hq, ⟨hnames, ?_, ?_, ?_, Or.inr (hdot hne)⟩, ?_⟩
  · rw [start, habsolute]
    exact h.upward
  · exact fun hmem => h.notUp (List.mem_append_left _ hmem)
  · exact fun ms hms => h.free ms (hms.trans (List.prefix_append init [n]))
  · rw [Bool.eq_false_iff, ne_eq, String.isEmpty_iff]
    intro hempty
    rw [Path.names_eq, hempty, String.toList_empty] at hne
    exact hne Path.namesOf_pieces_nil

/-- A folder can be made if no file is in the way. The induction is on the number of folders that may
be missing. -/
theorem makeFoldersAbove_opens (htree : d.IsTree) {limit : Nat} {up down : List String}
    (h : d.Leads p up down l) (hp : p.text.isEmpty = false) (hlimit : down.length < limit) :
    ∃ d', (makeFoldersAbove limit p).run.run d = (.ok (), d') ∧ d.Opens (l ++ down) d' := by
  have hl : d.spot l = .folder l := htree.spot_walk (htree.spot_start p) h.upward
  induction limit generalizing p down with
  | zero => omega
  | succ limit ih =>
    rw [makeFoldersAbove, hp, if_neg Bool.false_ne_true, run_bind, run_get]
    simp only
    rcases htree.walk_down hl h.notUp h.free with
      ⟨hspot, hwalk⟩ | ⟨hspot, hne, ⟨habove, hwalk⟩ | ⟨habove, hwalk⟩⟩
    · -- the folder is there
      obtain ⟨hmake, hfolder⟩ := makeFolder_isThere hp (h.walk.trans hwalk)
      rw [hmake]
      simp only [run_bind, run_get, hfolder]
      exact ⟨d, rfl, htree, rfl, hspot, fun _ => Or.inl rfl⟩
    · -- the folder above it is there
      obtain ⟨d', hmake, hopens⟩ := makeFolder_opens htree h hp hspot habove
      rw [hmake]
      exact ⟨d', rfl, hopens⟩
    · -- the folder above it is made first
      obtain ⟨init, n, rfl⟩ := (List.eq_nil_or_concat' down).resolve_left hne
      rw [List.dropLast_concat] at habove
      have hinit : init ≠ [] := by
        rintro rfl
        rw [List.append_nil, hl] at habove
        cases habove
      obtain ⟨q, hq, hqp, hqempty⟩ := h.exists_parent? hinit
      have hlimit' : init.length < limit := by
        rw [List.length_append, List.length_singleton] at hlimit
        omega
      obtain ⟨d₁, hrun, hopens⟩ := ih hqp hqempty hlimit'
      have hprefix : l ++ init <+: l ++ (init ++ [n]) := by
        rw [← List.append_assoc]
        exact List.prefix_append _ _
      -- only folders on the way to `init` are new, so the last one is not there yet
      have hspot₁ : d₁.spot (l ++ (init ++ [n])) = .vacant (l ++ (init ++ [n])) := by
        rcases hopens.spot (l ++ (init ++ [n])) with heq | ⟨hlong, -⟩
        · rw [heq, hspot]
        · have hlength := hlong.length_le
          simp only [List.length_append, List.length_singleton] at hlength
          omega
      obtain ⟨d₂, hmake, hopens'⟩ := makeFolder_opens hopens.tree (h.opens hopens) hp hspot₁
        (by rw [List.dropLast_concat]; exact hopens.there)
      refine ⟨d₂, ?_, hopens.trans hprefix hopens'⟩
      rw [makeFolder_notFound hp (h.walk.trans hwalk)]
      simp only [hq, run_bind, hrun, ensureFolder, run_get, hmake]
      rfl

/-- **Folders can be made** where no file is in the way. -/
theorem makeFolders_opens (htree : d.IsTree) {up down : List String} (h : d.Leads p up down l) :
    ∃ d', (makeFolders p).run.run d = (.ok (), d') ∧ d.Opens (l ++ down) d' := by
  cases hp : p.text.isEmpty with
  | true =>
    -- the empty path is the folder where it starts
    have hnames : p.names = [] := by
      rw [Path.names_eq, String.isEmpty_iff.mp hp, String.toList_empty, Path.namesOf_pieces_nil]
    obtain ⟨rfl, rfl⟩ := List.append_eq_nil_iff.mp (h.names.symm.trans hnames)
    have hl : d.spot l = .folder l := htree.spot_walk (htree.spot_start p) h.upward
    refine ⟨d, ?_, htree, rfl, by rwa [List.append_nil], fun _ => Or.inl rfl⟩
    rw [makeFolders, makeFoldersAbove, if_pos hp]
    rfl
  | false =>
    refine makeFoldersAbove_opens htree h hp ?_
    have hlength := p.length_names_le
    rw [h.names, List.length_append] at hlength
    omega

end Disk

end DesignCompiler
