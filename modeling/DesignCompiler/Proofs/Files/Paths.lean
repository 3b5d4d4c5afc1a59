import DesignCompiler.Files.Path
import DesignCompiler.Proofs.Text.Pieces
import Mathlib.Data.List.Induction

/-!
# DesignCompiler — names of joined paths

Paths are texts, but they lead somewhere by their names. A path that is joined from two has the names
of the first and then those of the second, however many slashes stand between them.

* `IsFileName` — the names that files and folders can have;
* `names_join`, `isAbsolute_join` — joined paths;
* `names_intercalate` — a path that is put together from names;
* `Path.below` — a path with names behind it.
-/

namespace DesignCompiler

/-- A name that a file or a folder can have. -/
structure IsFileName (n : String) : Prop where
  isName : Path.isName n = true
  notUp : n ≠ ".."
  noSlash : '/' ∉ n.toList

instance (n : String) : Decidable (IsFileName n) :=
  decidable_of_iff (Path.isName n = true ∧ n ≠ ".." ∧ '/' ∉ n.toList)
    ⟨fun ⟨h, h', h''⟩ => ⟨h, h', h''⟩, fun ⟨h, h', h''⟩ => ⟨h, h', h''⟩⟩

namespace Path

variable {p q : Path}

theorem isAbsolute_of_noSlash {s : String} (h : '/' ∉ s.toList) :
    (⟨s⟩ : Path).isAbsolute = false := by
  rw [isAbsolute]
  cases hs : s.toList with
  | nil => rfl
  | cons c cs =>
    have hc : c ≠ '/' := fun heq => h (by rw [hs, heq]; exact List.mem_cons_self ..)
    simpa using hc

theorem join_of_relative (hq : q.isAbsolute = false) :
    (p.join q).text.toList =
      if p.text.isEmpty || p.text.toList.getLast? == some '/' then p.text.toList ++ q.text.toList
      else p.text.toList ++ '/' :: q.text.toList := by
  rw [join, hq, if_neg Bool.false_ne_true]
  split
  · rw [String.toList_append]
  · rw [String.toList_append, String.toList_append, List.append_assoc]
    rfl

theorem isAbsolute_join (hq : q.isAbsolute = false) : (p.join q).isAbsolute = p.isAbsolute := by
  have hjoin := join_of_relative (p := p) hq
  rw [isAbsolute] at hq
  rw [isAbsolute, isAbsolute, hjoin]
  cases hp : p.text.toList with
  | nil =>
    have hempty : p.text.isEmpty = true := by
      rw [String.isEmpty_iff, ← String.toList_eq_nil_iff, hp]
    simpa [hempty] using hq
  | cons c cs => split <;> rfl

/-! ## Names -/

/-- The names among pieces of a text. -/
def namesOf (pieces : List (List Char)) : List String :=
  (pieces.map String.ofList).filter isName

theorem namesOf_append (a b : List (List Char)) : namesOf (a ++ b) = namesOf a ++ namesOf b := by
  rw [namesOf, List.map_append, List.filter_append]
  rfl

theorem names_eq (p : Path) : p.names = namesOf (Text.pieces '/' p.text.toList) := rfl

/-- Nothing behind the last slash is no name. -/
theorem namesOf_pieces_nil : namesOf (Text.pieces '/' []) = [] := by decide

theorem names_join (hq : q.isAbsolute = false) : (p.join q).names = p.names ++ q.names := by
  rw [names_eq, names_eq, names_eq, join_of_relative hq]
  split
  · rename_i h
    rw [Bool.or_eq_true] at h
    rcases h with hempty | hslash
    · rw [String.isEmpty_iff] at hempty
      rw [hempty, String.toList_empty, namesOf_pieces_nil]
      rfl
    · -- the path ends in a slash already
      obtain ⟨cs, hcs⟩ := List.getLast?_eq_some_iff.mp (eq_of_beq hslash)
      rw [hcs, List.append_assoc, List.singleton_append, Text.pieces_append, Text.pieces_append,
        namesOf_append, namesOf_append, namesOf_pieces_nil, List.append_nil]
  · rw [Text.pieces_append, namesOf_append]

theorem namesOf_fileNames {ns : List String} (h : ∀ n ∈ ns, IsFileName n) :
    namesOf (ns.map String.toList) = ns := by
  have hmap : (ns.map String.toList).map String.ofList = ns := by
    simp [Function.comp_def]
  rw [namesOf, hmap, List.filter_eq_self]
  exact fun n hn => (h n hn).isName

theorem pieces_intercalate {ns : List String} (hne : ns ≠ []) (h : ∀ n ∈ ns, IsFileName n) :
    Text.pieces '/' ("/".intercalate ns).toList = ns.map String.toList := by
  rw [String.toList_intercalate]
  refine Text.pieces_intercalate (by simpa using hne) fun cs hcs => ?_
  obtain ⟨n, hn, rfl⟩ := List.mem_map.mp hcs
  exact (h n hn).noSlash

theorem names_intercalate {ns : List String} (h : ∀ n ∈ ns, IsFileName n) :
    (⟨"/".intercalate ns⟩ : Path).names = ns := by
  by_cases hne : ns = []
  · subst hne
    decide
  · rw [names_eq, pieces_intercalate hne h, namesOf_fileNames h]

/-- Names of files never make an absolute path. -/
theorem isAbsolute_intercalate {ns : List String} (h : ∀ n ∈ ns, IsFileName n) :
    (⟨"/".intercalate ns⟩ : Path).isAbsolute = false := by
  cases ns with
  | nil => decide
  | cons n ns =>
    have hn := h n (List.mem_cons_self ..)
    rw [isAbsolute, String.toList_intercalate, List.map_cons]
    have hchars : n.toList ≠ [] := by
      intro hnil
      have hempty := hn.isName
      rw [String.toList_eq_nil_iff.mp hnil] at hempty
      exact absurd hempty (by decide)
    obtain ⟨c, cs, hcs⟩ := List.exists_cons_of_ne_nil hchars
    -- the first character is one of the first name
    have hslash : c ≠ '/' := fun heq => hn.noSlash (by rw [hcs, heq]; exact List.mem_cons_self ..)
    cases ns with
    | nil => simpa [hcs] using hslash
    | cons m ms => simpa [hcs, List.intercalate_cons_cons] using hslash

theorem names_fileName {n : String} (h : IsFileName n) : (⟨n⟩ : Path).names = [n] := by
  have hnames : (⟨"/".intercalate [n]⟩ : Path).names = [n] := names_intercalate (by simpa using h)
  rwa [String.intercalate_singleton] at hnames

theorem fileName?_join {n : String} (h : IsFileName n) : (p.join ⟨n⟩).fileName? = some n := by
  rw [fileName?, names_join (isAbsolute_of_noSlash h.noSlash), names_fileName h,
    List.getLast?_concat, Option.filter_some, if_pos (by simpa using h.notUp)]

/-! ## Paths with names behind them -/

/-- A path with names behind it. -/
def below (p : Path) (ns : List String) : Path :=
  ns.foldl (fun p n => p.join ⟨n⟩) p

variable {ns : List String}

theorem below_concat (p : Path) (ns : List String) (n : String) :
    p.below (ns ++ [n]) = (p.below ns).join ⟨n⟩ := by
  rw [below, List.foldl_append]
  rfl

theorem names_below (h : ∀ n ∈ ns, IsFileName n) : (p.below ns).names = p.names ++ ns := by
  induction ns using List.reverseRecOn with
  | nil => rw [List.append_nil]; rfl
  | append_singleton ns n ih =>
    rw [List.forall_mem_append, List.forall_mem_singleton] at h
    rw [below_concat, names_join (isAbsolute_of_noSlash h.2.noSlash), names_fileName h.2, ih h.1,
      List.append_assoc]

theorem isAbsolute_below (h : ∀ n ∈ ns, IsFileName n) :
    (p.below ns).isAbsolute = p.isAbsolute := by
  induction ns using List.reverseRecOn with
  | nil => rfl
  | append_singleton ns n ih =>
    rw [List.forall_mem_append, List.forall_mem_singleton] at h
    rw [below_concat, isAbsolute_join (isAbsolute_of_noSlash h.2.noSlash), ih h.1]

theorem fileName?_below {n : String} (h : ∀ m ∈ ns ++ [n], IsFileName m) :
    (p.below (ns ++ [n])).fileName? = some n := by
  rw [below_concat, fileName?_join (h n (by simp))]

end Path

end DesignCompiler
