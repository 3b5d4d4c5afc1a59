import DesignCompiler.Text.Words

/-!
# DesignCompiler — pieces of a text

A text that is cut at its separators, and texts that are put together with separators between them.

* `mem_pieces`, `mem_of_mem_pieces`, `length_pieces` — what pieces are, and how many there are;
* `pieces_eq_splitOn` — the cut is that of the library;
* `pieces_append` — the pieces of two texts with a separator between them;
* `pieces_flatMap` — texts without separators that have one behind each of them;
* `pieces_intercalate` — texts without separators are the pieces of what they are put together to;
* `replace` — a text whose pieces are put together with another text between them.
-/

namespace DesignCompiler.Text

variable {sep : Char}

theorem mem_pieces {cs p : List Char} (h : p ∈ pieces sep cs) : sep ∉ p := by
  fun_induction pieces sep cs generalizing p with
  | case1 => simp_all
  | case2 cs ih =>
    rcases List.mem_cons.mp h with rfl | h
    · simp
    · exact ih h
  | case3 c cs hc hnil ih =>
    rw [List.mem_singleton] at h
    simp [h, Ne.symm hc]
  | case4 c cs hc l ls hls ih =>
    rcases List.mem_cons.mp h with rfl | h
    · rw [List.mem_cons, not_or]
      exact ⟨Ne.symm hc, ih (hls ▸ List.mem_cons_self ..)⟩
    · exact ih (hls ▸ List.mem_cons_of_mem _ h)

theorem pieces_ne_nil (sep : Char) (cs : List Char) : pieces sep cs ≠ [] := by
  fun_cases pieces sep cs <;> simp

theorem mem_of_mem_pieces {cs p : List Char} (hp : p ∈ pieces sep cs) {c : Char} (hc : c ∈ p) :
    c ∈ cs := by
  fun_induction pieces sep cs generalizing p with
  | case1 => simp_all
  | case2 cs ih =>
    rcases List.mem_cons.mp hp with rfl | hp
    · exact absurd hc (by simp)
    · exact List.mem_cons_of_mem _ (ih hp hc)
  | case3 d cs hd hnil ih => exact absurd hnil (pieces_ne_nil sep cs)
  | case4 d cs hd l ls hls ih =>
    rcases List.mem_cons.mp hp with rfl | hp
    · rcases List.mem_cons.mp hc with rfl | hc
      · exact List.mem_cons_self ..
      · exact List.mem_cons_of_mem _ (ih (hls ▸ List.mem_cons_self ..) hc)
    · exact List.mem_cons_of_mem _ (ih (hls ▸ List.mem_cons_of_mem _ hp) hc)

theorem pieces_eq_splitOn (cs : List Char) : pieces sep cs = cs.splitOn sep := by
  induction cs with
  | nil => rw [pieces, List.splitOn_nil]
  | cons c cs ih =>
    rw [pieces, List.splitOn_cons_eq_if_modifyHead, ih]
    simp only [beq_iff_eq]
    congr 1
    cases hpieces : cs.splitOn sep with
    | nil => exact absurd hpieces (List.splitOn_ne_nil sep cs)
    | cons p ps => rfl

theorem pieces_of_notMem {cs : List Char} (h : sep ∉ cs) : pieces sep cs = [cs] := by
  induction cs with
  | nil => rfl
  | cons c cs ih =>
    rw [List.mem_cons, not_or] at h
    rw [pieces, if_neg (Ne.symm h.1), ih h.2]

theorem pieces_append (sep : Char) (a b : List Char) :
    pieces sep (a ++ sep :: b) = pieces sep a ++ pieces sep b := by
  induction a with
  | nil => simp [pieces]
  | cons c a ih =>
    rw [List.cons_append, pieces, pieces, ih]
    by_cases hc : c = sep
    · rw [if_pos hc, if_pos hc, List.cons_append]
    · -- the first piece of `a` is one character longer, whatever follows
      obtain ⟨p, ps, hps⟩ := List.exists_cons_of_ne_nil (pieces_ne_nil sep a)
      rw [if_neg hc, if_neg hc, hps]
      rfl

theorem length_pieces (sep : Char) (cs : List Char) :
    (pieces sep cs).length = cs.count sep + 1 := by
  fun_induction pieces sep cs with
  | case1 => rfl
  | case2 cs ih => rw [List.length_cons, ih, List.count_cons_self]
  | case3 c cs hc hnil ih => exact absurd hnil (pieces_ne_nil sep cs)
  | case4 c cs hc l ls hls ih =>
    rw [hls, List.length_cons] at ih
    rw [List.length_cons, ih, List.count_cons_of_ne hc]

/-- A separator behind each text leaves an empty piece at the end. -/
theorem pieces_flatMap {ps : List (List Char)} (h : ∀ p ∈ ps, sep ∉ p) :
    pieces sep (ps.flatMap (· ++ [sep])) = ps ++ [[]] := by
  induction ps with
  | nil => rfl
  | cons p ps ih =>
    obtain ⟨hp, hps⟩ := List.forall_mem_cons.mp h
    rw [List.flatMap_cons, List.append_assoc, List.singleton_append, pieces_append,
      pieces_of_notMem hp, ih hps, List.singleton_append, List.cons_append]

theorem pieces_intercalate {ps : List (List Char)} (hne : ps ≠ []) (h : ∀ p ∈ ps, sep ∉ p) :
    pieces sep ([sep].intercalate ps) = ps := by
  induction ps with
  | nil => exact absurd rfl hne
  | cons p ps ih =>
    obtain ⟨hp, hps⟩ := List.forall_mem_cons.mp h
    cases ps with
    | nil => rw [List.intercalate_singleton, pieces_of_notMem hp]
    | cons q qs =>
      rw [List.intercalate_cons_cons, List.append_assoc, List.singleton_append, pieces_append,
        pieces_of_notMem hp, ih (List.cons_ne_nil q qs) hps, List.singleton_append]

/-! ## Replacing a character -/

/-- A text with another text in the place of every occurrence of a character. -/
def replace (old : Char) (new cs : List Char) : List Char :=
  new.intercalate (pieces old cs)

theorem replace_cons (old : Char) (new : List Char) (c : Char) (cs : List Char) :
    replace old new (c :: cs) = (if c = old then new else [c]) ++ replace old new cs := by
  obtain ⟨p, ps, hps⟩ := List.exists_cons_of_ne_nil (pieces_ne_nil old cs)
  rw [replace, replace, pieces, hps]
  by_cases hc : c = old
  · rw [if_pos hc, if_pos hc, List.intercalate_cons_cons, List.nil_append]
  · -- the character is the first one of the first piece
    rw [if_neg hc, if_neg hc, List.singleton_append]
    cases ps with
    | nil => simp
    | cons q qs => simp [List.intercalate_cons_cons]

/-- Each character is replaced on its own. -/
theorem replace_eq_flatMap (old : Char) (new cs : List Char) :
    replace old new cs = cs.flatMap fun c => if c = old then new else [c] := by
  induction cs with
  | nil => simp [replace, pieces]
  | cons c cs ih => rw [replace_cons, ih, List.flatMap_cons]

theorem replace_of_notMem {old : Char} {cs : List Char} (h : old ∉ cs) (new : List Char) :
    replace old new cs = cs := by
  rw [replace, pieces_of_notMem h, List.intercalate_singleton]

end DesignCompiler.Text
