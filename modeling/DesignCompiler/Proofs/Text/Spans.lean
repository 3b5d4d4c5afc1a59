import DesignCompiler.Text.Blank
import Mathlib.Data.List.DropRight
import Mathlib.Data.List.TakeWhile

/-!
# DesignCompiler — spans of characters

Readers take characters as long as these pass a test. Where a writer puts a text that passes before
a character that does not, they take that text, neither more nor less.

* `takeWhile_append_stop`, `dropWhile_append_stop` — the text, and what follows it;
* `takeWhile_append_of_head`, `dropWhile_append_of_head` — any text before such a character;
* `exists_span` — the two parts of any text;
* `trimBy_append`, `exists_trimBy` — what stays when the spans at both ends are taken off.
-/

namespace DesignCompiler

section Spans

variable {p : Char → Bool} {text rest : List Char}

theorem takeWhile_append_stop (htext : ∀ c ∈ text, p c = true)
    (hrest : ∀ c ∈ rest.head?, p c = false) : (text ++ rest).takeWhile p = text := by
  rw [List.takeWhile_append_of_pos htext]
  cases rest with
  | nil => rw [List.takeWhile_nil, List.append_nil]
  | cons c cs => rw [List.takeWhile_cons_of_neg (by simp [hrest c rfl]), List.append_nil]

theorem dropWhile_append_stop (htext : ∀ c ∈ text, p c = true)
    (hrest : ∀ c ∈ rest.head?, p c = false) : (text ++ rest).dropWhile p = rest := by
  rw [List.dropWhile_append_of_pos htext]
  cases rest with
  | nil => rfl
  | cons c cs => rw [List.dropWhile_cons_of_neg (by simp [hrest c rfl])]

theorem takeWhile_append_of_head (hrest : ∀ c ∈ rest.head?, p c = false) :
    (text ++ rest).takeWhile p = text.takeWhile p := by
  induction text with
  | nil => exact takeWhile_append_stop (by simp) hrest
  | cons c text ih => rw [List.cons_append, List.takeWhile_cons, List.takeWhile_cons, ih]

theorem dropWhile_append_of_head (hrest : ∀ c ∈ rest.head?, p c = false) :
    (text ++ rest).dropWhile p = text.dropWhile p ++ rest := by
  induction text with
  | nil => exact dropWhile_append_stop (by simp) hrest
  | cons c text ih =>
    rw [List.cons_append, List.dropWhile_cons, List.dropWhile_cons, ih]
    split <;> rfl

/-- Every text passes the test up to some place, and fails it there. -/
theorem exists_span (p : Char → Bool) (text : List Char) :
    ∃ span rest, text = span ++ rest ∧ (∀ c ∈ span, p c = true) ∧ ∀ c ∈ rest.head?, p c = false := by
  refine ⟨text.takeWhile p, text.dropWhile p, List.takeWhile_append_dropWhile.symm,
    fun c hc => List.mem_takeWhile_imp hc, fun c hc => ?_⟩
  have hstop := List.head?_dropWhile_not p text
  rw [Option.mem_def.mp hc] at hstop
  exact hstop

/-- What is taken off the end is the text that passes. -/
theorem dropEndWhile_append_stop (hrest : ∀ c ∈ rest, p c = true)
    (hlast : ∀ c ∈ text.getLast?, p c = false) : Text.dropEndWhile p (text ++ rest) = text := by
  have hend : ∀ c ∈ text.reverse.head?, p c = false := by
    rwa [List.head?_reverse]
  rw [Text.dropEndWhile, List.reverse_append, dropWhile_append_stop (by simpa using hrest) hend,
    List.reverse_reverse]

/-- A text that fails the test at both ends stays when all around it is taken off. -/
theorem trimBy_append {before after : List Char} (hbefore : ∀ c ∈ before, p c = true)
    (hafter : ∀ c ∈ after, p c = true) (hne : text ≠ []) (hhead : ∀ c ∈ text.head?, p c = false)
    (hlast : ∀ c ∈ text.getLast?, p c = false) :
    Text.trimBy p (before ++ text ++ after) = text := by
  have hstart : ∀ c ∈ (text ++ after).head?, p c = false := by
    obtain ⟨c, cs, rfl⟩ := List.exists_cons_of_ne_nil hne
    exact hhead
  rw [Text.trimBy, List.append_assoc, dropWhile_append_stop hbefore hstart,
    dropEndWhile_append_stop hafter hlast]

/-- What is taken off passes the test. -/
theorem exists_trimBy (p : Char → Bool) (text : List Char) :
    ∃ before after, text = before ++ Text.trimBy p text ++ after ∧ (∀ c ∈ before, p c = true) ∧
      ∀ c ∈ after, p c = true := by
  refine ⟨text.takeWhile p, (text.dropWhile p).rtakeWhile p, ?_, fun c hc => ?_, fun c hc => ?_⟩
  · have hdrop : Text.trimBy p text ++ (text.dropWhile p).rtakeWhile p = text.dropWhile p :=
      List.rdropWhile_append_rtakeWhile
    rw [List.append_assoc, hdrop, List.takeWhile_append_dropWhile]
  · exact List.mem_takeWhile_imp hc
  · exact List.mem_rtakeWhile_imp hc

end Spans

end DesignCompiler
