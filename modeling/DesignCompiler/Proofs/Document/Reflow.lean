import DesignCompiler.Emission.Document
import DesignCompiler.Markup.Escape
import DesignCompiler.Proofs.Text.Pieces
import Mathlib.Data.List.Basic

/-!
# DesignCompiler — moved lines

A document moves the lines of its markup to the right. Where a line begins is decided by line feeds
alone, so a text anywhere in the markup that has line feeds gets blanks behind them, and loses the
carriage returns before them.

* `reflow` — what becomes of a text that stands in the middle of a line;
* `indented` — what becomes of a text that begins a line;
* `indentBlock_eq` — this is how a document moves its markup;
* `Reflows` — what becomes of a text, whatever follows it;
* `reflow_eq_self_iff` — only texts without line feeds stay as they are.
-/

namespace DesignCompiler.Document

/-- A text without the carriage returns that stand right before a line feed. -/
def dropReturns : List Char → List Char
  | [] => []
  | c :: cs => if c = '\r' ∧ cs.head? = some '\n' then dropReturns cs else c :: dropReturns cs

/-- A text with blanks behind every line feed, unless another line feed follows. -/
def indentAfter (width : Nat) : List Char → List Char
  | [] => []
  | c :: cs =>
    if c = '\n' ∧ cs.head? ≠ some '\n' then
      c :: (List.replicate width ' ' ++ indentAfter width cs)
    else c :: indentAfter width cs

/-- What becomes of a text inside a line when the lines are moved. -/
def reflow (width : Nat) (cs : List Char) : List Char :=
  indentAfter width (dropReturns cs)

/-- Blanks before a text, unless its first line is empty. -/
def indentFirst (width : Nat) (cs : List Char) : List Char :=
  (if cs.head? = some '\n' then [] else List.replicate width ' ') ++ indentAfter width cs

/-- What becomes of a text at the beginning of a line. -/
def indented (width : Nat) (cs : List Char) : List Char :=
  indentFirst width (dropReturns cs)

variable {w : Nat} {c : Char} {a b cs : List Char}

/-! ## Inside a line -/

theorem dropReturns_cons (hc : c ≠ '\r') : dropReturns (c :: cs) = c :: dropReturns cs := by
  rw [dropReturns, if_neg fun h => hc h.1]

theorem indentAfter_cons (hc : c ≠ '\n') : indentAfter w (c :: cs) = c :: indentAfter w cs := by
  rw [indentAfter, if_neg fun h => hc h.1]

theorem indentAfter_newline : indentAfter w ('\n' :: cs) = '\n' :: indentFirst w cs := by
  rw [indentAfter, indentFirst]
  by_cases h : cs.head? = some '\n' <;> simp [h]

/-- Behind a line feed a line begins. -/
theorem reflow_newline : reflow w ('\n' :: cs) = '\n' :: indented w cs := by
  rw [reflow, dropReturns_cons (by decide), indentAfter_newline, indented]

theorem dropReturns_append_of_notMem (h : '\r' ∉ a) :
    dropReturns (a ++ b) = a ++ dropReturns b := by
  induction a with
  | nil => rfl
  | cons c a ih =>
    rw [List.mem_cons, not_or] at h
    rw [List.cons_append, dropReturns_cons (Ne.symm h.1), ih h.2, List.cons_append]

theorem indentAfter_append_of_notMem (h : '\n' ∉ a) :
    indentAfter w (a ++ b) = a ++ indentAfter w b := by
  induction a with
  | nil => rfl
  | cons c a ih =>
    rw [List.mem_cons, not_or] at h
    rw [List.cons_append, indentAfter_cons (Ne.symm h.1), ih h.2, List.cons_append]

/-- Without line feeds there is nothing to drop. -/
theorem dropReturns_of_notMem (h : '\n' ∉ a) : dropReturns a = a := by
  induction a with
  | nil => rfl
  | cons c a ih =>
    rw [List.mem_cons, not_or] at h
    have hhead : a.head? ≠ some '\n' := fun hh => h.2 (List.mem_of_head? hh)
    rw [dropReturns, if_neg fun hh => hhead hh.2, ih h.2]

theorem reflow_of_notMem (h : '\n' ∉ a) : reflow w a = a := by
  have hall := indentAfter_append_of_notMem (w := w) (b := []) h
  rw [List.append_nil, indentAfter, List.append_nil] at hall
  rw [reflow, dropReturns_of_notMem h, hall]

/-- A text that ends with a character of a line is not touched by what follows it. -/
theorem dropReturns_append_cons (hn : c ≠ '\n') (hr : c ≠ '\r') :
    dropReturns (a ++ c :: b) = dropReturns a ++ c :: dropReturns b := by
  induction a with
  | nil => exact dropReturns_cons hr
  | cons x a ih =>
    have hhead : (a ++ c :: b).head? = some '\n' ↔ a.head? = some '\n' := by
      cases a <;> simp [hn]
    simp only [List.cons_append, dropReturns, hhead, ih]
    split <;> rfl

theorem indentAfter_append_cons (hn : c ≠ '\n') :
    indentAfter w (a ++ c :: b) = indentAfter w a ++ c :: indentAfter w b := by
  induction a with
  | nil => exact indentAfter_cons hn
  | cons x a ih =>
    have hhead : (a ++ c :: b).head? = some '\n' ↔ a.head? = some '\n' := by
      cases a <;> simp [hn]
    simp only [List.cons_append, indentAfter, ne_eq, hhead, ih]
    split <;> simp

theorem reflow_append_cons (hn : c ≠ '\n') (hr : c ≠ '\r') :
    reflow w (a ++ c :: b) = reflow w a ++ c :: reflow w b := by
  rw [reflow, dropReturns_append_cons hn hr, indentAfter_append_cons hn, reflow, reflow]

theorem head?_indentAfter (cs : List Char) : (indentAfter w cs).head? = cs.head? := by
  cases cs with
  | nil => rfl
  | cons c cs =>
    rw [indentAfter]
    split <;> rfl

/-- At the beginning of a line there are blanks before what would stand inside it. -/
theorem indented_eq (cs : List Char) :
    indented w cs =
      (if (reflow w cs).head? = some '\n' then [] else List.replicate w ' ') ++ reflow w cs := by
  simp only [indented, indentFirst, reflow, head?_indentAfter]

/-! ## A text, whatever follows it -/

/-- Inside a line the first text becomes the second one. -/
def Reflows (w : Nat) (a b : List Char) : Prop :=
  ∀ rest, reflow w (a ++ rest) = b ++ reflow w rest

theorem Reflows.nil : Reflows w [] [] := by
  intro rest
  rfl

theorem Reflows.append {a' b' : List Char} (ha : Reflows w a a') (hb : Reflows w b b') :
    Reflows w (a ++ b) (a' ++ b') := by
  intro rest
  rw [List.append_assoc, ha, hb, List.append_assoc]

/-- A text and the character of its line that ends it. -/
theorem reflows_concat (hn : c ≠ '\n') (hr : c ≠ '\r') (v : List Char) :
    Reflows w (v ++ [c]) (reflow w v ++ [c]) := by
  intro rest
  simp only [List.append_assoc, List.singleton_append]
  exact reflow_append_cons hn hr

/-- Part of a line stays as it is, if no line feed can come right behind a carriage return. -/
theorem reflows_plain (hn : '\n' ∉ a) (hr : a.getLast? ≠ some '\r') : Reflows w a a := by
  rcases List.eq_nil_or_concat a with rfl | ⟨v, c, rfl⟩
  · exact Reflows.nil
  · rw [List.concat_eq_append] at hn hr ⊢
    rw [List.getLast?_concat] at hr
    simp only [List.mem_append, List.mem_singleton, not_or] at hn
    have hv := reflows_concat (w := w) (Ne.symm hn.2) (fun h => hr (congrArg some h)) v
    rwa [reflow_of_notMem hn.1] at hv

/-! ## Line by line -/

/-- A line with blanks before it, unless it is empty. -/
def indentLine (w : Nat) (l : List Char) : List Char :=
  if l.isEmpty then [] else List.replicate w ' ' ++ l

theorem dropReturn_cons (h : c ≠ '\r' ∨ a ≠ []) : dropReturn (c :: a) = c :: dropReturn a := by
  rcases List.eq_nil_or_concat a with rfl | ⟨v, x, rfl⟩
  · rw [dropReturn, dropReturn]
    split
    · rename_i rest heq
      simp_all
    · rfl
  · rw [List.concat_eq_append, dropReturn, dropReturn]
    simp only [List.reverse_cons, List.reverse_append, List.reverse_nil, List.nil_append,
      List.cons_append]
    by_cases hx : x = '\r'
    · subst hx
      simp
    · split <;> simp_all

/-- Only a carriage return at the end of a line is dropped. -/
theorem dropReturns_line (h : '\n' ∉ a) :
    dropReturns (a ++ '\n' :: b) = dropReturn a ++ '\n' :: dropReturns b := by
  induction a with
  | nil => exact dropReturns_cons (by decide)
  | cons c a ih =>
    rw [List.mem_cons, not_or] at h
    -- only a return directly in front of the new line is dropped
    by_cases hlast : c = '\r' ∧ a = []
    · obtain ⟨rfl, rfl⟩ := hlast
      rw [List.cons_append, List.nil_append, dropReturns, if_pos ⟨rfl, rfl⟩,
        dropReturns_cons (by decide)]
      rfl
    · have hkeep : c ≠ '\r' ∨ a ≠ [] := not_and_or.mp hlast
      have hhead : ¬(c = '\r' ∧ (a ++ '\n' :: b).head? = some '\n') := by
        rintro ⟨rfl, hhead⟩
        cases a with
        | nil => exact hlast ⟨rfl, rfl⟩
        | cons x a => exact h.2 (by simp_all)
      rw [List.cons_append, dropReturns, if_neg hhead, ih h.2, dropReturn_cons hkeep,
        List.cons_append]

theorem notMem_dropReturn (h : '\n' ∉ a) : '\n' ∉ dropReturn a := by
  unfold dropReturn
  split
  · rename_i rest heq
    intro hmem
    refine h (List.mem_reverse.mp ?_)
    rw [heq]
    exact List.mem_cons_of_mem _ (List.mem_reverse.mp hmem)
  · exact h

/-- A line, and the text behind it. -/
theorem indented_line (h : '\n' ∉ a) :
    indented w (a ++ '\n' :: b) = indentLine w (dropReturn a) ++ '\n' :: indented w b := by
  rw [indented, dropReturns_line h, indentFirst, indentAfter_append_of_notMem (notMem_dropReturn h),
    indentAfter_newline, indented, indentLine, ← List.append_assoc]
  have hplain := notMem_dropReturn h
  cases hl : dropReturn a with
  | nil => simp
  | cons c l =>
    have hc : c ≠ '\n' := fun heq => hplain (hl ▸ heq ▸ List.mem_cons_self ..)
    simp [hc]

/-- Moving the lines of a text one by one moves the text, if its last line is not empty and does not
end with a carriage return. -/
theorem intercalate_indentLine {cs : List Char} (hlast : ∃ c ∈ cs.getLast?, c ≠ '\n' ∧ c ≠ '\r') :
    ['\n'].intercalate ((Text.pieces '\n' cs).map fun l => indentLine w (dropReturn l)) =
      indented w cs := by
  induction hlength : cs.length using Nat.strongRecOn generalizing cs with
  | _ n ih =>
    obtain ⟨c, hc, hn, hr⟩ := hlast
    by_cases hmem : '\n' ∈ cs
    · -- the text behind the first line ends as the whole text does
      obtain ⟨l, rest, rfl, hl⟩ := List.eq_append_cons_of_mem hmem
      have hrest : c ∈ rest.getLast? := by
        cases rest with
        | nil => exact absurd (by simpa using hc) hn.symm
        | cons x xs => simpa using hc
      have hrec := ih rest.length (by simp at hlength; omega) ⟨c, hrest, hn, hr⟩ rfl
      obtain ⟨p, ps, hps⟩ := List.exists_cons_of_ne_nil (Text.pieces_ne_nil '\n' rest)
      rw [hps] at hrec
      rw [Text.pieces_append, Text.pieces_of_notMem hl, indented_line hl, ← hrec, hps]
      simp [List.intercalate_cons_cons]
    · obtain ⟨v, rfl⟩ := List.getLast?_eq_some_iff.mp hc
      have hkeep : dropReturn (v ++ [c]) = v ++ [c] := by
        rw [dropReturn, List.reverse_concat]
        split
        · rename_i heq
          exact absurd (List.cons.inj heq).1 hr
        · rfl
      have hhead : (v ++ [c]).head? ≠ some '\n' := fun h => hmem (List.mem_of_head? h)
      have hafter := reflow_of_notMem (w := w) hmem
      rw [reflow, dropReturns_of_notMem hmem] at hafter
      rw [Text.pieces_of_notMem hmem, List.map_singleton, List.intercalate_singleton, hkeep,
        indented, dropReturns_of_notMem hmem, indentFirst, if_neg hhead, hafter]
      simp [indentLine]

/-- The lines of a text without its last line feed. -/
theorem lines_concat_newline (cs : List Char) :
    lines (cs ++ ['\n']) = (Text.pieces '\n' cs).map dropReturn := by
  have hpieces : Text.pieces '\n' (cs ++ ['\n']) = Text.pieces '\n' cs ++ [[]] :=
    Text.pieces_append '\n' cs []
  rw [lines, hpieces]
  simp

/-- **Moved markup.** A document moves its markup as a text at the beginning of a line. -/
theorem indentBlock_eq {cs : List Char} (hlast : ∃ c ∈ cs.getLast?, c ≠ '\n' ∧ c ≠ '\r') :
    (indentBlock w (String.ofList (cs ++ ['\n']))).toList = indented w cs := by
  rw [indentBlock, String.toList_ofList, String.toList_ofList, lines_concat_newline, List.map_map]
  exact intercalate_indentLine hlast

/-- What becomes of the last line feed of a text. -/
theorem indented_concat_newline {w : Nat} {cs : List Char} (h : ['>'] <:+ cs) :
    indented w (cs ++ ['\n']) = indented w cs ++ '\n' :: List.replicate w ' ' := by
  obtain ⟨v, rfl⟩ := h
  have hend : reflow w ['\n'] = '\n' :: List.replicate w ' ' := by
    rw [reflow_newline]
    simp [indented, dropReturns, indentFirst, indentAfter]
  have hline : reflow w (v ++ ['>']) = reflow w v ++ ['>'] := by
    have hv := reflows_concat (w := w) (c := '>') (by decide) (by decide) v []
    simpa [reflow, dropReturns, indentAfter] using hv
  -- a line that has something on it is not changed by the new line behind it
  have hall : reflow w (v ++ ['>'] ++ ['\n']) =
      reflow w v ++ ['>'] ++ '\n' :: List.replicate w ' ' := by
    rw [reflows_concat (by decide) (by decide) v, hend]
  have hhead : (reflow w v ++ ['>'] ++ '\n' :: List.replicate w ' ').head? =
      (reflow w v ++ ['>']).head? := by
    cases reflow w v <;> rfl
  rw [indented_eq, indented_eq, hall, hline, hhead]
  simp only [List.append_assoc]

/-! ## Escaped values -/

section Escape

open Markup

variable {d : Dialect}

theorem escapeValueChar_newline : escapeValueChar d '\n' = ['\n'] := by
  cases d <;> rfl

theorem escapeValueChar_blank : escapeValueChar d ' ' = [' '] := by
  cases d <;> rfl

theorem escapeValueChar_return : escapeValueChar d '\r' = ['\r'] := by
  cases d <;> rfl

/-- Entities are parts of a line. -/
theorem escapeValueChar_line (hn : c ≠ '\n') (hr : c ≠ '\r') :
    '\n' ∉ escapeValueChar d c ∧ '\r' ∉ escapeValueChar d c ∧ escapeValueChar d c ≠ [] := by
  unfold escapeValueChar escapeTextChar
  split
  · simp
  · split <;> simp [Ne.symm hn, Ne.symm hr]

theorem head?_escapeValue (v : List Char) :
    (escapeValue d v).head? = some '\n' ↔ v.head? = some '\n' := by
  cases v with
  | nil => simp [escapeValue]
  | cons c v =>
    by_cases hn : c = '\n'
    · simp [escapeValue, hn, escapeValueChar_newline]
    by_cases hr : c = '\r'
    · simp [escapeValue, hr, escapeValueChar_return]
    obtain ⟨hline, -, hne⟩ := escapeValueChar_line (d := d) hn hr
    obtain ⟨x, xs, hx⟩ := List.exists_cons_of_ne_nil hne
    have hxn : x ≠ '\n' := fun heq => hline (hx ▸ heq ▸ List.mem_cons_self ..)
    simp [escapeValue, hx, hn, hxn]

theorem escapeValue_cons (c : Char) (v : List Char) :
    escapeValue d (c :: v) = escapeValueChar d c ++ escapeValue d v := rfl

theorem escapeValue_blanks (n : Nat) (v : List Char) :
    escapeValue d (List.replicate n ' ' ++ v) = List.replicate n ' ' ++ escapeValue d v := by
  induction n with
  | zero => rfl
  | succ n ih =>
    rw [List.replicate_succ, List.cons_append, escapeValue_cons, escapeValueChar_blank, ih]
    rfl

theorem dropReturns_escapeValue (v : List Char) :
    dropReturns (escapeValue d v) = escapeValue d (dropReturns v) := by
  induction v with
  | nil => rfl
  | cons c v ih =>
    -- whether a return is dropped depends on the next character, which is escaped to one with the
    -- same head
    by_cases hr : c = '\r'
    · subst hr
      rw [escapeValue_cons, escapeValueChar_return, List.singleton_append]
      simp only [dropReturns, head?_escapeValue, ih]
      split
      · rfl
      · rw [escapeValue_cons, escapeValueChar_return, List.singleton_append]
    · have hplain : '\r' ∉ escapeValueChar d c := by
        by_cases hn : c = '\n'
        · rw [hn, escapeValueChar_newline]
          decide
        · exact (escapeValueChar_line hn hr).2.1
      rw [escapeValue_cons, dropReturns_append_of_notMem hplain, ih, dropReturns_cons hr,
        escapeValue_cons]

theorem indentAfter_escapeValue (v : List Char) :
    indentAfter w (escapeValue d v) = escapeValue d (indentAfter w v) := by
  induction v with
  | nil => rfl
  | cons c v ih =>
    -- blanks are put behind a new line, and blanks are not escaped
    by_cases hn : c = '\n'
    · subst hn
      rw [escapeValue_cons, escapeValueChar_newline, List.singleton_append, indentAfter_newline,
        indentAfter_newline, escapeValue_cons, escapeValueChar_newline, List.singleton_append]
      simp only [indentFirst, head?_escapeValue, ih]
      split
      · rfl
      · rw [escapeValue_blanks]
    · have hplain : '\n' ∉ escapeValueChar d c := by
        by_cases hr : c = '\r'
        · rw [hr, escapeValueChar_return]
          decide
        · exact (escapeValueChar_line hn hr).1
      rw [escapeValue_cons, indentAfter_append_of_notMem hplain, ih, indentAfter_cons hn,
        escapeValue_cons]

/-- Values are moved as they are escaped. -/
theorem reflow_escapeValue (v : List Char) :
    reflow w (escapeValue d v) = escapeValue d (reflow w v) := by
  rw [reflow, dropReturns_escapeValue, indentAfter_escapeValue, reflow]

end Escape

/-! ## Texts that stay as they are -/

theorem count_dropReturns (v : List Char) : (dropReturns v).count ' ' = v.count ' ' := by
  induction v with
  | nil => rfl
  | cons c v ih =>
    rw [dropReturns]
    split
    · rename_i h
      rw [ih, h.1, List.count_cons_of_ne (by decide)]
    · rw [List.count_cons, List.count_cons, ih]

theorem mem_dropReturns {v : List Char} (h : '\n' ∈ v) : '\n' ∈ dropReturns v := by
  obtain ⟨l, rest, rfl, hl⟩ := List.eq_append_cons_of_mem h
  rw [dropReturns_line hl]
  simp

theorem count_le_indentAfter (v : List Char) : v.count ' ' ≤ (indentAfter w v).count ' ' := by
  induction v with
  | nil => exact Nat.le_refl _
  | cons c v ih =>
    rw [indentAfter]
    split
    · rename_i h
      simp only [List.count_cons, List.count_append]
      omega
    · simp only [List.count_cons]
      omega

/-- The last line feed of a text has blanks behind it. -/
theorem count_lt_indentAfter (hw : 0 < w) {v : List Char} (h : '\n' ∈ v) :
    v.count ' ' < (indentAfter w v).count ' ' := by
  induction v with
  | nil => exact absurd h List.not_mem_nil
  | cons c v ih =>
    by_cases hv : '\n' ∈ v
    · have hrec := ih hv
      rw [indentAfter]
      split <;> simp only [List.count_cons, List.count_append] <;> omega
    · obtain rfl : c = '\n' := ((List.mem_cons.mp h).resolve_right hv).symm
      have hhead : v.head? ≠ some '\n' := fun hh => hv (List.mem_of_head? hh)
      have hrest := count_le_indentAfter (w := w) v
      rw [indentAfter_newline, indentFirst, if_neg hhead]
      simp only [List.count_cons, List.count_append, List.count_replicate_self]
      omega

/-- A text stays as it is if and only if it has no line feed. -/
theorem reflow_eq_self_iff (hw : 0 < w) {v : List Char} : reflow w v = v ↔ '\n' ∉ v := by
  refine ⟨fun heq hmem => ?_, reflow_of_notMem⟩
  have hlt := count_lt_indentAfter hw (mem_dropReturns hmem)
  rw [← reflow, heq, count_dropReturns] at hlt
  omega

/-- What becomes of the value of an attribute. -/
def reflowText (width : Nat) (s : String) : String :=
  String.ofList (reflow width s.toList)

theorem reflowText_of_notMem {s : String} (h : '\n' ∉ s.toList) : reflowText w s = s := by
  rw [reflowText, reflow_of_notMem h, String.ofList_toList]

theorem reflowText_eq_self_iff (hw : 0 < w) {s : String} :
    reflowText w s = s ↔ '\n' ∉ s.toList := by
  rw [← reflow_eq_self_iff hw, reflowText, ← String.toList_inj, String.toList_ofList]

end DesignCompiler.Document
