import DesignCompiler.Emission.Settings
import DesignCompiler.Proofs.ClassName.Slugs
import DesignCompiler.Proofs.ClassName.Succession
import Mathlib.Data.List.DropRight

/-!
# DesignCompiler — classes as tokens

A class stands in an attribute among other classes and behind the dot of a selector, so it has to be one
token that needs no escapes: a letter or an underscore, then letters, digits, underscores and dashes. The
name of a component and the prefix of a project may be any texts. A prefix that passed the checks of its
project is a token already, and stands in front of each class as it was given, but for dashes at its end.

* `IsClassToken`, `identifier_isClassToken` — every class name is a token;
* `cleanPrefix_eq_some` — a checked prefix is not altered inside;
* `IsPrefixed`, `identifier_isPrefixed` — what stands behind it;
* `IsClassToken.candidate`, `IsPrefixed.candidate` — numbers behind a name change nothing about either.
-/

namespace DesignCompiler.ClassName

/-- A text that is one class as it stands, in attributes and in selectors. -/
structure IsClassToken (s : String) : Prop where
  head : ∃ c ∈ s.toList.head?, c.isAlpha = true ∨ c = '_'
  chars : ∀ c ∈ s.toList, c.isAlphanum = true ∨ c = '_' ∨ c = '-'

theorem isPrefixChar_iff {c : Char} :
    isPrefixChar c = true ↔ c.isAlphanum = true ∨ c = '_' ∨ c = '-' := by
  simp only [isPrefixChar, Bool.or_eq_true, beq_iff_eq, or_assoc]

/-! ## The first character -/

/-- A text without dashes at its ends does not begin with one. -/
theorem not_of_head_trimBy {p : Char → Bool} {cs : List Char} {c : Char}
    (h : c ∈ (Text.trimBy p cs).head?) : p c = false := by
  -- what is left is the beginning of what is left when only the front is trimmed
  obtain ⟨rest, hrest⟩ : Text.trimBy p cs <+: cs.dropWhile p := List.rdropWhile_prefix p _
  obtain ⟨tail, htail⟩ := List.head?_eq_some_iff.mp h
  have hhead := List.head?_dropWhile_not p cs
  rw [← hrest, htail] at hhead
  simpa using hhead

theorem cleanPrefix_head {lead : String} {cs : List Char} (h : cleanPrefix lead = some cs) :
    ∃ c ∈ cs.head?, isPrefixChar c = true ∧ c ≠ '-' := by
  have hchars : ∀ c ∈ cs, isPrefixChar c = true := fun c hc => mem_cleanPrefix h hc
  rw [cleanPrefix] at h
  split at h
  · cases h
  · rename_i hne
    rw [Option.some.injEq] at h
    rw [h, List.isEmpty_iff] at hne
    obtain ⟨c, rest, rfl⟩ := List.exists_cons_of_ne_nil hne
    have hhead : c ∈ (Text.trimBy (· == '-') (Text.foldRuns isPrefixChar false lead.toList)).head? := by
      rw [h]
      rfl
    exact ⟨c, rfl, hchars c (List.mem_cons_self ..), by simpa using not_of_head_trimBy hhead⟩

/-- A name of such characters that begins with no dash begins as a token when it is guarded. -/
theorem guardDigit_head_isAlpha {cs : List Char}
    (h : ∃ c ∈ cs.head?, isPrefixChar c = true ∧ c ≠ '-') :
    ∃ c ∈ (guardDigit cs).head?, c.isAlpha = true ∨ c = '_' := by
  obtain ⟨c, hc, hchar, hdash⟩ := h
  obtain ⟨rest, rfl⟩ := List.head?_eq_some_iff.mp hc
  -- a digit gets a letter in front of it
  rw [guardDigit]
  by_cases hdigit : c.isDigit = true
  · rw [if_pos hdigit]
    exact ⟨'c', rfl, by decide⟩
  · rw [if_neg hdigit]
    refine ⟨c, rfl, ?_⟩
    have halphanum : c.isAlphanum = (c.isAlpha || c.isDigit) := rfl
    rcases isPrefixChar_iff.mp hchar with h | h | h
    · rw [halphanum, Bool.or_eq_true] at h
      exact Or.inl (h.resolve_right hdigit)
    · exact Or.inr h
    · exact absurd h hdash

/-- **Class names are tokens**, whatever the name and the prefix are, if there is a fallback. -/
theorem identifier_isClassToken {fallback : String} (hfallback : (slug fallback).toList ≠ [])
    (name : String) (lead : Option String) : IsClassToken (identifier name fallback lead) := by
  refine ⟨?_, fun c hc => isPrefixChar_iff.mp (identifier_isClassName name fallback lead c hc)⟩
  rw [identifier, String.toList_ofList]
  refine guardDigit_head_isAlpha ?_
  cases hlead : lead.bind cleanPrefix with
  | none =>
    -- slugs begin with a letter or a digit
    obtain ⟨c, hc, hslug⟩ := baseSlug_head hfallback name
    refine ⟨c, hc, isPrefixChar_of_slugChar hslug, ?_⟩
    rintro rfl
    exact absurd hslug (by decide)
  | some p =>
    obtain ⟨l, -, hl⟩ := Option.bind_eq_some_iff.mp hlead
    obtain ⟨c, hc, hchar⟩ := cleanPrefix_head hl
    obtain ⟨rest, rfl⟩ := List.head?_eq_some_iff.mp hc
    exact ⟨c, rfl, hchar⟩

theorem IsClassToken.candidate {raw : String} (h : IsClassToken raw) (n : Nat) :
    IsClassToken (candidate raw n) := by
  have hname : isClassName raw := fun c hc => isPrefixChar_iff.mpr (h.chars c hc)
  refine ⟨?_, fun c hc => isPrefixChar_iff.mp (candidate_isClassName hname n c hc)⟩
  obtain ⟨c, hc, halpha⟩ := h.head
  refine ⟨c, ?_, halpha⟩
  cases n with
  | zero => exact hc
  | succ n =>
    obtain ⟨rest, hraw⟩ := List.head?_eq_some_iff.mp hc
    rw [toList_candidate_succ, hraw]
    rfl

/-! ## Checked prefixes -/

theorem foldRuns_of_all {p : Char → Bool} {cs : List Char} (h : ∀ c ∈ cs, p c = true)
    (inRun : Bool) : Text.foldRuns p inRun cs = cs := by
  induction cs generalizing inRun with
  | nil => rfl
  | cons c cs ih =>
    obtain ⟨hc, hcs⟩ := List.forall_mem_cons.mp h
    rw [Text.foldRuns, if_pos hc, ih hcs]

/-- A text that begins with no dash keeps its first character when dashes are taken off its end. -/
theorem dropEndWhile_cons {p : Char → Bool} {c : Char} (h : p c = false) (cs : List Char) :
    ∃ rest, Text.dropEndWhile p (c :: cs) = c :: rest := by
  obtain ⟨rest, hrest⟩ : Text.dropEndWhile p (c :: cs) <+: c :: cs := List.rdropWhile_prefix p _
  cases hdrop : Text.dropEndWhile p (c :: cs) with
  | nil =>
    -- then all of it would have been taken off
    have hall := List.rdropWhile_eq_nil_iff.mp hdrop c (List.mem_cons_self ..)
    rw [h] at hall
    exact nomatch hall
  | cons d ds =>
    rw [hdrop] at hrest
    obtain rfl : d = c := (List.cons.inj hrest).1
    exact ⟨ds, rfl⟩

/-- A prefix that a project may have loses dashes at its end, and nothing else. -/
theorem cleanPrefix_eq_some {lead : String} (h : Settings.isPlainPrefix lead.toList = true) :
    ∃ c cs, c.isAlpha = true ∧ Text.dropEndWhile (· == '-') lead.toList = c :: cs ∧
      cleanPrefix lead = some (c :: cs) := by
  cases hchars : lead.toList with
  | nil =>
    rw [hchars] at h
    exact nomatch h
  | cons c cs =>
    rw [hchars, Settings.isPlainPrefix, Bool.and_eq_true, List.all_eq_true] at h
    obtain ⟨halpha, hrest⟩ := h
    have hdash : (c == '-') = false := by
      rw [beq_eq_false_iff_ne]
      rintro rfl
      exact absurd halpha (by decide)
    -- the prefix has allowed characters only, so no run of others is folded
    have hfold : Text.foldRuns isPrefixChar false (c :: cs) = c :: cs := by
      refine foldRuns_of_all (List.forall_mem_cons.mpr ⟨?_, fun d hd => ?_⟩) false
      · have halphanum : c.isAlphanum = (c.isAlpha || c.isDigit) := rfl
        rw [isPrefixChar_iff, halphanum, halpha]
        exact Or.inl rfl
      · have hd := hrest d hd
        rw [Bool.or_eq_true, Bool.or_eq_true, beq_iff_eq, beq_iff_eq] at hd
        rw [isPrefixChar_iff]
        tauto
    -- dashes are taken off at the end only: the first character is a letter
    obtain ⟨rest, hdrop⟩ := dropEndWhile_cons (p := (· == '-')) hdash cs
    have htrim : Text.trimBy (· == '-') (c :: cs) = c :: rest := by
      rw [Text.trimBy, List.dropWhile_cons_of_neg (by simp [hdash]), hdrop]
    refine ⟨c, rest, halpha, hdrop, ?_⟩
    rw [cleanPrefix, hchars, hfold]
    simp only [htrim]
    rfl

theorem not_isDigit_of_isAlpha {c : Char} (h : c.isAlpha = true) : ¬ c.isDigit = true := by
  have hletter : c.isAlpha =
      (decide ('A' ≤ c ∧ c ≤ 'Z') || (decide ('a' ≤ c) && decide (c ≤ 'z'))) := rfl
  have hdigit : c.isDigit = (decide ('0' ≤ c) && decide (c ≤ '9')) := rfl
  rw [hletter, Bool.or_eq_true, Bool.and_eq_true, decide_eq_true_eq, decide_eq_true_eq] at h
  rw [hdigit, Bool.and_eq_true, decide_eq_true_eq, decide_eq_true_eq]
  rintro ⟨-, hlast⟩
  -- all letters come after the digits
  have hfirst : 'A' ≤ c := by
    rcases h with hupper | hlower
    · exact hupper.1
    · exact Char.le_trans (by decide) hlower.1
  exact absurd (Char.le_trans hfirst hlast) (by decide)

/-- A prefix without the dashes at its end, a dash, and a text of small letters, digits and dashes. -/
def IsPrefixed (lead s : String) : Prop :=
  ∃ rest, rest ≠ [] ∧ s.toList = Text.dropEndWhile (· == '-') lead.toList ++ '-' :: rest ∧
    ∀ c ∈ rest, c.isLower = true ∨ c.isDigit = true ∨ c = '-'

/-- **A checked prefix stands in front of every class name** as it was given. -/
theorem identifier_isPrefixed {fallback lead : String} (hfallback : (slug fallback).toList ≠ [])
    (h : Settings.isPlainPrefix lead.toList = true) (name : String) :
    IsPrefixed lead (identifier name fallback (some lead)) := by
  obtain ⟨c, cs, halpha, hdrop, hclean⟩ := cleanPrefix_eq_some h
  refine ⟨baseSlug name fallback, ?_, ?_, fun d hd => ?_⟩
  · obtain ⟨d, hd, -⟩ := baseSlug_head hfallback name
    intro hnil
    rw [hnil] at hd
    cases hd
  · -- the prefix begins with a letter, so nothing is put in front of it
    rw [identifier, String.toList_ofList, Option.bind_some, hclean, hdrop]
    show guardDigit (c :: (cs ++ '-' :: baseSlug name fallback)) = _
    rw [guardDigit, if_neg (not_isDigit_of_isAlpha halpha)]
    rfl
  · rcases mem_baseSlug hd with hslug | hdash
    · rw [isSlugChar, Bool.or_eq_true] at hslug
      exact hslug.imp_right Or.inl
    · exact Or.inr (Or.inr hdash)

theorem IsPrefixed.candidate {lead raw : String} (h : IsPrefixed lead raw) (n : Nat) :
    IsPrefixed lead (candidate raw n) := by
  obtain ⟨rest, hne, hraw, hrest⟩ := h
  cases n with
  | zero => exact ⟨rest, hne, hraw, hrest⟩
  | succ n =>
    refine ⟨rest ++ '-' :: (Nat.repr (n + 2)).toList, by simp, ?_, fun c hc => ?_⟩
    · rw [toList_candidate_succ, hraw, List.append_assoc, List.cons_append]
    · rw [List.mem_append, List.mem_cons] at hc
      rcases hc with hc | hc | hc
      · exact hrest c hc
      · exact Or.inr (Or.inr hc)
      · rw [Nat.toList_repr] at hc
        exact Or.inr (Or.inl (isDigit_of_mem_toDigits hc))

end DesignCompiler.ClassName
