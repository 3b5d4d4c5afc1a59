import DesignCompiler.Proofs.ClassName.Allocation

/-!
# DesignCompiler — the slugs of pages

The slug of a page is handed out like a class without a prefix, with a fallback for names that have no
letter and no digit. So it can stand in a file name: it begins with a letter and has neither dots nor
slashes.

* `IsSlug` — the texts that slugs of pages are;
* `baseSlug_head`, `guardDigit_head` — with which character they begin;
* `allocate_isSlug` — they are all that is handed out without a prefix.
-/

namespace DesignCompiler.ClassName

/-- A text of small letters, digits and dashes that begins with a letter. -/
structure IsSlug (s : String) : Prop where
  head : ∃ c ∈ s.toList.head?, c.isLower = true
  chars : ∀ c ∈ s.toList, c.isLower = true ∨ c.isDigit = true ∨ c = '-'

namespace IsSlug

variable {s : String}

theorem ne_empty (h : IsSlug s) : s ≠ "" := by
  rintro rfl
  obtain ⟨c, hc, -⟩ := h.head
  exact nomatch hc

/-- No other character is in a slug. -/
theorem notMem (h : IsSlug s) {c : Char} (hlower : c.isLower = false) (hdigit : c.isDigit = false)
    (hdash : c ≠ '-') : c ∉ s.toList := by
  intro hc
  rcases h.chars c hc with hc | hc | hc
  · exact absurd (hlower.symm.trans hc) Bool.false_ne_true
  · exact absurd (hdigit.symm.trans hc) Bool.false_ne_true
  · exact hdash hc

end IsSlug

/-! ## The first character -/

/-- A slug that is not empty begins with the first of its words. -/
theorem slug_head {name : String} (h : (slug name).toList ≠ []) :
    ∃ c ∈ (slug name).toList.head?, isSlugChar c = true := by
  rw [slug, String.toList_ofList] at h ⊢
  -- no word is empty, so the first one has the first character
  cases hws : slugWords name.toList with
  | nil =>
    rw [hws] at h
    exact absurd rfl h
  | cons w ws =>
    have hmem : w ∈ slugWords name.toList := hws ▸ List.mem_cons_self ..
    have hw : w ≠ [] := Text.ne_nil_of_mem_words hmem
    obtain ⟨c, cs, rfl⟩ := List.exists_cons_of_ne_nil hw
    refine ⟨c, ?_, Text.mem_of_mem_words hmem (List.mem_cons_self ..)⟩
    rw [Text.head?_intercalate hw]
    rfl

theorem baseSlug_head {fallback : String} (hfallback : (slug fallback).toList ≠ [])
    (name : String) : ∃ c ∈ (baseSlug name fallback).head?, isSlugChar c = true := by
  rw [baseSlug]
  split
  · exact slug_head hfallback
  · rename_i hname
    exact slug_head fun hnil => hname (by rw [hnil]; rfl)

/-- A digit does not stay in front. -/
theorem guardDigit_head {cs : List Char} (h : ∃ c ∈ cs.head?, isSlugChar c = true) :
    ∃ c ∈ (guardDigit cs).head?, c.isLower = true := by
  obtain ⟨c, hc, hslug⟩ := h
  obtain ⟨rest, rfl⟩ := List.head?_eq_some_iff.mp hc
  rw [guardDigit]
  by_cases hdigit : c.isDigit = true
  · rw [if_pos hdigit]
    exact ⟨'c', rfl, by decide⟩
  · rw [if_neg hdigit]
    refine ⟨c, rfl, ?_⟩
    rw [isSlugChar, Bool.or_eq_true] at hslug
    exact hslug.resolve_right hdigit

/-! ## Slugs that are handed out -/

theorem identifier_isSlug {fallback : String} (hfallback : (slug fallback).toList ≠ [])
    (name : String) : IsSlug (identifier name fallback none) := by
  have hchars : (identifier name fallback none).toList = guardDigit (baseSlug name fallback) := by
    rw [identifier, String.toList_ofList]
    rfl
  constructor
  · rw [hchars]
    exact guardDigit_head (baseSlug_head hfallback name)
  · intro c hc
    rw [hchars] at hc
    -- a character of the name, or of the `c-` in front of a digit
    rcases mem_guardDigit hc with hc | rfl | rfl
    · rcases mem_baseSlug hc with hc | hc
      · rw [isSlugChar, Bool.or_eq_true] at hc
        exact hc.imp_right Or.inl
      · exact Or.inr (Or.inr hc)
    · exact Or.inl (by decide)
    · exact Or.inr (Or.inr rfl)

/-- A number behind a slug changes nothing about it. -/
theorem IsSlug.candidate {raw : String} (h : IsSlug raw) (n : Nat) : IsSlug (candidate raw n) := by
  constructor
  · obtain ⟨c, hc, hlower⟩ := h.head
    refine ⟨c, ?_, hlower⟩
    cases n with
    | zero => exact hc
    | succ n =>
      obtain ⟨rest, hraw⟩ := List.head?_eq_some_iff.mp hc
      rw [toList_candidate_succ, hraw]
      rfl
  · intro c hc
    rcases mem_candidate hc with hc | hc | hc
    · exact h.chars c hc
    · exact Or.inr (Or.inr hc)
    · exact Or.inr (Or.inl hc)

theorem IsSlug.firstFree {taken : List String} {raw s : String} (h : IsSlug raw)
    (hs : FirstFree taken raw s) : IsSlug s := by
  cases hs with
  | plain => exact h
  | @numbered n hn =>
    obtain ⟨k, rfl⟩ := Nat.exists_eq_add_of_le' hn
    exact h.candidate (k + 1)

theorem allocate_isSlug {a : Allocator} (hlead : a.lead = none) {fallback : String}
    (hfallback : (slug fallback).toList ≠ []) (name : String) :
    IsSlug (a.allocate name fallback).1 := by
  rw [Allocator.allocate, hlead]
  exact (identifier_isSlug hfallback name).firstFree (firstFree_spec _ _)

/-- The fallback of pages. -/
theorem slug_page_ne_nil : (slug "page").toList ≠ [] := by decide +kernel

end DesignCompiler.ClassName
