import DesignCompiler.Proofs.Text.Spans
import DesignCompiler.Text.Words

/-!
# DesignCompiler — the words of a text

Where two texts are put together, the words of the whole are those of its parts, unless a word goes
on from one to the other.

* `words_append` — texts without a common word;
* `flatten_words`, `mem_of_mem_words` — the words hold all that passes the test, and nothing else;
* `words_eq_singleton_iff` — the texts that are one word between other characters;
* `intercalate_words_gap`, `intercalate_words_join` — the words of two texts, put together with
  separators between them;
* `words_intercalate`, `filter_intercalate_words` — words that are put together can be found again.
-/

namespace DesignCompiler.Text

variable {p : Char → Bool}

/-! ## Words of two texts -/

theorem words_eq_nil {cs : List Char} (h : ∀ c ∈ cs, p c = false) : words p cs = [] := by
  fun_induction words p cs with
  | case1 => rfl
  | case2 c hc => simp [h c (by simp)] at hc
  | case3 => rfl
  | case4 c d cs hc ih => exact ih fun x hx => h x (List.mem_cons_of_mem _ hx)
  | case5 c d cs hc => simp [h c (by simp)] at hc
  | case6 c d cs hc => simp [h c (by simp)] at hc
  | case7 c d cs hc => simp [h c (by simp)] at hc

/-- A text of characters that pass the test is one word. -/
theorem words_of_forall {w : List Char} (hne : w ≠ []) (h : ∀ c ∈ w, p c = true) :
    words p w = [w] := by
  induction w with
  | nil => exact absurd rfl hne
  | cons c cs ih =>
    cases cs with
    | nil => simp [words, h c (by simp)]
    | cons d ds =>
      have hrest := ih (List.cons_ne_nil d ds) fun x hx => h x (List.mem_cons_of_mem _ hx)
      simp [words, h c (by simp), h d (by simp), hrest]

/-- The first word of a text that begins with one. -/
theorem exists_words_cons {d : Char} (hd : p d = true) (ds : List Char) :
    ∃ w ws, words p (d :: ds) = (d :: w) :: ws := by
  cases ds with
  | nil => exact ⟨[], [], by simp [words, hd]⟩
  | cons e es =>
    simp only [words, hd, Bool.not_true, Bool.false_eq_true, if_false]
    split
    · split
      · exact ⟨[], [], rfl⟩
      · exact ⟨_, _, rfl⟩
    · exact ⟨[], _, rfl⟩

/-- The last word of a text that ends with one. -/
theorem exists_words_concat {d : Char} (hd : p d = true) (cs : List Char) :
    ∃ ws w, words p (cs ++ [d]) = ws ++ [w ++ [d]] := by
  induction cs with
  | nil => exact ⟨[], [], by simp [words, hd]⟩
  | cons c cs ih =>
    obtain ⟨ws, w, hw⟩ := ih
    -- what follows `c` is not empty
    obtain ⟨e, es, he⟩ := List.exists_cons_of_ne_nil (List.append_ne_nil_of_right_ne_nil cs
      (List.cons_ne_nil d []))
    rw [he] at hw
    rw [List.cons_append, he, words, hw]
    by_cases hc : p c = true
    · by_cases hpe : p e = true
      · cases ws with
        | nil => exact ⟨[], c :: w, by simp [hc, hpe]⟩
        | cons v vs => exact ⟨(c :: v) :: vs, w, by simp [hc, hpe]⟩
      · exact ⟨[c] :: ws, w, by simp [hc, hpe]⟩
    · exact ⟨ws, w, by simp [hc]⟩

/-- If no word goes on from one text to the other, each has its own. -/
theorem words_append {a b : List Char}
    (h : ∀ c ∈ a.getLast?, ∀ d ∈ b.head?, p c = true → p d = false) :
    words p (a ++ b) = words p a ++ words p b := by
  induction a with
  | nil => rfl
  | cons c cs ih =>
    cases cs with
    | nil =>
      cases b with
      | nil => simp [words]
      | cons d ds =>
        by_cases hc : p c = true
        · simp [words, hc, h c (by simp) d (by simp) hc]
        · simp [words, hc]
    | cons d ds =>
      have hrest := ih (by simpa using h)
      rw [List.cons_append] at hrest
      rw [List.cons_append, List.cons_append, words, words, hrest]
      by_cases hc : p c = true
      · by_cases hd : p d = true
        · -- the word of `c` and `d` goes on in the first text
          obtain ⟨w, ws, hw⟩ := exists_words_cons hd ds
          simp [hc, hd, hw]
        · simp [hc, hd]
      · simp [hc]

theorem words_append_of_getLast {a b : List Char} (h : ∀ c ∈ a.getLast?, p c = false) :
    words p (a ++ b) = words p a ++ words p b := by
  refine words_append fun c hc d _ hpc => ?_
  rw [h c hc] at hpc
  exact nomatch hpc

theorem words_append_of_head {a b : List Char} (h : ∀ d ∈ b.head?, p d = false) :
    words p (a ++ b) = words p a ++ words p b :=
  words_append fun _ _ d hd _ => h d hd

theorem flatten_words (p : Char → Bool) (cs : List Char) : (words p cs).flatten = cs.filter p := by
  fun_induction words p cs with
  | case1 => rfl
  | case2 c hc => simp [hc]
  | case3 c hc => simp [hc]
  | case4 c d cs hc ih =>
    have hneg : ¬ p c = true := by simpa using hc
    rw [ih, List.filter_cons_of_neg hneg]
  | case5 c d cs hc hd hws ih =>
    rw [hws, List.flatten_nil] at ih
    rw [List.filter_cons_of_pos (by simpa using hc), ← ih]
    rfl
  | case6 c d cs hc hd w ws hws ih =>
    rw [hws, List.flatten_cons] at ih
    rw [List.filter_cons_of_pos (by simpa using hc), ← ih, List.flatten_cons, List.cons_append]
  | case7 c d cs hc hd ih =>
    rw [List.filter_cons_of_pos (by simpa using hc), List.flatten_cons, ih]
    rfl

/-- A word is made of characters that pass the test. -/
theorem mem_of_mem_words {cs w : List Char} (hw : w ∈ words p cs) {c : Char} (hc : c ∈ w) :
    p c = true := by
  have hmem : c ∈ (words p cs).flatten := List.mem_flatten_of_mem hw hc
  rw [flatten_words, List.mem_filter] at hmem
  exact hmem.2

theorem ne_nil_of_mem_words {cs w : List Char} (hw : w ∈ words p cs) :
    w ≠ [] := by
  fun_induction words p cs generalizing w with
  | case1 => simp at hw
  | case2 d hd => simp_all
  | case3 => simp at hw
  | case4 d e ds hd ih => exact ih hw
  | case5 d e ds hd he hws => simp_all
  | case6 d e ds hd he v vs hws ih =>
    rcases List.mem_cons.mp hw with rfl | hw
    · exact List.cons_ne_nil _ _
    · exact ih (hws ▸ List.mem_cons_of_mem _ hw)
  | case7 d e ds hd he ih =>
    rcases List.mem_cons.mp hw with rfl | hw
    · exact List.cons_ne_nil _ _
    · exact ih hw

/-! ## A single word -/

/-- A text has one word if there is nothing else around it that passes the test. -/
theorem words_eq_singleton_iff {cs w : List Char} :
    words p cs = [w] ↔ ∃ before after, cs = before ++ w ++ after ∧
      (∀ c ∈ before ++ after, p c = false) ∧ w ≠ [] ∧ ∀ c ∈ w, p c = true := by
  constructor
  · intro h
    -- the text up to the first word, this word, and the rest
    obtain ⟨before, rest, rfl, hbefore, hrest⟩ := exists_span (fun c => !p c) cs
    obtain ⟨v, after, rfl, hv, hafter⟩ := exists_span p rest
    simp only [Bool.not_eq_eq_eq_not, Bool.not_true, Bool.not_false] at hbefore hrest
    rw [words_append_of_getLast fun c hc => hbefore c (List.mem_of_getLast? hc),
      words_eq_nil hbefore, List.nil_append] at h
    cases v with
    | nil =>
      -- nothing that passes the test is left
      cases after with
      | nil => exact nomatch h
      | cons d ds => exact absurd (hrest d rfl) (by simp [hafter d rfl])
    | cons d ds =>
      rw [words_append_of_head hafter, words_of_forall (List.cons_ne_nil d ds) hv,
        List.singleton_append, List.cons.injEq] at h
      obtain ⟨rfl, hnil⟩ := h
      have hnone := flatten_words p after
      rw [hnil, List.flatten_nil, eq_comm, List.filter_eq_nil_iff] at hnone
      refine ⟨before, after, (List.append_assoc ..).symm, fun c hc => ?_, List.cons_ne_nil d ds, hv⟩
      rcases List.mem_append.mp hc with hc | hc
      · exact hbefore c hc
      · exact Bool.not_eq_true _ ▸ hnone c hc
  · rintro ⟨before, after, rfl, hnone, hne, hw⟩
    have hbefore : ∀ c ∈ before, p c = false := fun c hc => hnone c (List.mem_append_left _ hc)
    have hafter : ∀ c ∈ after, p c = false := fun c hc => hnone c (List.mem_append_right _ hc)
    rw [words_append_of_head fun d hd => hafter d (List.mem_of_head? hd),
      words_append_of_getLast fun c hc => hbefore c (List.mem_of_getLast? hc),
      words_eq_nil hbefore, words_eq_nil hafter, words_of_forall hne hw]
    rfl

/-! ## Words with separators between them -/

theorem mem_intercalate {sep : List Char} {ws : List (List Char)} {c : Char}
    (h : c ∈ sep.intercalate ws) : c ∈ sep ∨ ∃ w ∈ ws, c ∈ w := by
  rw [List.intercalate, List.mem_flatten] at h
  obtain ⟨w, hw, hc⟩ := h
  induction ws with
  | nil => simp at hw
  | cons v vs ih =>
    cases vs with
    | nil =>
      rw [List.intersperse_singleton, List.mem_singleton] at hw
      exact Or.inr ⟨v, List.mem_cons_self .., hw ▸ hc⟩
    | cons u us =>
      rw [List.intersperse_cons_cons, List.mem_cons, List.mem_cons] at hw
      rcases hw with rfl | rfl | hw
      · exact Or.inr ⟨w, List.mem_cons_self .., hc⟩
      · exact Or.inl hc
      · exact (ih hw).imp_right fun ⟨x, hx, hcx⟩ => ⟨x, List.mem_cons_of_mem _ hx, hcx⟩

theorem head?_intercalate {sep w : List Char} {ws : List (List Char)} (hw : w ≠ []) :
    (sep.intercalate (w :: ws)).head? = w.head? := by
  cases ws with
  | nil => rw [List.intercalate_singleton]
  | cons v vs =>
    rw [List.intercalate_cons_cons, List.append_assoc, List.head?_append_of_ne_nil _ hw]

theorem intercalate_append {sep : List Char} {xs ys : List (List Char)} (hx : xs ≠ [])
    (hy : ys ≠ []) :
    sep.intercalate (xs ++ ys) = sep.intercalate xs ++ sep ++ sep.intercalate ys := by
  induction xs with
  | nil => exact absurd rfl hx
  | cons x xs ih =>
    by_cases hnil : xs = []
    · rw [hnil, List.singleton_append, List.intercalate_cons_of_ne_nil hy,
        List.intercalate_singleton]
    · rw [List.cons_append, List.intercalate_cons_of_ne_nil (by simp [hnil]), ih hnil,
        List.intercalate_cons_of_ne_nil hnil]
      simp only [List.append_assoc]

/-- A word with separators around it is put together from its two parts. -/
theorem intercalate_join {sep w v : List Char} (xs ys : List (List Char)) :
    sep.intercalate (xs ++ (w ++ v) :: ys) =
      sep.intercalate (xs ++ [w]) ++ sep.intercalate (v :: ys) := by
  have hword : sep.intercalate ((w ++ v) :: ys) = w ++ sep.intercalate (v :: ys) := by
    cases ys with
    | nil => rw [List.intercalate_singleton, List.intercalate_singleton]
    | cons y ys => simp only [List.intercalate_cons_cons, List.append_assoc]
  by_cases hnil : xs = []
  · rw [hnil, List.nil_append, List.nil_append, List.intercalate_singleton, hword]
  · rw [intercalate_append hnil (List.cons_ne_nil _ _),
      intercalate_append hnil (List.cons_ne_nil _ _), hword, List.intercalate_singleton]
    simp only [List.append_assoc]

/-- Words of two texts that have a gap between them. -/
theorem intercalate_words_gap {sep a gap b : List Char} (hgap : ∀ c ∈ gap, p c = false)
    (hne : gap ≠ []) (ha : words p a ≠ []) (hb : words p b ≠ []) :
    sep.intercalate (words p (a ++ gap ++ b)) =
      sep.intercalate (words p a) ++ sep ++ sep.intercalate (words p b) := by
  have hend : ∀ c ∈ (a ++ gap).getLast?, p c = false := by
    intro c hc
    rw [List.getLast?_append_of_ne_nil _ hne] at hc
    exact hgap c (List.mem_of_getLast? hc)
  rw [words_append_of_getLast hend, words_append_of_head fun d hd => hgap d (List.mem_of_head? hd),
    words_eq_nil hgap, List.append_nil, intercalate_append ha hb]

/-- Words of two texts of which one goes on from the first to the second. -/
theorem intercalate_words_join {sep a b : List Char} {c d : Char} (hc : p c = true)
    (hd : p d = true) :
    sep.intercalate (words p (a ++ c :: d :: b)) =
      sep.intercalate (words p (a ++ [c])) ++ sep.intercalate (words p (d :: b)) := by
  -- `w` is the part of the word in the first text, and `v` the part in the second
  obtain ⟨w', before', hfirst, hw', hbefore'⟩ := exists_span p (a ++ [c]).reverse
  obtain ⟨v, after, hsecond, hv, hafter⟩ := exists_span p (d :: b)
  obtain ⟨w, before, rfl, rfl⟩ : ∃ w before, w' = w.reverse ∧ before' = before.reverse :=
    ⟨w'.reverse, before'.reverse, w'.reverse_reverse.symm, before'.reverse_reverse.symm⟩
  rw [← List.reverse_append, List.reverse_inj] at hfirst
  rw [List.head?_reverse] at hbefore'
  have hw : ∀ x ∈ w, p x = true := by simpa using hw'
  have hwne : w ≠ [] := by
    rintro rfl
    rw [List.append_nil] at hfirst
    exact absurd (hbefore' c (by simp [← hfirst])) (by simp [hc])
  have hvne : v ≠ [] := by
    rintro rfl
    rw [List.nil_append] at hsecond
    exact absurd (hafter d (by simp [← hsecond])) (by simp [hd])
  have hboth : ∀ x ∈ w ++ v, p x = true := by
    intro x hx
    rcases List.mem_append.mp hx with hx | hx
    · exact hw x hx
    · exact hv x hx
  have hall : a ++ c :: d :: b = before ++ ((w ++ v) ++ after) := by
    rw [List.append_cons, hfirst, hsecond]
    simp only [List.append_assoc]
  rw [hall, hfirst, hsecond, words_append_of_getLast hbefore', words_append_of_head hafter,
    words_append_of_getLast hbefore', words_append_of_head hafter,
    words_of_forall (by simp [hwne]) hboth, words_of_forall hwne hw,
    words_of_forall hvne hv]
  exact intercalate_join _ _

/-- Words with a separator between them are the words of the whole. -/
theorem words_intercalate {sep : List Char} (hsep : ∀ c ∈ sep, p c = false) (hne : sep ≠ [])
    {ws : List (List Char)} (hws : ∀ w ∈ ws, w ≠ [] ∧ ∀ c ∈ w, p c = true) :
    words p (sep.intercalate ws) = ws := by
  induction ws with
  | nil => rfl
  | cons w ws ih =>
    obtain ⟨hw, hp⟩ := hws w (by simp)
    have hrest := ih fun v hv => hws v (List.mem_cons_of_mem _ hv)
    cases ws with
    | nil => rw [List.intercalate_singleton, words_of_forall hw hp]
    | cons v vs =>
      -- The separator ends the word, so the words of the two sides are apart.
      have hend : ∀ c ∈ (w ++ sep).getLast?, p c = false := by
        intro c hc
        rw [List.getLast?_append_of_ne_nil _ hne] at hc
        exact hsep c (List.mem_of_getLast? hc)
      rw [List.intercalate_cons_cons, words_append_of_getLast hend, hrest,
        words_append_of_head fun d hd => hsep d (List.mem_of_head? hd), words_of_forall hw hp,
        words_eq_nil hsep]
      rfl

theorem filter_intercalate {sep : List Char} (hsep : ∀ c ∈ sep, p c = false)
    (ws : List (List Char)) : (sep.intercalate ws).filter p = ws.flatten.filter p := by
  have hnone : sep.filter p = [] := List.filter_eq_nil_iff.mpr fun c hc => by simp [hsep c hc]
  induction ws with
  | nil => rfl
  | cons w ws ih =>
    cases ws with
    | nil => rw [List.intercalate_singleton, List.flatten_singleton]
    | cons v vs =>
      rw [List.intercalate_cons_cons, List.filter_append, List.filter_append, hnone,
        List.append_nil, ih, ← List.filter_append, ← List.flatten_cons]

/-- The words of a text have its letters, and the separators have none. -/
theorem filter_intercalate_words {sep : List Char} (hsep : ∀ c ∈ sep, p c = false)
    (cs : List Char) : (sep.intercalate (words p cs)).filter p = cs.filter p := by
  rw [filter_intercalate hsep, flatten_words, List.filter_filter]
  simp only [Bool.and_self]

/-- A text that ends with a letter ends with it as well when its words are put together. -/
theorem exists_intercalate_concat {sep : List Char} (hsep : ∀ c ∈ sep, p c = false) {d : Char}
    (hd : p d = true) (cs : List Char) :
    ∃ u, sep.intercalate (words p (cs ++ [d])) = u ++ [d] ∧ u.filter p = cs.filter p := by
  obtain ⟨ws, w, hws⟩ := exists_words_concat hd cs
  have hend : sep.intercalate (words p (cs ++ [d])) = sep.intercalate (ws ++ [w]) ++ [d] := by
    rw [hws, intercalate_join, List.intercalate_singleton]
  refine ⟨_, hend, ?_⟩
  have hletters := filter_intercalate_words hsep (cs ++ [d])
  rw [hend, List.filter_append, List.filter_append] at hletters
  exact List.append_cancel_right hletters

/-- A text that begins with a letter begins with it as well when its words are put together. -/
theorem exists_intercalate_cons {sep : List Char} (hsep : ∀ c ∈ sep, p c = false) {d : Char}
    (hd : p d = true) (cs : List Char) :
    ∃ v, sep.intercalate (words p (d :: cs)) = d :: v ∧ v.filter p = cs.filter p := by
  obtain ⟨w, ws, hws⟩ := exists_words_cons hd cs
  have hstart : sep.intercalate (words p (d :: cs)) = d :: sep.intercalate (w :: ws) := by
    have hjoin : sep.intercalate ([] ++ ([d] ++ w) :: ws) = _ := intercalate_join [] ws
    rwa [List.nil_append, List.nil_append, List.intercalate_singleton, List.singleton_append,
      List.singleton_append, ← hws] at hjoin
  refine ⟨_, hstart, ?_⟩
  have hletters := filter_intercalate_words hsep (d :: cs)
  rw [hstart, List.filter_cons_of_pos hd, List.filter_cons_of_pos hd] at hletters
  exact List.cons_inj_right d |>.mp hletters

end DesignCompiler.Text
