import DesignCompiler.Proofs.Yaml.Words

/-!
# DesignCompiler — quotes in quoted texts

A quoted text has to be written with marks: a single quote is written twice, double quotes and
backslashes stand behind a backslash. So it cannot stand for itself, its quotes included.

* `marks`, `escapes` — the characters that need a mark, and the marks;
* `takeQuoted_countP` — a quoted text has no more of them than marks were used;
* `takeQuoted_lt` — so it is not the text that was written.
-/

namespace DesignCompiler.Yaml

variable {c c' : Cursor} {g g' : Gap} {margin : Option Nat} {limit : Nat} {double : Bool}

/-- The characters that do not stand for themselves. -/
def marks (double : Bool) (x : Char) : Bool :=
  if double then x == '"' || x == '\\' else x == '\''

/-- The character that is put in front of them. -/
def escapes (double : Bool) (x : Char) : Bool :=
  if double then x == '\\' else x == '\''

theorem marks_of_escapes {x : Char} (h : escapes double x = true) : marks double x = true := by
  cases double with
  | false => exact h
  | true => rw [marks, if_pos rfl, show (x == '\\') = true from h, Bool.or_true]

theorem marks_of_isGap {x : Char} (h : isGap x = true) : marks double x = false := by
  rw [Bool.eq_false_iff]
  intro hmarks
  cases double <;> simp [marks] at hmarks <;> rcases hmarks with rfl | rfl <;> cases h

/-! ## Steps -/

namespace Cursor

theorem skip_suffix (c : Cursor) (n : Nat) : (c.skip n).rest <:+ c.rest :=
  List.drop_suffix n c.rest

theorem skipBreak_suffix (c : Cursor) : c.skipBreak.rest <:+ c.rest := by
  rw [skipBreak]
  split
  · rename_i hrest
    exact ⟨['\r', '\n'], hrest.symm⟩
  · rename_i x rest _ hrest
    exact ⟨[x], hrest.symm⟩
  · exact List.suffix_refl _

end Cursor

theorem takeGap_suffix (h : takeGap margin limit g c = some (g', c')) : c'.rest <:+ c.rest := by
  refine takeGap_preserves (P := fun _ c' => c'.rest <:+ c.rest) ?_ ?_ ?_ (List.suffix_refl _) h
  · exact fun _ c' _ _ hc' _ _ _ => (c'.skip_suffix 1).trans hc'
  · exact fun _ c' _ _ hc' _ _ _ => (c'.skip_suffix 1).trans hc'
  · exact fun _ c' _ _ hc' _ _ => c'.skipBreak_suffix.trans hc'

/-- Gaps stand for gaps. -/
def Gap.IsGap (g : Gap) : Prop :=
  (∀ x ∈ g.blanks, isGap x = true) ∧ ∀ x ∈ g.breaks, isGap x = true

theorem isGap_foldedBreak {x : Char} (h : isBreak x = true) : isGap (Cursor.foldedBreak x) = true := by
  rw [Cursor.foldedBreak]
  split
  · exact isGap_of_isBreak h
  · rfl

theorem takeGap_isGap (hg : g.IsGap) (h : takeGap margin limit g c = some (g', c')) : g'.IsGap := by
  refine takeGap_preserves (P := fun g _ => g.IsGap) ?_ ?_ ?_ hg h
  · intro g c x rest hg _ hx _
    exact ⟨fun y hy => (List.mem_append.mp hy).elim (hg.1 y)
      fun hy => List.mem_singleton.mp hy ▸ isGap_of_isBlank hx, hg.2⟩
  · exact fun _ _ _ _ hg _ _ _ => hg
  · intro g c x rest hg _ hx
    exact ⟨nofun, fun y hy => (List.mem_append.mp hy).elim (hg.2 y)
      fun hy => List.mem_singleton.mp hy ▸ isGap_foldedBreak hx⟩

theorem Gap.IsGap.text (hg : g.IsGap) : ∀ x ∈ g.text, isGap x = true := by
  obtain ⟨hblanks, hbreaks⟩ := hg
  rw [Gap.text]
  split
  · exact hblanks
  · simp [isGap, isBlank]
  · rename_i more heq
    exact fun x hx => hbreaks x (heq ▸ List.mem_cons_of_mem _ hx)
  · exact hbreaks

/-! ## Marks -/

theorem countP_marks_of_isGap {xs : List Char} (h : ∀ x ∈ xs, isGap x = true) :
    xs.countP (marks double) = 0 := by
  rw [List.countP_eq_zero]
  intro x hx
  rw [marks_of_isGap (h x hx)]
  exact Bool.false_ne_true

/-- A character is written behind a mark, or it needs none. -/
theorem quotedStep_cases {cs : List Char} {x y : Char} {n : Nat}
    (h : quotedStep double (y :: cs) = .char x n) :
    escapes double y = true ∧ 0 < n ∨ marks double x = false := by
  rw [quotedStep.eq_def] at h
  dsimp only at h
  split at h
  · cases h
  split at h
  · -- a single quote, which is there twice
    rename_i hquote
    obtain ⟨rfl, rfl⟩ : double = false ∧ y = '\'' := by simpa using hquote
    split at h
    · obtain ⟨-, rfl⟩ := Step.char.inj h
      exact Or.inl ⟨rfl, by decide⟩
    · cases h
  split at h
  · cases h
  split at h
  · -- a backslash, and what it stands for
    rename_i hbackslash
    obtain ⟨rfl, rfl⟩ : double = true ∧ y = '\\' := by simpa using hbackslash
    refine Or.inl ⟨rfl, ?_⟩
    split at h
    · cases h
    split at h
    · cases h
    split at h
    · obtain ⟨-, rfl⟩ := Step.char.inj h
      decide
    split at h
    · cases h
    split at h
    · obtain ⟨-, rfl⟩ := Step.char.inj h
      omega
    · cases h
  · -- any other character, as it stands
    rename_i hsingle hdouble hbackslash
    obtain ⟨rfl, rfl⟩ := Step.char.inj h
    refine Or.inr ?_
    cases double <;> simp_all [marks]

/-- A character that needs a mark is written with one. -/
theorem quotedStep_char {cs : List Char} {x : Char} {n : Nat} (h : quotedStep double cs = .char x n)
    (hx : marks double x = true) : 0 < (cs.take n).countP (escapes double) := by
  cases cs with
  | nil => cases h
  | cons y cs =>
    rcases quotedStep_cases h with ⟨hy, hn⟩ | hnone
    · obtain ⟨n, rfl⟩ := Nat.exists_eq_add_of_le' hn
      rw [List.take_succ_cons, List.countP_cons_of_pos hy]
      exact Nat.succ_pos _
    · cases hnone.symm.trans hx

/-- The marks are taken with the characters that they mark. -/
theorem takeQuotedRun_countP {xs : List Char} {joined : Bool}
    (h : takeQuotedRun double limit c = some (xs, joined, c')) :
    xs.countP (marks double) + c'.rest.countP (escapes double) ≤
      c.rest.countP (escapes double) := by
  induction limit generalizing c xs with
  | zero => cases h
  | succ limit ih =>
    rw [takeQuotedRun] at h
    cases hstep : quotedStep double c.rest with
    | char x n =>
      rw [hstep] at h
      obtain ⟨⟨xs, joined, c₁⟩, hrun, h⟩ := Option.bind_eq_some_iff.mp h
      obtain ⟨rfl, rfl, rfl⟩ := by simpa using h
      have hsplit : c.rest.countP (escapes double) = (c.rest.take n).countP (escapes double) +
          (c.skip n).rest.countP (escapes double) := by
        rw [← List.countP_append, Cursor.skip, List.take_append_drop]
      have hrest := ih hrun
      rw [List.countP_cons]
      split
      · rename_i hx
        -- A marking character is written with an escape, which pays for it.
        have hpos := quotedStep_char hstep hx
        omega
      · omega
    | join =>
      rw [hstep] at h
      obtain ⟨rfl, rfl, rfl⟩ := by simpa using h
      rw [List.countP_nil, Nat.zero_add]
      exact ((c.skip 1).skipBreak_suffix.trans (c.skip_suffix 1)).sublist.countP_le
    | stop =>
      rw [hstep] at h
      obtain ⟨rfl, rfl, rfl⟩ := by simpa using h
      exact Nat.le_of_eq (by rw [List.countP_nil, Nat.zero_add])
    | bad =>
      rw [hstep] at h
      cases h

theorem takeQuotedGap_countP {text : List Char} {joined : Bool}
    (h : takeQuotedGap joined c = some (text, c')) :
    text.countP (marks double) + c'.rest.countP (escapes double) ≤
      c.rest.countP (escapes double) := by
  -- A gap has only blanks and breaks, which mark nothing.
  have hgap : (∀ x ∈ text, isGap x = true) ∧ c'.rest <:+ c.rest := by
    rw [takeQuotedGap] at h
    cases joined with
    | false =>
      obtain ⟨⟨g, next⟩, hg, h⟩ := Option.bind_eq_some_iff.mp h
      obtain ⟨rfl, rfl⟩ := Prod.mk.inj (Option.some.inj h)
      exact ⟨(takeGap_isGap (by simp [Gap.IsGap]) hg).text, takeGap_suffix hg⟩
    | true =>
      obtain ⟨⟨g, next⟩, hg, h⟩ := Option.bind_eq_some_iff.mp h
      obtain ⟨rfl, rfl⟩ := Prod.mk.inj (Option.some.inj h)
      have hbreaks := (takeGap_isGap (by simp [Gap.IsGap, isGap, isBreak]) hg).2
      exact ⟨fun x hx => hbreaks x (List.mem_of_mem_drop hx), takeGap_suffix hg⟩
  rw [countP_marks_of_isGap hgap.1, Nat.zero_add]
  exact hgap.2.sublist.countP_le

/-- A quoted text has no more of the characters that need marks than marks stand in it. -/
theorem takeQuoted_countP {text : List Char} (h : takeQuoted double limit c = some (text, c')) :
    text.countP (marks double) + c'.rest.countP (escapes double) ≤
      c.rest.countP (escapes double) := by
  induction limit generalizing c text with
  | zero => cases h
  | succ limit ih =>
    rw [takeQuoted] at h
    split at h
    · cases h
    obtain ⟨⟨run, joined, c₁⟩, hrun, h⟩ := Option.bind_eq_some_iff.mp h
    -- The run, the gap behind it and the rest each pay for their own marks.
    have hle := takeQuotedRun_countP hrun
    dsimp only at h
    generalize (if double = true then '"' else '\'') = quote at h
    split at h
    · obtain ⟨rfl, rfl⟩ := Prod.mk.inj (Option.some.inj h)
      have hskip := (c₁.skip_suffix 1).sublist.countP_le (p := escapes double)
      omega
    · split at h
      · cases h
      obtain ⟨⟨gap, c₂⟩, hgap, h⟩ := Option.bind_eq_some_iff.mp h
      obtain ⟨⟨more, c₃⟩, hmore, h⟩ := Option.bind_eq_some_iff.mp h
      obtain ⟨rfl, rfl⟩ := Prod.mk.inj (Option.some.inj h)
      have hgap : gap.countP (marks double) + c₂.rest.countP (escapes double) ≤
          c₁.rest.countP (escapes double) := takeQuotedGap_countP hgap
      have hmore := ih hmore
      dsimp only at hmore ⊢
      simp only [List.countP_append]
      omega

/-- Behind a quote that is one of its characters, no text can be read as it stands. -/
theorem takeQuoted_lt {text cs mid tail : List Char} {quote : Char}
    (h : takeQuoted double limit c = some (text, c')) (hquote : marks double quote = true)
    (hc : c.rest = mid ++ tail) (hmid : (quote :: mid).Sublist cs)
    (htail : tail.countP (escapes double) = 0) :
    text.countP (marks double) < cs.countP (marks double) := by
  have htext := takeQuoted_countP h
  have hle : mid.countP (escapes double) ≤ mid.countP (marks double) :=
    List.countP_mono_left fun _ _ => marks_of_escapes
  have hcs := hmid.countP_le (p := marks double)
  rw [List.countP_cons_of_pos hquote] at hcs
  rw [hc, List.countP_append, htail] at htext
  omega

end DesignCompiler.Yaml
