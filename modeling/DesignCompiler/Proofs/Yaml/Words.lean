import DesignCompiler.Yaml.Token
import Mathlib.Data.List.Basic
import Mathlib.Tactic.SplitIfs

/-!
# DesignCompiler — words of plain texts

A text without quotes is words with gaps between them. Words on one line are read as they stand; over
the end of a line the text becomes shorter.

* `takeGap_preserves`, `takeGap_crosses` — blanks and ends of lines between words;
* `takeWord_of`, `takeWord_eq_some` — words;
* `Words`, `takePlain_of_words` — words with blanks between them are read as they stand;
* `takePlain_cases` — one step of reading a text;
* `Folds`, `folds_of_takePlain` — what is read of other texts;
* `Folds.words` — so nothing else is read as it stands.
-/

namespace DesignCompiler.Yaml

variable {c c' : Cursor} {g g' : Gap} {margin limit : Nat} {x : Char}

/-! ## Gaps -/

/-- Characters in front of others are some of those before a place, unless they reach beyond it. -/
theorem exists_append_of_not_prefix {raw after mid rest : List Char} {x : Char}
    (hraw : ¬ mid ++ [x] <+: raw) (h : raw ++ after = mid ++ x :: rest) :
    ∃ m, mid = raw ++ m ∧ after = m ++ x :: rest := by
  rcases List.append_eq_append_iff.mp h with ⟨m, rfl, rfl⟩ | ⟨m, rfl, hrest⟩
  · exact ⟨m, rfl, rfl⟩
  · cases m with
    | nil => exact ⟨[], by simp, hrest.symm⟩
    | cons y m =>
      obtain ⟨rfl, -⟩ := List.cons.inj hrest
      exact absurd ⟨m, by simp⟩ hraw

theorem isGap_of_isBlank (h : isBlank x = true) : isGap x = true := by
  rw [isGap, h, Bool.true_or]

theorem isGap_of_isBreak (h : isBreak x = true) : isGap x = true := by
  rw [isGap, h, Bool.or_true]

theorem isBreak_of_isBlank (h : isBlank x = true) : isBreak x = false := by
  rw [isBlank, Bool.or_eq_true, beq_iff_eq, beq_iff_eq] at h
  rcases h with rfl | rfl <;> decide

/-- What the steps through a gap preserve holds behind it. -/
theorem takeGap_preserves {P : Gap → Cursor → Prop} {margin : Option Nat}
    (hblank : ∀ g c x rest, P g c → c.rest = x :: rest → isBlank x = true → g.breaks = [] →
      P { g with blanks := g.blanks ++ [x] } (c.skip 1))
    (hindent : ∀ g c x rest, P g c → c.rest = x :: rest → isBlank x = true → g.breaks ≠ [] →
      P g (c.skip 1))
    (hbreak : ∀ g c x rest, P g c → c.rest = x :: rest → isBreak x = true →
      P { breaks := g.breaks ++ [Cursor.foldedBreak x] } c.skipBreak)
    (hP : P g c) (h : takeGap margin limit g c = some (g', c')) : P g' c' := by
  induction limit generalizing g c with
  | zero => cases h
  | succ limit ih =>
    -- A blank before the first break, an indent behind one, or a break.
    rw [takeGap] at h
    split at h
    · obtain ⟨rfl, rfl⟩ := Prod.mk.inj (Option.some.inj h)
      exact hP
    · rename_i x rest hrest
      by_cases hx : isBlank x = true
      · rw [if_pos hx] at h
        by_cases hbreaks : g.breaks = []
        · rw [if_pos (by simpa using hbreaks)] at h
          exact ih (hblank g c x rest hP hrest hx hbreaks) h
        · rw [if_neg (by simpa using hbreaks)] at h
          split at h
          · cases h
          · exact ih (hindent g c x rest hP hrest hx hbreaks) h
      · rw [if_neg hx] at h
        by_cases hend : isBreak x = true
        · rw [if_pos hend] at h
          exact ih (hbreak g c x rest hP hrest hend) h
        · rw [if_neg hend] at h
          obtain ⟨rfl, rfl⟩ := Prod.mk.inj (Option.some.inj h)
          exact hP

/-- The characters at the end of a line. -/
theorem Cursor.exists_skipBreak {rest : List Char} (h : c.rest = x :: rest) (hx : isBreak x = true) :
    ∃ raw, c.rest = raw ++ c.skipBreak.rest ∧ raw ≠ [] ∧ (∀ y ∈ raw, isBreak y = true) ∧
      c.skipBreak.index = c.index + raw.length ∧ c.skipBreak.column = 0 := by
  rw [skipBreak]
  split
  · rename_i hrest
    exact ⟨['\r', '\n'], hrest, List.cons_ne_nil _ _, by simp [isBreak], rfl, rfl⟩
  · rename_i y more _ hrest
    obtain ⟨rfl, rfl⟩ := List.cons.inj (h.symm.trans hrest)
    exact ⟨[x], hrest, List.cons_ne_nil _ _, by simpa using hx, rfl, rfl⟩
  · rename_i hrest
    cases h.symm.trans hrest

/-- `g` is what stands between two places: so many characters, on the line or over its end. -/
structure Crosses (c : Cursor) (raw : List Char) (g : Gap) (next : Cursor) : Prop where
  rest : c.rest = raw ++ next.rest
  index : next.index = c.index + raw.length
  gap : ∀ x ∈ raw, isGap x = true
  /-- Blanks stay as they are; behind the end of a line those in front of the next word are lost. -/
  kind : (∀ x ∈ raw, isBlank x = true) ∧ g = { blanks := raw } ∧ next = c.skip raw.length ∨
    g.blanks = [] ∧ g.breaks ≠ [] ∧ g.breaks.length + next.column ≤ raw.length
  column : ∀ x ∈ raw.getLast?, isBreak x = true → next.column = 0

theorem Crosses.refl (c : Cursor) : Crosses c [] {} c :=
  ⟨rfl, rfl, nofun, Or.inl ⟨nofun, rfl, rfl⟩, nofun⟩

theorem Cursor.rest_skip_one {rest : List Char} (h : c.rest = x :: rest) :
    (c.skip 1).rest = rest := by
  rw [skip, h, List.drop_one, List.tail_cons]

/-- Past one more blank. -/
theorem Crosses.blank {raw rest : List Char} (h : Crosses c raw g c') (hrest : c'.rest = x :: rest)
    (hx : isBlank x = true) :
    Crosses c (raw ++ [x]) (if g.breaks = [] then { g with blanks := g.blanks ++ [x] } else g)
      (c'.skip 1) := by
  refine ⟨?_, ?_, ?_, ?_, ?_⟩
  · rw [h.rest, hrest, Cursor.rest_skip_one hrest, List.append_assoc, List.singleton_append]
  · simp [Cursor.skip, h.index, Nat.add_assoc]
  · exact fun y hy => (List.mem_append.mp hy).elim (h.gap y)
      fun hy => List.mem_singleton.mp hy ▸ isGap_of_isBlank hx
  · rcases h.kind with ⟨hblanks, rfl, rfl⟩ | ⟨hblanks, hbreaks, hle⟩
    · refine Or.inl ⟨?_, rfl, by simp [Cursor.skip, Nat.add_assoc]⟩
      exact fun y hy => (List.mem_append.mp hy).elim (hblanks y)
        fun hy => List.mem_singleton.mp hy ▸ hx
    · rw [if_neg hbreaks]
      refine Or.inr ⟨hblanks, hbreaks, ?_⟩
      simp only [Cursor.skip, List.length_append, List.length_singleton]
      omega
  · intro y hy hend
    obtain rfl : x = y := by simpa using hy
    cases (isBreak_of_isBlank hx).symm.trans hend

/-- Past the end of a line. -/
theorem Crosses.line {raw rest : List Char} (h : Crosses c raw g c') (hrest : c'.rest = x :: rest)
    (hx : isBreak x = true) :
    ∃ raw, Crosses c raw { breaks := g.breaks ++ [Cursor.foldedBreak x] } c'.skipBreak := by
  obtain ⟨line, hline, hne, hbreaks, hindex, hcolumn⟩ := Cursor.exists_skipBreak hrest hx
  have hlength : 0 < line.length := List.length_pos_iff.mpr hne
  refine ⟨raw ++ line, ?_, ?_, ?_, Or.inr ⟨rfl, by simp, ?_⟩, fun _ _ _ => hcolumn⟩
  · rw [h.rest, hline, List.append_assoc]
  · rw [hindex, h.index, List.length_append, Nat.add_assoc]
  · exact fun y hy => (List.mem_append.mp hy).elim (h.gap y)
      fun hy => isGap_of_isBreak (hbreaks y hy)
  · have hle : g.breaks.length ≤ raw.length := by
      rcases h.kind with ⟨-, rfl, -⟩ | ⟨-, -, hle⟩
      · exact Nat.zero_le _
      · omega
    simp only [List.length_append, List.length_singleton, hcolumn]
    omega

/-- The gap at a place. -/
theorem takeGap_crosses (h : takeGap (some margin) limit {} c = some (g, c')) :
    ∃ raw, Crosses c raw g c' := by
  refine takeGap_preserves (P := fun g c' => ∃ raw, Crosses c raw g c') ?_ ?_ ?_
    ⟨[], Crosses.refl c⟩ h
  · rintro g c' x rest ⟨raw, hraw⟩ hrest hx hbreaks
    have hnext := hraw.blank hrest hx
    rw [if_pos hbreaks] at hnext
    exact ⟨_, hnext⟩
  · rintro g c' x rest ⟨raw, hraw⟩ hrest hx hbreaks
    have hnext := hraw.blank hrest hx
    rw [if_neg hbreaks] at hnext
    exact ⟨_, hnext⟩
  · rintro g c' x rest ⟨raw, hraw⟩ hrest hx
    exact hraw.line hrest hx

/-- A gap on one line. -/
theorem takeGap_blanks {raw rest : List Char} {limit : Nat} (hraw : ∀ x ∈ raw, isBlank x = true)
    (hx : isGap x = false) (hc : c.rest = raw ++ x :: rest) (hg : g.breaks = [])
    (hlimit : raw.length < limit) :
    takeGap (some margin) limit g c =
      some ({ g with blanks := g.blanks ++ raw }, c.skip raw.length) := by
  obtain ⟨limit, rfl⟩ := Nat.exists_eq_add_of_le' (Nat.one_le_of_lt hlimit)
  induction raw generalizing g c limit with
  | nil =>
    obtain ⟨hblank, hbreak⟩ := Bool.or_eq_false_iff.mp hx
    rw [List.nil_append] at hc
    rw [takeGap, hc]
    simp only [hblank, hbreak, Bool.false_eq_true, if_false, List.append_nil]
    rfl
  | cons y raw ih =>
    have hy : isBlank y = true := hraw y List.mem_cons_self
    rw [List.length_cons] at hlimit
    obtain ⟨limit, rfl⟩ := Nat.exists_eq_add_of_le' (Nat.one_le_of_lt (Nat.lt_of_succ_lt_succ hlimit))
    rw [List.cons_append] at hc
    rw [takeGap, hc]
    simp only [hy, hg, List.isEmpty_nil, if_true]
    rw [ih (fun z hz => hraw z (List.mem_cons_of_mem _ hz)) (Cursor.rest_skip_one hc) rfl _
      (by omega)]
    simp [Cursor.skip, Nat.add_assoc, Nat.add_comm 1]

/-- A gap that is the end of a line, in front of a line without indentation. -/
theorem takeGap_newline {rest : List Char} {limit : Nat} (hx : isGap x = false)
    (hc : c.rest = '\n' :: x :: rest) (hlimit : 2 ≤ limit) :
    takeGap (some margin) limit {} c = some ({ breaks := ['\n'] }, c.skipBreak) := by
  obtain ⟨limit, rfl⟩ := Nat.exists_eq_add_of_le' hlimit
  obtain ⟨hblank, hbreak⟩ := Bool.or_eq_false_iff.mp hx
  have hnext : c.skipBreak.rest = x :: rest := by
    rw [Cursor.skipBreak, hc]
    rfl
  rw [takeGap, hc]
  simp only [show isBlank '\n' = false from rfl, show isBreak '\n' = true from rfl,
    Bool.false_eq_true, if_false, if_true]
  rw [takeGap, hnext]
  simp only [hblank, hbreak, Bool.false_eq_true, if_false]
  rfl

/-! ## Words -/

variable {w rest cs : List Char}

/-- A word goes on to a gap, with the colons in it. -/
theorem takeWord_of (hw : ∀ x ∈ w, isGap x = false) (hlast : w.getLast? ≠ some ':')
    (hrest : endsWord rest = true) : takeWord false (w ++ rest) = some w := by
  induction w with
  | nil =>
    cases rest with
    | nil => rfl
    | cons x rest => rw [List.nil_append, takeWord, if_pos (show isGap x = true from hrest)]
  | cons x w ih =>
    -- A colon ends the word only at its end, and the last character is not one.
    have hcolon : ¬ (x == ':' && endsWord (w ++ rest)) = true := by
      rw [Bool.and_eq_true, beq_iff_eq]
      rintro ⟨rfl, hends⟩
      cases w with
      | nil => exact hlast rfl
      | cons y w => cases hends.symm.trans (hw y (by simp))
    rw [List.cons_append, takeWord, if_neg (by simp [hw x List.mem_cons_self]), if_neg (by simp),
      if_neg hcolon, if_neg (by simp), ih (fun y hy => hw y (List.mem_cons_of_mem _ hy)) ?_]
    · rfl
    · cases w with
      | nil => exact nofun
      | cons z w => rwa [List.getLast?_cons_cons] at hlast

/-- A word has no gaps in it, and does not end with a colon before a gap. -/
theorem takeWord_eq_some (h : takeWord false cs = some w) :
    ∃ rest, cs = w ++ rest ∧ (∀ x ∈ w, isGap x = false) ∧
      (endsWord rest = true → w.getLast? ≠ some ':') := by
  induction cs generalizing w with
  | nil =>
    obtain rfl := Option.some.inj h
    exact ⟨[], rfl, nofun, fun _ => nofun⟩
  | cons x cs ih =>
    rw [takeWord] at h
    by_cases hx : isGap x = true
    · rw [if_pos hx] at h
      obtain rfl := Option.some.inj h
      exact ⟨x :: cs, rfl, nofun, fun _ => nofun⟩
    · rw [if_neg hx, if_neg (by simp)] at h
      by_cases hcolon : (x == ':' && endsWord cs) = true
      · rw [if_pos hcolon] at h
        obtain rfl := Option.some.inj h
        exact ⟨x :: cs, rfl, nofun, fun _ => nofun⟩
      · rw [if_neg hcolon, if_neg (by simp)] at h
        obtain ⟨w, hw, rfl⟩ := Option.map_eq_some_iff.mp h
        obtain ⟨rest, rfl, hgap, hlast⟩ := ih hw
        refine ⟨rest, rfl, List.forall_mem_cons.mpr ⟨Bool.eq_false_iff.mpr hx, hgap⟩, fun hrest => ?_⟩
        cases w with
        | nil =>
          intro heq
          obtain rfl : x = ':' := by simpa using heq
          exact hcolon (by simpa using hrest)
        | cons z w =>
          rw [List.getLast?_cons_cons]
          exact hlast hrest

/-- A word of a plain text. A number sign at its beginning would begin a comment, and a colon at its
end a value. -/
structure IsWord (w : List Char) : Prop where
  nonempty : w ≠ []
  gap : ∀ x ∈ w, isGap x = false
  first : w.head? ≠ some '#'
  last : w.getLast? ≠ some ':'

/-- Words on one line, with blanks between them. -/
inductive Words : List Char → Prop where
  | word {w : List Char} (hw : IsWord w) : Words w
  | append {w raw ws : List Char} (hw : IsWord w) (hne : raw ≠ []) (hraw : ∀ x ∈ raw, isBlank x = true)
    (hws : Words ws) : Words (w ++ (raw ++ ws))

theorem Words.exists_cons (h : Words cs) :
    ∃ x rest, cs = x :: rest ∧ isGap x = false ∧ x ≠ '#' := by
  obtain ⟨w, more, hw, rfl⟩ : ∃ w more, IsWord w ∧ cs = w ++ more := by
    cases h with
    | word hw => exact ⟨cs, [], hw, (List.append_nil cs).symm⟩
    | append hw hne hraw hws => exact ⟨_, _, hw, rfl⟩
  obtain ⟨x, w, rfl⟩ := List.exists_cons_of_ne_nil hw.nonempty
  refine ⟨x, w ++ more, rfl, hw.gap x List.mem_cons_self, ?_⟩
  rintro rfl
  exact hw.first rfl

/-! ## Plain texts -/

variable {gap : Gap} {p : Plain} {M : List Char}

theorem Cursor.rest_skip (h : c.rest = w ++ rest) : (c.skip w.length).rest = rest := by
  rw [skip, h, List.drop_left]

theorem Cursor.atDelimiter_of_column (h : 0 < c.column) : c.atDelimiter = false := by
  rw [atDelimiter, beq_eq_false_iff_ne.mpr (Nat.pos_iff_ne_zero.mp h), Bool.false_and]

/-- A word is taken, and the gap behind it. -/
theorem takePlain_word (hw : IsWord w) (hcolumn : 0 < c.column) (hc : c.rest = w ++ rest)
    (hrest : endsWord rest = true) (limit : Nat) :
    takePlain false margin (limit + 1) gap c =
      (takeGap (some margin) (rest.length + 1) {} (c.skip w.length)).bind fun (g, next) =>
        if next.index = (c.skip w.length).index then some ⟨gap.text ++ w, c.skip w.length, false⟩
        else if next.column < margin then some ⟨gap.text ++ w, next, !g.breaks.isEmpty⟩
        else (takePlain false margin limit g next).map fun more =>
          { more with text := gap.text ++ w ++ more.text } := by
  have hhead : ¬ (c.atDelimiter || c.rest.head? == some '#') = true := by
    rw [Cursor.atDelimiter_of_column hcolumn, Bool.false_or, beq_iff_eq, hc,
      List.head?_append_of_ne_nil _ hw.nonempty]
    exact hw.first
  rw [takePlain, if_neg hhead, hc, takeWord_of hw.gap hw.last hrest, ← Cursor.rest_skip hc]
  have hempty : w.isEmpty = false := by simpa using hw.nonempty
  simp only [Option.bind_eq_bind, Option.bind_some, hempty, Bool.not_false, Bool.true_and,
    decide_eq_true_eq, Bool.false_eq_true, if_false]
  congr 1
  funext ⟨g, next⟩
  split_ifs
  · rfl
  · rfl
  · cases takePlain false margin limit g next <;> rfl

/-- Words in front of a line without indentation are read as they stand. -/
theorem takePlain_of_words (hM : Words M) (hx : isGap x = false) (hmargin : 0 < margin)
    (hcolumn : margin ≤ c.column) (hc : c.rest = M ++ '\n' :: x :: rest) (hlimit : M.length < limit) :
    takePlain false margin limit gap c =
      some ⟨gap.text ++ M, (c.skip M.length).skipBreak, true⟩ := by
  induction hM generalizing gap c limit with
  -- The last word: the next line is not indented, so the scalar ends.
  | @word w hw =>
    obtain ⟨limit, rfl⟩ := Nat.exists_eq_add_of_le' (Nat.one_le_of_lt hlimit)
    have hbreak : (c.skip w.length).skipBreak.index = (c.skip w.length).index + 1 ∧
        (c.skip w.length).skipBreak.column = 0 := by
      rw [Cursor.skipBreak, Cursor.rest_skip hc]
      exact ⟨rfl, rfl⟩
    rw [takePlain_word hw (by omega) hc rfl, takeGap_newline hx (Cursor.rest_skip hc) (by simp),
      Option.bind_some]
    dsimp only
    rw [if_neg (by omega), if_pos (by omega)]
    rfl
  -- A word with blanks behind it: the next word is on the same line.
  | @append w raw ws hw hne hraw hws ih =>
    obtain ⟨limit, rfl⟩ := Nat.exists_eq_add_of_le' (Nat.one_le_of_lt hlimit)
    obtain ⟨y, ws', rfl, hy, -⟩ := hws.exists_cons
    have hpos : 0 < raw.length := List.length_pos_iff.mpr hne
    have hends : endsWord (raw ++ (y :: ws' ++ '\n' :: x :: rest)) = true := by
      obtain ⟨b, raw', rfl⟩ := List.exists_cons_of_ne_nil hne
      exact isGap_of_isBlank (hraw b List.mem_cons_self)
    have hc' : c.rest = w ++ (raw ++ (y :: ws' ++ '\n' :: x :: rest)) := by
      rw [hc]
      simp only [List.append_assoc]
    have hafter := Cursor.rest_skip hc'
    have hlength : (w ++ (raw ++ y :: ws')).length = w.length + raw.length + (y :: ws').length := by
      simp only [List.length_append, Nat.add_assoc]
    rw [takePlain_word hw (by omega) hc' hends,
      takeGap_blanks hraw hy hafter rfl (by simp only [List.length_append]; omega), Option.bind_some]
    dsimp only
    rw [if_neg (by simp only [Cursor.skip]; omega), if_neg (by simp only [Cursor.skip]; omega),
      ih (by simp only [Cursor.skip]; omega) (Cursor.rest_skip hafter) (by omega), hlength]
    simp [Cursor.skip, Gap.text, Nat.add_assoc]

/-! ## Texts that are not changed -/

/-- What a plain text makes of characters behind the text of a gap: it may end behind any word, and
gaps between words become shorter unless they are blanks. -/
inductive Folds : (gap cs text : List Char) → Prop where
  | stop {gap cs : List Char} : Folds gap cs []
  | word {gap w more : List Char} (hw : more = [] → IsWord w) : Folds gap (w ++ more) (gap ++ w)
  | append {gap w raw g cs text : List Char} (hw : IsWord w) (hne : raw ≠ [])
    (hraw : (∀ x ∈ raw, isBlank x = true) ∧ g = raw ∨ g.length < raw.length)
    (hcs : Folds g cs text) : Folds gap (w ++ (raw ++ cs)) (gap ++ w ++ text)

namespace Folds

variable {gap cs text : List Char}

theorem length_le (h : Folds gap cs text) : text.length ≤ gap.length + cs.length := by
  induction h with
  | stop => exact Nat.zero_le _
  | word hw =>
    simp only [List.length_append]
    omega
  | append hw hne hraw hcs ih =>
    have hle := hraw.elim (fun h => h.2 ▸ Nat.le_refl _) Nat.le_of_lt
    simp only [List.length_append]
    omega

theorem eq_nil (h : Folds gap [] text) : text = [] := by
  generalize hcs : ([] : List Char) = cs at h
  cases h with
  | stop => exact hcs
  | word hw =>
    obtain ⟨rfl, rfl⟩ := List.append_eq_nil_iff.mp hcs.symm
    exact absurd rfl (hw rfl).nonempty
  | append hw hne hraw hcs' => exact absurd (List.append_eq_nil_iff.mp hcs.symm).1 hw.nonempty

/-- Nothing is changed only if all gaps are blanks. -/
theorem words (h : Folds gap cs text) (htext : text = gap ++ cs) : cs = [] ∨ Words cs := by
  induction h with
  | stop => exact Or.inl (List.append_eq_nil_iff.mp htext.symm).2
  | @word gap w more hw =>
    obtain rfl : more = [] := by simpa using htext
    rw [List.append_nil]
    exact Or.inr (.word (hw rfl))
  | @append gap w raw g cs text hw hne hraw hcs ih =>
    obtain rfl : text = raw ++ cs := by simpa using htext
    refine Or.inr ?_
    -- Nothing was folded, so the gap is blanks: a break would make the text shorter.
    rcases hraw with ⟨hblanks, rfl⟩ | hlt
    · rcases ih rfl with rfl | hws
      · exact absurd (List.append_eq_nil_iff.mp hcs.eq_nil).1 hne
      · exact .append hw hne hblanks hws
    · have hle := hcs.length_le
      simp only [List.length_append] at hle
      omega

end Folds

theorem Gap.length_text (h : g.breaks ≠ []) : g.text.length ≤ g.breaks.length := by
  rw [Gap.text]
  split
  · contradiction
  · simp [*]
  · simp [*]
  · exact Nat.le_refl _

/-- A gap stands for a shorter text, unless it is blanks. -/
theorem Crosses.text {raw : List Char} (h : Crosses c raw g c') (hcolumn : 0 < c'.column) :
    (∀ x ∈ raw, isBlank x = true) ∧ g.text = raw ∨ g.text.length < raw.length := by
  rcases h.kind with ⟨hblanks, rfl, -⟩ | ⟨-, hbreaks, hle⟩
  · exact Or.inl ⟨hblanks, rfl⟩
  · have hlength := Gap.length_text hbreaks
    exact Or.inr (by omega)

/-- A gap that ends on an indented line ends before one that is not. -/
theorem Crosses.before {raw : List Char} (h : Crosses c raw g c') (hcolumn : 0 < c'.column)
    (hx : isGap x = false) (hc : c.rest = M ++ '\n' :: x :: rest) :
    ∃ ws, M = raw ++ ws ∧ c'.rest = ws ++ '\n' :: x :: rest := by
  refine exists_append_of_not_prefix ?_ (h.rest.symm.trans hc)
  rintro ⟨more, rfl⟩
  cases more with
  | nil =>
    -- the gap would end at the beginning of that line
    have hzero := h.column '\n' (by simp) rfl
    omega
  | cons z more =>
    have hrest := h.rest.symm.trans hc
    simp only [List.append_assoc, List.cons_append, List.nil_append, List.append_cancel_left_eq,
      List.cons.injEq, true_and] at hrest
    cases hx.symm.trans (hrest.1 ▸ h.gap z (by simp))

/-- What is read of a plain text: nothing, one word, or a word and, behind a gap that ends on an
indented line, what is read there. -/
theorem takePlain_cases (h : takePlain false margin (limit + 1) gap c = some p) :
    p.text = [] ∨ ∃ w more, c.rest = w ++ more ∧ w ≠ [] ∧ (∀ x ∈ w, isGap x = false) ∧
      (endsWord more = true → IsWord w) ∧
      (p.text = gap.text ++ w ∨ ∃ raw g next q, Crosses (c.skip w.length) raw g next ∧ raw ≠ [] ∧
        margin ≤ next.column ∧ takePlain false margin limit g next = some q ∧
        p.text = gap.text ++ w ++ q.text) := by
  rw [takePlain] at h
  split at h
  · obtain rfl := Option.some.inj h
    exact Or.inl rfl
  rename_i hhead
  obtain ⟨w, hw, h⟩ := Option.bind_eq_some_iff.mp h
  split at h
  · obtain rfl := Option.some.inj h
    exact Or.inl rfl
  rename_i hempty
  have hne : w ≠ [] := by simpa using hempty
  obtain ⟨more, hmore, hgap, hlast⟩ := takeWord_eq_some hw
  have hword : endsWord more = true → IsWord w := by
    refine fun hends => ⟨hne, hgap, fun heq => hhead ?_, hlast hends⟩
    rw [hmore, List.head?_append, heq]
    simp
  refine Or.inr ⟨w, more, hmore, hne, hgap, hword, ?_⟩
  obtain ⟨⟨g, next⟩, hg, h⟩ := Option.bind_eq_some_iff.mp h
  obtain ⟨raw, hraw⟩ := takeGap_crosses hg
  dsimp only at h
  split at h
  · obtain rfl := Option.some.inj h
    exact Or.inl rfl
  rename_i hindex
  split at h
  · obtain rfl := Option.some.inj h
    exact Or.inl rfl
  rename_i hcolumn
  obtain ⟨q, hq, h⟩ := Option.bind_eq_some_iff.mp h
  obtain rfl := Option.some.inj h
  refine Or.inr ⟨raw, g, next, q, hraw, ?_, by simpa using hcolumn, hq, rfl⟩
  rintro rfl
  exact hindex hraw.index

/-- What is read of characters in front of a line without indentation. -/
theorem folds_of_takePlain (h : takePlain false margin limit gap c = some p) (hmargin : 0 < margin)
    (hx : isGap x = false) (hc : c.rest = M ++ '\n' :: x :: rest) : Folds gap.text M p.text := by
  induction limit generalizing gap c p M with
  | zero => cases h
  | succ limit ih =>
    rcases takePlain_cases h with hnone | ⟨w, more, hmore, -, hgap, hword, htext⟩
    · rw [hnone]
      exact .stop
    -- the word ends before the line does
    have hinside : ¬ M ++ ['\n'] <+: w := by
      intro hpre
      cases hgap '\n' (hpre.subset (by simp))
    obtain ⟨more, rfl, rfl⟩ := exists_append_of_not_prefix hinside (hmore.symm.trans hc)
    rcases htext with htext | ⟨raw, g, next, q, hraw, hne, hcolumn, hq, htext⟩
    · rw [htext]
      refine .word ?_
      rintro rfl
      exact hword rfl
    · -- and so does the gap behind it, or reading would not go on
      have hnext : 0 < next.column := by omega
      obtain ⟨ws, rfl, hws⟩ := hraw.before hnext hx (Cursor.rest_skip hmore)
      have hends : endsWord (raw ++ ws ++ '\n' :: x :: rest) = true := by
        obtain ⟨y, raw, rfl⟩ := List.exists_cons_of_ne_nil hne
        exact hraw.gap y List.mem_cons_self
      rw [htext]
      exact .append (hword hends) hne (hraw.text hnext) (ih hq hws)

end DesignCompiler.Yaml
