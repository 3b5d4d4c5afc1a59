import DesignCompiler.Proofs.Text.Spans
import DesignCompiler.Proofs.Yaml.Words
import Mathlib.Data.List.Chain

/-!
# DesignCompiler — plain texts of one line

A text can stand behind a key as it is, without quotes, exactly if it is one line that does not begin
like anything else and in which no colon and no number sign has a meaning.

* `Joins`, `words_of_isChain` — a line of words, by the characters that stand side by side;
* `IsPlain` — the texts that need no quotes;
* `begins_of_beginsPlain`, `Scanner.takeToken_of_begins` — how they begin.
-/

namespace DesignCompiler.Yaml

variable {c : Cursor} {margin limit : Nat} {x : Char} {w rest cs M : List Char} {p : Plain}

/-! ## One line -/

/-- Whether a character may stand in front of another: a blank behind a colon would begin a value,
and a number sign behind a blank a comment. -/
def Joins (c d : Char) : Prop :=
  (c = ':' → isBlank d = false) ∧ (d = '#' → isBlank c = false)

instance (c d : Char) : Decidable (Joins c d) :=
  inferInstanceAs (Decidable (_ ∧ _))

theorem isGap_eq_false_iff : isGap x = false ↔ isBlank x = false ∧ isBreak x = false :=
  Bool.or_eq_false_iff

theorem joins_of_not_blank {c d : Char} (hc : isBlank c = false) (hd : isBlank d = false) :
    Joins c d :=
  ⟨fun _ => hd, fun _ => hc⟩

theorem joins_of_blank {c d : Char} (hc : isBlank c = true) (hd : d ≠ '#') : Joins c d := by
  refine ⟨?_, fun h => absurd h hd⟩
  rintro rfl
  cases hc

theorem joins_blank {c d : Char} (hc : c ≠ ':') (hd : isBlank d = true) : Joins c d := by
  refine ⟨fun h => absurd h hc, ?_⟩
  rintro rfl
  cases hd

theorem IsWord.isBlank (hw : IsWord w) : ∀ x ∈ w, isBlank x = false :=
  fun x hx => (isGap_eq_false_iff.mp (hw.gap x hx)).1

theorem IsWord.isChain (hw : IsWord w) : w.IsChain Joins :=
  (List.pairwise_of_forall_mem_list fun _ hc _ hd =>
    joins_of_not_blank (hw.isBlank _ hc) (hw.isBlank _ hd)).isChain

theorem exists_getLast? (h : cs ≠ []) : ∃ x, cs.getLast? = some x :=
  ⟨cs.getLast h, List.getLast?_eq_some_getLast h⟩

namespace Words

theorem isBreak (h : Words cs) : ∀ x ∈ cs, isBreak x = false := by
  induction h with
  | word hw => exact fun x hx => (isGap_eq_false_iff.mp (hw.gap x hx)).2
  | append hw hne hraw hws ih =>
    intro x hx
    rcases List.mem_append.mp hx with hx | hx
    · exact (isGap_eq_false_iff.mp (hw.gap x hx)).2
    · exact (List.mem_append.mp hx).elim (fun hx => isBreak_of_isBlank (hraw x hx)) (ih x)

theorem isChain (h : Words cs) : cs.IsChain Joins := by
  induction h with
  | word hw => exact hw.isChain
  | @append w raw ws hw hne hraw hws ih =>
    obtain ⟨y, ws, rfl, -, hy⟩ := hws.exists_cons
    -- Inside the blanks and at both ends of them, every pair has a blank.
    refine hw.isChain.append (.append ?_ ih ?_) ?_
    · refine (List.pairwise_of_forall_mem_list fun c hc d hd => ?_).isChain
      refine joins_of_blank (hraw c hc) ?_
      rintro rfl
      cases hraw _ hd
    · intro c hc d hd
      obtain rfl : y = d := by simpa using hd
      exact joins_of_blank (hraw c (List.mem_of_getLast? hc)) hy
    · intro c hc d hd
      obtain ⟨b, raw, rfl⟩ := List.exists_cons_of_ne_nil hne
      obtain rfl : b = d := by simpa using hd
      refine joins_blank ?_ (hraw b List.mem_cons_self)
      rintro rfl
      exact hw.last hc

theorem ends (h : Words cs) : ∀ x ∈ cs.getLast?, isBlank x = false ∧ x ≠ ':' := by
  induction h with
  | word hw =>
    refine fun x hx => ⟨hw.isBlank x (List.mem_of_getLast? hx), ?_⟩
    rintro rfl
    exact hw.last hx
  | @append w raw ws hw hne hraw hws ih =>
    obtain ⟨y, ws, rfl, -, -⟩ := hws.exists_cons
    intro x hx
    rw [← List.append_assoc, List.getLast?_append_of_ne_nil _ (List.cons_ne_nil y ws)] at hx
    exact ih x hx

end Words

/-- A line that begins with a word: it ends with the word, or there are blanks behind it and something
behind these. -/
theorem exists_word (hline : ∀ x ∈ cs, isBreak x = false)
    (hends : ∀ x ∈ cs.getLast?, isBlank x = false ∧ x ≠ ':') (hne : cs ≠ [])
    (hhead : ∀ x ∈ cs.head?, isBlank x = false ∧ x ≠ '#') :
    ∃ w raw ws, cs = w ++ (raw ++ ws) ∧ w ≠ [] ∧ (∀ x ∈ w, isGap x = false) ∧ w.head? ≠ some '#' ∧
      (∀ x ∈ raw, isBlank x = true) ∧ (∀ x ∈ ws.head?, isBlank x = false) ∧
      (raw = [] ∧ ws = [] ∨ raw ≠ [] ∧ ws ≠ []) := by
  obtain ⟨w, more, rfl, hw, hmore⟩ := exists_span (!isGap ·) cs
  have hgap : ∀ x ∈ w, isGap x = false := fun x hx => by simpa using hw x hx
  have hwne : w ≠ [] := by
    rintro rfl
    obtain ⟨y, more, rfl⟩ := List.exists_cons_of_ne_nil hne
    have hy := isGap_eq_false_iff.mpr ⟨(hhead y rfl).1, hline y (by simp)⟩
    simp [hy] at hmore
  have hfirst : w.head? ≠ some '#' := by
    rw [List.head?_append_of_ne_nil _ hwne] at hhead
    exact fun heq => (hhead _ heq).2 rfl
  obtain ⟨raw, ws, rfl, hraw, hws⟩ := exists_span isBlank more
  refine ⟨w, raw, ws, rfl, hwne, hgap, hfirst, hraw, hws, ?_⟩
  cases raw with
  | nil =>
    refine Or.inl ⟨rfl, ?_⟩
    cases ws with
    | nil => rfl
    | cons y ws =>
      have hy := isGap_eq_false_iff.mpr ⟨hws y rfl, hline y (by simp)⟩
      simp [hy] at hmore
  | cons b raw =>
    -- the line does not end with a blank
    refine Or.inr ⟨List.cons_ne_nil b raw, ?_⟩
    rintro rfl
    obtain ⟨y, hy⟩ := exists_getLast? (List.cons_ne_nil b raw)
    rw [List.append_nil, List.getLast?_append_of_ne_nil _ (List.cons_ne_nil b raw)] at hends
    cases (hraw y (List.mem_of_getLast? hy)).symm.trans (hends y hy).1

/-- A line whose characters go together is words with blanks between them. -/
theorem words_of_isChain (hline : ∀ x ∈ cs, isBreak x = false) (hjoined : cs.IsChain Joins)
    (hends : ∀ x ∈ cs.getLast?, isBlank x = false ∧ x ≠ ':') (hne : cs ≠ [])
    (hhead : ∀ x ∈ cs.head?, isBlank x = false ∧ x ≠ '#') : Words cs := by
  -- what is behind the blanks is a line of the same kind, and shorter
  induction hlength : cs.length using Nat.strong_induction_on generalizing cs with
  | _ n ih =>
    subst hlength
    obtain ⟨w, raw, ws, rfl, hwne, hgap, hfirst, hraw, hws, hnil | ⟨hrawne, hwsne⟩⟩ :=
      exists_word hline hends hne hhead
    · obtain ⟨rfl, rfl⟩ := hnil
      rw [List.append_nil, List.append_nil] at hends ⊢
      exact .word ⟨hwne, hgap, hfirst, fun heq => (hends _ heq).2 rfl⟩
    · obtain ⟨-, hjoined', hlast⟩ := List.isChain_append.mp hjoined
      obtain ⟨-, hjoined'', hbefore⟩ := List.isChain_append.mp hjoined'
      -- no colon stands in front of the blanks, and no number sign behind them
      have hword : IsWord w := by
        refine ⟨hwne, hgap, hfirst, fun heq => ?_⟩
        obtain ⟨b, raw, rfl⟩ := List.exists_cons_of_ne_nil hrawne
        cases (hraw b List.mem_cons_self).symm.trans ((hlast _ heq b rfl).1 rfl)
      have hhead' : ∀ x ∈ ws.head?, isBlank x = false ∧ x ≠ '#' := by
        refine fun y hy => ⟨hws y hy, ?_⟩
        rintro rfl
        obtain ⟨z, hz⟩ := exists_getLast? hrawne
        cases (hraw z (List.mem_of_getLast? hz)).symm.trans ((hbefore z hz _ hy).2 rfl)
      rw [← List.append_assoc, List.getLast?_append_of_ne_nil _ hwsne] at hends
      have hshort : ws.length < (w ++ (raw ++ ws)).length := by
        have hpos := List.length_pos_iff.mpr hwne
        simp only [List.length_append]
        omega
      exact .append hword hrawne hraw (ih ws.length hshort (fun x hx => hline x (by simp [hx]))
        hjoined'' hends hwsne hhead' rfl)

/-- How a text without quotes begins: not like anything else, but a dash, a question mark or a colon
means something only in front of a blank. -/
def Begins : List Char → Prop
  | [] => False
  | c :: cs => isBlank c = false ∧ (Scanner.isIndicator c = false ∨
      c ∈ ['-', '?', ':'] ∧ cs.head?.any (!isBlank ·) = true)

instance : (cs : List Char) → Decidable (Begins cs)
  | [] => inferInstanceAs (Decidable False)
  | _ :: _ => inferInstanceAs (Decidable (_ ∧ _))

/-- A text that can stand behind a key as it is: one line that does not begin like anything else
and in which no colon and no number sign has a meaning. -/
structure IsPlain (cs : List Char) : Prop where
  line : ∀ c ∈ cs, isAllowed c = true ∧ isBreak c = false
  begins : Begins cs
  joined : cs.IsChain Joins
  ends : ∀ c ∈ cs.getLast?, isBlank c = false ∧ c ≠ ':'

theorem isPlain_iff : IsPlain cs ↔ cs.all (fun c => isAllowed c && !isBreak c) = true ∧ Begins cs ∧
    cs.IsChain Joins ∧ cs.getLast?.all (fun c => !isBlank c && c != ':') = true := by
  simp only [List.all_eq_true, Option.all_eq_true, Bool.and_eq_true, Bool.not_eq_true', bne_iff_ne]
  constructor
  · intro h
    exact ⟨h.line, h.begins, h.joined, h.ends⟩
  · rintro ⟨hline, hbegins, hjoined, hends⟩
    exact ⟨hline, hbegins, hjoined, hends⟩

instance (cs : List Char) : Decidable (IsPlain cs) :=
  decidable_of_iff _ isPlain_iff.symm

example : IsPlain "My Shop:1 -> a#1".toList ∧ ¬ IsPlain "Shop: #1".toList := by decide

theorem IsPlain.words (h : IsPlain cs) : Words cs := by
  obtain ⟨hline, hbegins, hjoined, hends⟩ := h
  cases cs with
  | nil => exact hbegins.elim
  | cons c cs =>
    refine words_of_isChain (fun x hx => (hline x hx).2) hjoined hends (List.cons_ne_nil c cs) ?_
    rintro _ ⟨⟩
    refine ⟨hbegins.1, ?_⟩
    rintro rfl
    rcases hbegins.2 with hindicator | ⟨hmem, -⟩
    · cases hindicator
    · exact absurd hmem (by decide)

theorem Words.isPlain (h : Words cs) (hallowed : ∀ x ∈ cs, isAllowed x = true) (hbegins : Begins cs) :
    IsPlain cs :=
  ⟨fun x hx => ⟨hallowed x hx, h.isBreak x hx⟩, hbegins, h.isChain, h.ends⟩

/-! ## Tokens -/

/-- A text begins where it is read. -/
theorem takePlain_head (h : takePlain false margin limit {} c = some p) (hne : p.text ≠ []) :
    p.text.head? = c.rest.head? := by
  cases limit with
  | zero => cases h
  | succ limit =>
    rcases takePlain_cases h with hnil | ⟨w, rest, hrest, hw, -, -, htext⟩
    · exact absurd hnil hne
    obtain ⟨more, hmore⟩ : ∃ more, p.text = w ++ more := by
      rcases htext with htext | ⟨-, -, -, q, -, -, -, -, htext⟩
      · exact ⟨[], by rw [htext, List.append_nil]; rfl⟩
      · exact ⟨q.text, htext⟩
    rw [hmore, hrest, List.head?_append_of_ne_nil _ hw, List.head?_append_of_ne_nil _ hw]

theorem not_gap_of_beginsPlain {inFlow : Bool} (h : Scanner.beginsPlain inFlow (x :: rest) = true) :
    isGap x = false ∧ x ≠ '#' := by
  unfold Scanner.beginsPlain at h
  split at h
  · cases h
  · rename_i heq
    obtain ⟨rfl, rfl⟩ := List.cons.inj heq
    decide
  · rename_i heq
    obtain ⟨rfl, rfl⟩ := List.cons.inj heq
    decide
  · rename_i heq
    obtain ⟨rfl, rfl⟩ := List.cons.inj heq
    decide
  · rename_i heq
    obtain ⟨rfl, rfl⟩ := List.cons.inj heq
    rw [Bool.and_eq_true, Bool.not_eq_true', Bool.not_eq_true'] at h
    refine ⟨h.1, ?_⟩
    rintro rfl
    cases h.2

theorem any_head?_of_endsWord (h : endsWord (cs ++ '\n' :: rest) = false) :
    cs.head?.any (!isBlank ·) = true := by
  cases cs with
  | nil => cases h
  | cons d cs => simpa using (isGap_eq_false_iff.mp h).1

theorem begins_of_beginsPlain (h : Scanner.beginsPlain false (x :: (cs ++ '\n' :: rest)) = true)
    (hdash : ¬ (x = '-' ∧ endsWord (cs ++ '\n' :: rest) = true)) : Begins (x :: cs) := by
  rw [Begins]
  unfold Scanner.beginsPlain at h
  split at h
  · cases h
  · rename_i heq
    obtain ⟨rfl, rfl⟩ := List.cons.inj heq
    have hends : endsWord (cs ++ '\n' :: rest) = false := by simpa using hdash
    exact ⟨rfl, Or.inr ⟨by decide, any_head?_of_endsWord hends⟩⟩
  · rename_i heq
    obtain ⟨rfl, rfl⟩ := List.cons.inj heq
    exact ⟨rfl, Or.inr ⟨by decide, any_head?_of_endsWord (by simpa using h)⟩⟩
  · rename_i heq
    obtain ⟨rfl, rfl⟩ := List.cons.inj heq
    exact ⟨rfl, Or.inr ⟨by decide, any_head?_of_endsWord (by simpa using h)⟩⟩
  · rename_i heq
    obtain ⟨rfl, rfl⟩ := List.cons.inj heq
    rw [Bool.and_eq_true, Bool.not_eq_true', Bool.not_eq_true'] at h
    exact ⟨(isGap_eq_false_iff.mp h.1).1, Or.inl h.2⟩

theorem endsWord_of_any_head? (h : cs.head?.any (!isBlank ·) = true)
    (hbreak : ∀ x ∈ cs, isBreak x = false) : endsWord (cs ++ rest) = false := by
  cases cs with
  | nil => cases h
  | cons d cs => exact isGap_eq_false_iff.mpr ⟨by simpa using h, hbreak d List.mem_cons_self⟩

/-- Where a text begins without quotes, it is read. -/
theorem Scanner.takeToken_of_begins {s : Scanner} (hM : Begins M)
    (hbreak : ∀ x ∈ M, isBreak x = false) (hrest : s.cursor.rest = M ++ rest)
    (hflow : s.inFlow = false) (hcolumn : 0 < s.cursor.column) : s.takeToken = s.takePlainScalar := by
  cases M with
  | nil => exact hM.elim
  | cons x cs =>
    obtain ⟨hblank, hx⟩ := hM
    obtain ⟨hx', hcs⟩ := List.forall_mem_cons.mp hbreak
    have hgap : isGap x = false := isGap_eq_false_iff.mpr ⟨hblank, hx'⟩
    rw [takeToken, Cursor.atDelimiter_of_column hcolumn, hrest, List.cons_append, hflow]
    -- A character that is no indicator, or a dash, a question mark or a colon with no blank behind it.
    rcases hx with hindicator | ⟨hmem, hhead⟩
    · have hne := hindicator
      simp only [isIndicator, List.contains_eq_mem, List.mem_cons, decide_eq_false_iff_not,
        not_or, List.not_mem_nil] at hne
      simp [hne, beginsPlain, hgap, hindicator]
    · have hends : endsWord (cs ++ rest) = false := endsWord_of_any_head? hhead hcs
      have hdash : beginsPlain false ('-' :: (cs ++ rest)) = true := by
        cases cs with
        | nil => cases hhead
        | cons d cs => simpa [beginsPlain] using hhead
      simp only [List.mem_cons, List.not_mem_nil, or_false] at hmem
      rcases hmem with rfl | rfl | rfl
      · simp [hends, hdash]
      · simp [hends, beginsPlain]
      · simp [hends, beginsPlain]

/-- A text that needs no quotes is one token. -/
theorem Scanner.takeToken_of_isPlain {s : Scanner} (hM : IsPlain M) (hx : isGap x = false)
    (hflow : s.inFlow = false) (hkey : s.keyAllowed = false) (hindent : 0 ≤ s.indent)
    (hcolumn : s.indent < s.cursor.column) (hrest : s.cursor.rest = M ++ '\n' :: x :: rest) :
    s.takeToken = some { s.emit (.scalar (String.ofList M) true) with
      cursor := (s.cursor.skip M.length).skipBreak, keyAllowed := true } := by
  have hlength : M.length < s.cursor.rest.length + 1 := by
    rw [hrest, List.length_append]
    omega
  rw [takeToken_of_begins hM.begins (fun y hy => (hM.line y hy).2) hrest hflow (by omega),
    takePlainScalar, noteKey, if_neg (by simp [hkey])]
  simp only [Option.bind_eq_bind, Option.bind_some, hflow]
  rw [takePlain_of_words hM.words hx (by omega) (by omega) hrest hlength]
  rfl

end DesignCompiler.Yaml
