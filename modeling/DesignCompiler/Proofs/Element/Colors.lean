import DesignCompiler.Element.Lowering
import DesignCompiler.Proofs.Text.Spans

/-!
# DesignCompiler — the language of colors

Which texts are colors is said by a grammar; the check, which reads a text from left to right and
never goes back, accepts exactly its texts. The grammar is ambiguous, since a blank at the front of
the arguments can be taken for several of its parts, but a unit begins with a letter and so ends the
first arguments in one way only.

* `Color.IsForm` — the grammar;
* `Color.isArguments_iff`, `Color.isFunctional_iff` — the parts of the check;
* `isColor_iff` — the check as a whole;
* `Color.IsHarmless` — texts that cannot end what they stand in; `Color.IsForm.isHarmless`;
* `color_recognizes` — the check of a property, blanks around the color included.
-/

namespace DesignCompiler

namespace Color

/-! ## Grammar -/

/-- The names of functional colors. -/
def functions : List String := ["rgb", "rgba", "hsl", "hsla"]

/-- The units of angles. -/
def units : List String := ["deg", "rad", "grad", "turn"]

/-- The digits of hexadecimal colors. -/
def hexDigits : List Char := "0123456789abcdefABCDEF".toList

/-- A character of arguments: a digit, one of six signs, or a blank. -/
def IsArgument (c : Char) : Prop :=
  c ∈ "0123456789.,%/+-".toList ∨ Text.isBlank c = true

/-- What stands between the parentheses of a functional color: at least one character of arguments,
and then at will a unit with more of them. -/
inductive IsInside : List Char → Prop where
  | plain {first : List Char} (ne : first ≠ []) (chars : ∀ c ∈ first, IsArgument c) :
      IsInside first
  | angle {first more : List Char} {unit : String} (ne : first ≠ [])
      (chars : ∀ c ∈ first, IsArgument c) (unit_mem : unit ∈ units)
      (moreChars : ∀ c ∈ more, IsArgument c) : IsInside (first ++ unit.toList ++ more)

/-- The texts that are colors. -/
inductive IsForm : List Char → Prop where
  | hexadecimal {digits : List Char} (chars : ∀ c ∈ digits, c ∈ hexDigits)
      (length : digits.length ∈ [3, 4, 6, 8]) : IsForm ('#' :: digits)
  | functional {name : String} {inside : List Char} (name_mem : name ∈ functions)
      (isInside : IsInside inside) : IsForm (name.toList ++ '(' :: (inside ++ [')']))
  | word {letters : List Char} (ne : letters ≠ []) (chars : ∀ c ∈ letters, c.isAlpha = true) :
      IsForm letters

/-! ## The check -/

variable {c : Char} {cs : List Char}

/-- What can be tested of the characters of a list, one after the other. -/
theorem forall_mem_of_all {p : Char → Prop} [DecidablePred p]
    (h : (cs.all fun c => decide (p c)) = true) : ∀ c ∈ cs, p c :=
  fun c hc => of_decide_eq_true (List.all_eq_true.mp h c hc)

/-- What holds of the characters of ASCII holds of a character with a small code point. -/
theorem of_toNat_lt {p : Char → Prop} (hascii : ∀ n < 128, p (Char.ofNat n)) (hc : c.toNat < 128) :
    p c :=
  c.ofNat_toNat ▸ hascii c.toNat hc

theorem toNat_of_isDigit (h : c.isDigit = true) : 48 ≤ c.toNat ∧ c.toNat ≤ 57 := by
  simpa [Char.isDigit, UInt32.le_iff_toNat_le, Char.toNat_val] using h

theorem mem_of_isDigit (h : c.isDigit = true) : c ∈ "0123456789".toList :=
  of_toNat_lt (p := fun c => c.isDigit = true → c ∈ "0123456789".toList) (by decide)
    (by have := toNat_of_isDigit h; omega) h

theorem isHexDigit_iff : isHexDigit c = true ↔ c ∈ hexDigits := by
  constructor
  · intro h
    have hcode : c.toNat < 128 := by
      simp only [isHexDigit, Bool.or_eq_true, Bool.and_eq_true, decide_eq_true_eq, Char.le_def,
        UInt32.le_iff_toNat_le, Char.toNat_val] at h
      rcases h with (h | h) | h
      · have := toNat_of_isDigit h
        omega
      · exact Nat.lt_of_le_of_lt h.2 (by decide)
      · exact Nat.lt_of_le_of_lt h.2 (by decide)
    exact of_toNat_lt (p := fun c => isHexDigit c = true → c ∈ hexDigits) (by decide) hcode h
  · exact forall_mem_of_all (p := fun c => isHexDigit c = true) (by decide) c

theorem isArgumentChar_iff : isArgumentChar c = true ↔ IsArgument c := by
  rw [isArgumentChar, Bool.or_eq_true, IsArgument]
  refine or_congr_left ⟨fun h => ?_, ?_⟩
  · have hdigits : ∀ c ∈ "0123456789".toList, c ∈ "0123456789.,%/+-".toList :=
      forall_mem_of_all (by decide)
    simp only [Bool.or_eq_true, beq_iff_eq] at h
    rcases h with (((((h | rfl) | rfl) | rfl) | rfl) | rfl) | rfl
    · exact hdigits c (mem_of_isDigit h)
    all_goals decide
  · have hall : ∀ c ∈ "0123456789.,%/+-".toList, (c.isDigit || c == '.' || c == ',' || c == '%' ||
        c == '/' || c == '+' || c == '-') = true :=
      forall_mem_of_all (by decide)
    exact hall c

theorem isHexadecimal_iff :
    isHexadecimal cs = true ↔ ∃ digits, cs = '#' :: digits ∧
      (∀ c ∈ digits, c ∈ hexDigits) ∧ digits.length ∈ [3, 4, 6, 8] := by
  unfold isHexadecimal
  split
  · rename_i digits
    simp [or_assoc, isHexDigit_iff]
  · rename_i hhash
    exact ⟨nofun, fun ⟨digits, hcs, _⟩ => absurd hcs (hhash digits)⟩

/-- What follows a unit up to the parenthesis. -/
theorem dropWhile_eq_close_iff {rest : List Char} :
    (rest.dropWhile isArgumentChar == [')']) = true ↔
      ∃ more, rest = more ++ [')'] ∧ ∀ c ∈ more, isArgumentChar c = true := by
  have hclose : ∀ c ∈ [')'].head?, isArgumentChar c = false :=
    fun c hc => Option.mem_some.mp hc ▸ by decide
  rw [beq_iff_eq]
  constructor
  · intro hdrop
    refine ⟨rest.takeWhile isArgumentChar, ?_, fun c hc => List.mem_takeWhile_imp hc⟩
    rw [← hdrop, List.takeWhile_append_dropWhile]
  · rintro ⟨more, rfl, hmore⟩
    exact dropWhile_append_stop hmore hclose

theorem isArgumentsEnd_iff :
    isArgumentsEnd cs = true ↔ cs = [')'] ∨ ∃ unit ∈ units, ∃ more,
      cs = unit.toList ++ more ++ [')'] ∧ ∀ c ∈ more, isArgumentChar c = true := by
  constructor
  · intro h
    -- the characters that were matched spell one of the units
    have hunit : ∀ unit ∈ units, ∀ rest, (rest.dropWhile isArgumentChar == [')']) = true →
        ∃ unit' ∈ units, ∃ more, unit.toList ++ rest = unit'.toList ++ more ++ [')'] ∧
          ∀ c ∈ more, isArgumentChar c = true := by
      intro unit hmem rest hrest
      obtain ⟨more, rfl, hmore⟩ := dropWhile_eq_close_iff.mp hrest
      exact ⟨unit, hmem, more, (List.append_assoc ..).symm, hmore⟩
    unfold isArgumentsEnd at h
    split at h
    · exact Or.inl rfl
    · exact Or.inr (hunit "deg" (by decide) _ h)
    · exact Or.inr (hunit "rad" (by decide) _ h)
    · exact Or.inr (hunit "grad" (by decide) _ h)
    · exact Or.inr (hunit "turn" (by decide) _ h)
    · exact nomatch h
  · rintro (rfl | ⟨unit, hmem, more, rfl, hmore⟩)
    · rfl
    · have hdrop := dropWhile_eq_close_iff.mpr ⟨more, rfl, hmore⟩
      rw [List.append_assoc]
      simp only [units, List.mem_cons, List.not_mem_nil, or_false] at hmem
      rcases hmem with rfl | rfl | rfl | rfl <;> exact hdrop

/-- The first arguments end where the check stops reading them. -/
theorem isArgumentChar_head (h : isArgumentsEnd cs = true) :
    ∀ c ∈ cs.head?, isArgumentChar c = false := by
  unfold isArgumentsEnd at h
  split at h
  · exact fun c hc => Option.mem_some.mp hc ▸ by decide
  · exact fun c hc => Option.mem_some.mp hc ▸ by decide
  · exact fun c hc => Option.mem_some.mp hc ▸ by decide
  · exact fun c hc => Option.mem_some.mp hc ▸ by decide
  · exact fun c hc => Option.mem_some.mp hc ▸ by decide
  · exact nomatch h

theorem isArguments_iff_append :
    isArguments cs = true ↔ ∃ first rest, cs = first ++ rest ∧ first ≠ [] ∧
      (∀ c ∈ first, isArgumentChar c = true) ∧ isArgumentsEnd rest = true := by
  rw [isArguments, Bool.and_eq_true, Bool.not_eq_true', List.isEmpty_eq_false_iff]
  constructor
  · rintro ⟨hne, hend⟩
    exact ⟨_, _, List.takeWhile_append_dropWhile.symm, hne, fun c hc => List.mem_takeWhile_imp hc,
      hend⟩
  · rintro ⟨first, rest, rfl, hne, hfirst, hend⟩
    rw [takeWhile_append_stop hfirst (isArgumentChar_head hend),
      dropWhile_append_stop hfirst (isArgumentChar_head hend)]
    exact ⟨hne, hend⟩

theorem isArguments_iff :
    isArguments cs = true ↔ ∃ inside, cs = inside ++ [')'] ∧ IsInside inside := by
  rw [isArguments_iff_append]
  simp only [isArgumentsEnd_iff, isArgumentChar_iff]
  constructor
  · rintro ⟨first, rest, rfl, hne, hfirst, rfl | ⟨unit, hunit, more, rfl, hmore⟩⟩
    · exact ⟨first, rfl, .plain hne hfirst⟩
    · exact ⟨first ++ unit.toList ++ more, by simp, .angle hne hfirst hunit hmore⟩
  · rintro ⟨inside, rfl, hinside⟩
    cases hinside with
    | plain hne hfirst => exact ⟨inside, [')'], rfl, hne, hfirst, Or.inl rfl⟩
    | angle hne hfirst hunit hmore =>
      exact ⟨_, _, by rw [List.append_assoc, List.append_assoc], hne, hfirst,
        Or.inr ⟨_, hunit, _, (List.append_assoc ..).symm, hmore⟩⟩

theorem isFunctional_iff :
    isFunctional cs = true ↔ ∃ name ∈ functions, ∃ rest,
      cs = name.toList ++ '(' :: rest ∧ isArguments rest = true := by
  constructor
  · intro h
    unfold isFunctional at h
    split at h
    · exact ⟨"rgb", by decide, _, rfl, h⟩
    · exact ⟨"rgba", by decide, _, rfl, h⟩
    · exact ⟨"hsl", by decide, _, rfl, h⟩
    · exact ⟨"hsla", by decide, _, rfl, h⟩
    · exact nomatch h
  · rintro ⟨name, hmem, rest, rfl, hrest⟩
    simp only [functions, List.mem_cons, List.not_mem_nil, or_false] at hmem
    rcases hmem with rfl | rfl | rfl | rfl <;> exact hrest

theorem isWord_iff : isWord cs = true ↔ cs ≠ [] ∧ ∀ c ∈ cs, c.isAlpha = true := by
  rw [isWord, Bool.and_eq_true, Bool.not_eq_true', List.isEmpty_eq_false_iff, List.all_eq_true]

/-! ## Characters -/

/-- The characters with which a text could end what it stands in, or hide what follows. -/
def breakers : List Char := [';', '\x7b', '\x7d', '"', '\'', '\\', '*']

/-- A character between the parentheses of a functional color. -/
def isInsideChar (c : Char) : Bool :=
  c.isAlpha || isArgumentChar c

theorem IsInside.chars (h : IsInside cs) : ∀ c ∈ cs, isInsideChar c = true := by
  have hunits : ∀ unit ∈ units, unit.toList.all Char.isAlpha = true := by decide
  intro c hc
  rw [isInsideChar, Bool.or_eq_true, isArgumentChar_iff]
  cases h with
  | plain _ hfirst => exact Or.inr (hfirst c hc)
  | angle _ hfirst hmem hmore =>
    rw [List.mem_append, List.mem_append] at hc
    rcases hc with (hc | hc) | hc
    · exact Or.inr (hfirst c hc)
    · exact Or.inl (List.all_eq_true.mp (hunits _ hmem) c hc)
    · exact Or.inr (hmore c hc)

theorem isAlphanum_of_mem_hexDigits (h : c ∈ hexDigits) : c.isAlphanum = true :=
  forall_mem_of_all (p := fun c => c.isAlphanum = true) (by decide) c h

theorem isAlpha_of_mem_functions {name : String} (h : name ∈ functions) :
    ∀ c ∈ name.toList, c.isAlpha = true := by
  have hnames : ∀ name ∈ functions, name.toList.all Char.isAlpha = true := by decide
  exact List.all_eq_true.mp (hnames name h)

/-- A text whose parentheses stand in pairs. -/
inductive IsBalanced : List Char → Prop where
  | nil : IsBalanced []
  | char {c : Char} {rest : List Char} (notOpen : c ≠ '(') (notClose : c ≠ ')')
      (balanced : IsBalanced rest) : IsBalanced (c :: rest)
  | pair {inside rest : List Char} (balanced : IsBalanced inside) (restBalanced : IsBalanced rest) :
      IsBalanced ('(' :: (inside ++ ')' :: rest))

/-- Characters of a kind that has no parentheses keep a text balanced. -/
theorem IsBalanced.append {p : Char → Bool} (hopen : p '(' = false) (hclose : p ')' = false)
    {front : List Char} (hfront : ∀ c ∈ front, p c = true) (h : IsBalanced cs) :
    IsBalanced (front ++ cs) := by
  induction front with
  | nil => exact h
  | cons c front ih =>
    obtain ⟨hc, hfront⟩ := List.forall_mem_cons.mp hfront
    refine .char ?_ ?_ (ih hfront)
    · rintro rfl
      exact nomatch hc.symm.trans hopen
    · rintro rfl
      exact nomatch hc.symm.trans hclose

theorem isBalanced_of_chars {p : Char → Bool} (hopen : p '(' = false) (hclose : p ')' = false)
    (h : ∀ c ∈ cs, p c = true) : IsBalanced cs :=
  List.append_nil cs ▸ IsBalanced.append hopen hclose h .nil

/-- A text that neither ends what it stands in nor hides what follows. -/
structure IsHarmless (cs : List Char) : Prop where
  chars : ∀ c ∈ breakers, c ∉ cs
  parentheses : IsBalanced cs

theorem IsForm.isHarmless (h : IsForm cs) : IsHarmless cs := by
  -- digits, letters and the characters inside a function are none of those that break a rule
  cases h with
  | hexadecimal hdigits _ =>
    have hother : ∀ c ∈ breakers, c ∉ '#' :: hexDigits := forall_mem_of_all (by decide)
    have halphanum := fun c hc => isAlphanum_of_mem_hexDigits (hdigits c hc)
    refine ⟨fun c hc hmem => hother c hc ?_, .char (by decide) (by decide)
      (isBalanced_of_chars (by decide) (by decide) halphanum)⟩
    exact List.mem_cons.mpr ((List.mem_cons.mp hmem).imp_right (hdigits c))
  | functional hname hinside =>
    have hother : ∀ c ∈ breakers, c ∉ ['(', ')'] ∧ c.isAlpha = false ∧ isInsideChar c = false :=
      forall_mem_of_all (by decide)
    constructor
    · intro c hc hmem
      obtain ⟨hparenthesis, halpha, hinner⟩ := hother c hc
      rw [List.mem_append, List.mem_cons, List.mem_append, List.mem_singleton] at hmem
      rcases hmem with hmem | rfl | hmem | rfl
      · exact nomatch (isAlpha_of_mem_functions hname c hmem).symm.trans halpha
      · exact hparenthesis (by decide)
      · exact nomatch (hinside.chars c hmem).symm.trans hinner
      · exact hparenthesis (by decide)
    · -- the only parentheses are those around the arguments
      have hpair := IsBalanced.pair
        (isBalanced_of_chars (p := isInsideChar) (by decide) (by decide) hinside.chars) .nil
      exact .append (p := Char.isAlpha) (by decide) (by decide) (isAlpha_of_mem_functions hname) hpair
  | word _ hletters =>
    have hother : ∀ c ∈ breakers, c.isAlpha = false := forall_mem_of_all (by decide)
    refine ⟨fun c hc hmem => ?_, isBalanced_of_chars (by decide) (by decide) hletters⟩
    exact nomatch (hletters c hmem).symm.trans (hother c hc)

/-! ## Ends -/

theorem not_isBlank_of_isAlphanum {c : Char} (h : c.isAlphanum = true) : Text.isBlank c = false := by
  have halphanum : c.isAlphanum = (c.isUpper || c.isLower || c.isDigit) := rfl
  have hupper : c.isUpper = decide ('A' ≤ c ∧ c ≤ 'Z') := rfl
  have hlower : c.isLower = (decide ('a' ≤ c) && decide (c ≤ 'z')) := rfl
  -- letters and digits have code points between two blanks
  have hcode : 48 ≤ c.toNat ∧ c.toNat ≤ 122 := by
    rw [halphanum, Bool.or_eq_true, Bool.or_eq_true, hupper, hlower] at h
    simp only [Bool.and_eq_true, decide_eq_true_eq, Char.le_def, UInt32.le_iff_toNat_le,
      Char.toNat_val, Char.reduceToNat] at h
    rcases h with (h | h) | h
    · omega
    · omega
    · have hdigit := toNat_of_isDigit h
      omega
  refine Bool.eq_false_iff.mpr fun hblank => ?_
  simp only [Text.isBlank, Bool.or_eq_true, Bool.and_eq_true, decide_eq_true_eq, beq_iff_eq]
    at hblank
  omega

theorem not_isBlank_of_isAlpha {c : Char} (h : c.isAlpha = true) : Text.isBlank c = false :=
  not_isBlank_of_isAlphanum (by simp [Char.isAlphanum, h])

/-- No color has a blank at its ends. -/
theorem IsForm.ends (h : IsForm cs) :
    cs ≠ [] ∧ (∀ c ∈ cs.head?, Text.isBlank c = false) ∧
      ∀ c ∈ cs.getLast?, Text.isBlank c = false := by
  cases h with
  | @hexadecimal digits hdigits hlength =>
    refine ⟨by simp, fun c hc => Option.mem_some.mp hc ▸ by decide, fun c hc => ?_⟩
    -- there are digits, and the last one is the end
    have hne : digits ≠ [] := by
      rintro rfl
      exact absurd hlength (by decide)
    rw [List.getLast?_cons_of_ne_nil hne] at hc
    exact not_isBlank_of_isAlphanum (isAlphanum_of_mem_hexDigits (hdigits c (List.mem_of_getLast? hc)))
  | @functional name inside hname hinside =>
    have hnames : ∀ name ∈ functions, name.toList ≠ [] := by decide
    refine ⟨by simp, fun c hc => ?_, fun c hc => ?_⟩
    · obtain ⟨first, rest, hcons⟩ := List.exists_cons_of_ne_nil (hnames name hname)
      rw [hcons, List.cons_append, List.head?_cons, Option.mem_some] at hc
      have hmem : c ∈ name.toList := hcons ▸ hc ▸ List.mem_cons_self ..
      exact not_isBlank_of_isAlpha (isAlpha_of_mem_functions hname c hmem)
    · rw [← List.cons_append, ← List.append_assoc, List.getLast?_concat, Option.mem_some] at hc
      exact hc ▸ by decide
  | word hne hletters =>
    refine ⟨hne, fun c hc => ?_, fun c hc => ?_⟩
    · exact not_isBlank_of_isAlpha (hletters c (List.mem_of_head? hc))
    · exact not_isBlank_of_isAlpha (hletters c (List.mem_of_getLast? hc))

end Color

open Color

theorem isColor_iff {s : String} : isColor s = true ↔ IsForm s.toList := by
  rw [isColor, Bool.or_eq_true, Bool.or_eq_true, isHexadecimal_iff, isFunctional_iff, isWord_iff]
  constructor
  · rintro ((⟨digits, hs, hchars, hlength⟩ | ⟨name, hname, rest, hs, hrest⟩) | ⟨hne, hchars⟩)
    · exact hs ▸ .hexadecimal hchars hlength
    · obtain ⟨inside, rfl, hinside⟩ := isArguments_iff.mp hrest
      exact hs ▸ .functional hname hinside
    · exact .word hne hchars
  · intro h
    generalize s.toList = cs at h
    cases h with
    | hexadecimal hchars hlength => exact Or.inl (Or.inl ⟨_, rfl, hchars, hlength⟩)
    | functional hname hinside =>
      exact Or.inl (Or.inr ⟨_, hname, _, rfl, isArguments_iff.mpr ⟨_, rfl, hinside⟩⟩)
    | word hne hchars => exact Or.inr ⟨hne, hchars⟩

/-- Blanks alone are arguments, but a unit alone is not. -/
example : isColor "rgb( )" = true ∧ isColor "rgb(deg)" = false := by decide

/-- Trimming takes the blanks around a color off, and nothing else. -/
theorem eq_trim_iff {s t : String} (h : IsForm t.toList) :
    t = Text.trim s ↔ ∃ before after, s.toList = before ++ t.toList ++ after ∧
      ∀ c ∈ before ++ after, Text.isBlank c = true := by
  constructor
  · rintro rfl
    obtain ⟨before, after, hs, hbefore, hafter⟩ := exists_trimBy Text.isBlank s.toList
    rw [← Text.toList_trim] at hs
    exact ⟨before, after, hs, List.forall_mem_append.mpr ⟨hbefore, hafter⟩⟩
  · rintro ⟨before, after, hs, hblank⟩
    obtain ⟨hbefore, hafter⟩ := List.forall_mem_append.mp hblank
    obtain ⟨hne, hhead, hlast⟩ := h.ends
    rw [← String.toList_inj, Text.toList_trim, hs, trimBy_append hbefore hafter hne hhead hlast]

theorem color_of_string {a : Attributes} {p : Property} {key s : String}
    (h : a.get? p = some (key, .string s)) :
    a.color p = if isColor (Text.trim s) then .ok (some (Text.trim s))
      else a.refuse key (.notAColor (Text.trim s)) := by
  rw [Attributes.color, h]
  rfl

/--
**The language of colors.** Of a text, the color check accepts exactly a color of the grammar with
blanks around it, and gives that color; so it accepts the text if what trimming leaves is a color of
the grammar. What it gives is harmless.
-/
theorem color_recognizes {a : Attributes} {p : Property} {key s : String}
    (h : a.get? p = some (key, .string s)) :
    (∀ t, a.color p = .ok (some t) ↔ IsForm t.toList ∧
      ∃ before after, s.toList = before ++ t.toList ++ after ∧
        ∀ c ∈ before ++ after, Text.isBlank c = true) ∧
    ((∃ r, a.color p = .ok r) ↔ IsForm (Text.trim s).toList) ∧
    ∀ t, a.color p = .ok (some t) → IsHarmless t.toList := by
  -- a color that is accepted is the text without the blanks around it
  have haccepts : ∀ t, a.color p = .ok (some t) ↔ IsForm t.toList ∧ t = Text.trim s := by
    intro t
    rw [color_of_string h]
    split
    · rename_i hcolor
      rw [Except.ok.injEq, Option.some.injEq]
      exact ⟨fun ht => ⟨ht ▸ isColor_iff.mp hcolor, ht.symm⟩, fun ht => ht.2.symm⟩
    · rename_i hcolor
      refine ⟨nofun, fun ⟨hform, ht⟩ => absurd (isColor_iff.mpr (ht ▸ hform)) hcolor⟩
  refine ⟨fun t => ?_, ?_, fun t ht => ((haccepts t).mp ht).1.isHarmless⟩
  · rw [haccepts]
    exact and_congr_right fun hform => eq_trim_iff hform
  · rw [color_of_string h, ← isColor_iff]
    split
    · rename_i hcolor
      exact ⟨fun _ => hcolor, fun _ => ⟨_, rfl⟩⟩
    · rename_i hcolor
      exact ⟨nofun, fun hform => absurd hform hcolor⟩

/-- A box whose background has an angle, and blanks of several kinds. -/
def turnedBox : Component where
  id := ⟨1⟩
  kind := "box"
  appearance := [("background", .string "\u2003hsl(\t.5turn 40%\u00a0)\n")]

theorem turnedBox_color :
    (Attributes.of turnedBox).color .fill = .ok (some "hsl(\t.5turn 40%\u00a0)") ∧
      IsForm "hsl(\t.5turn 40%\u00a0)".toList ∧ IsHarmless "hsl(\t.5turn 40%\u00a0)".toList := by
  have hget : (Attributes.of turnedBox).get? .fill =
      some ("background", .string "\u2003hsl(\t.5turn 40%\u00a0)\n") := rfl
  obtain ⟨haccepts, -, hharmless⟩ := color_recognizes hget
  have hcolor : (Attributes.of turnedBox).color .fill = .ok (some "hsl(\t.5turn 40%\u00a0)") := by
    decide +kernel
  exact ⟨hcolor, ((haccepts _).mp hcolor).1, hharmless _ hcolor⟩

end DesignCompiler
