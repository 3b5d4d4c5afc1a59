import DesignCompiler.Proofs.Element.Colors
import DesignCompiler.Proofs.Element.Lowering
import DesignCompiler.Proofs.Stylesheet.Order
import DesignCompiler.Proofs.Text.Digits

/-!
# DesignCompiler — values without delimiters

Braces and semicolons are the only characters by which a stylesheet falls into rules and
declarations, and no value that is written for a checked element has one of them: numbers and colors
are made of other characters, and texts that are written as they stand were refused if they had any.

* `isDelimiter`, `IsPlain` — the three characters, and texts without them;
* `mem_number`, `mem_color`, `plain_quote` — the characters of values;
* `IsValue`, `written_declarations` — the values that an element declares;
* `Readable`, `readable_declarations` — none of them has a delimiter.
-/

namespace DesignCompiler.Stylesheet

/-- A character that ends a selector, a declaration or a rule. -/
def isDelimiter (c : Char) : Bool :=
  c == '\x7b' || c == '\x7d' || c == ';'

/-- A text without such characters. -/
def IsPlain (s : String) : Prop :=
  ∀ c ∈ s.toList, isDelimiter c = false

instance (s : String) : Decidable (IsPlain s) :=
  List.decidableBAll (fun c => isDelimiter c = false) s.toList

/-- A text of characters among which there is no delimiter. -/
theorem plain_of_chars {p : Char → Bool} (hopen : p '\x7b' = false) (hclose : p '\x7d' = false)
    (hend : p ';' = false) {s : String} (h : ∀ c ∈ s.toList, p c = true) : IsPlain s := by
  intro c hc
  have hp := h c hc
  refine Bool.eq_false_iff.mpr fun hdelimiter => ?_
  simp only [isDelimiter, Bool.or_eq_true, beq_iff_eq] at hdelimiter
  rcases hdelimiter with (rfl | rfl) | rfl
  · rw [hopen] at hp
    exact nomatch hp
  · rw [hclose] at hp
    exact nomatch hp
  · rw [hend] at hp
    exact nomatch hp

theorem IsPlain.append {s t : String} (hs : IsPlain s) (ht : IsPlain t) : IsPlain (s ++ t) := by
  intro c hc
  rw [String.toList_append, List.mem_append] at hc
  exact hc.elim (hs c) (ht c)

/-! ## Numbers -/

/-- A digit, a letter, a point or a sign. -/
def isNumeralChar (c : Char) : Bool :=
  c.isAlphanum || c == '.' || c == '-'

theorem isNumeralChar_of_isDigit {c : Char} (h : c.isDigit = true) : isNumeralChar c = true := by
  simp [isNumeralChar, Char.isAlphanum, h]

theorem mem_toDigits {n : Nat} {c : Char} (h : c ∈ Nat.toDigits 10 n) : isNumeralChar c = true :=
  isNumeralChar_of_isDigit (isDigit_of_mem_toDigits h)

theorem mem_numeral {n : Nat} {c : Char} (h : c ∈ numeral n) : isNumeralChar c = true := by
  unfold numeral at h
  split at h
  · exact mem_toDigits h
  · -- a point, and one digit or two
    split at h
    · rw [List.mem_append, List.mem_cons] at h
      rcases h with h | rfl | h
      · exact mem_toDigits h
      · decide
      · exact mem_toDigits h
    · rw [List.mem_append, List.mem_cons, List.mem_append] at h
      rcases h with h | rfl | h | h
      · exact mem_toDigits h
      · decide
      · exact mem_toDigits h
      · exact mem_toDigits h

/-- A number that is not finite is written by its word. -/
theorem mem_plain_of_not_finite {x : Binary64} (hx : x.isFinite = false) {c : Char}
    (h : c ∈ x.plain.toList) : isNumeralChar c = true := by
  have hwords : ("NaN-inf".toList.all isNumeralChar) = true := by decide
  refine List.all_eq_true.mp hwords c ?_
  unfold Binary64.plain at h
  split at h
  · simp at h
    grind
  · simp only [hx, Bool.false_eq_true, if_false, String.toList_ofList] at h
    split at h
    · simp at h
      grind
    · simp at h
      grind

theorem mem_number {x : Binary64} {c : Char} (h : c ∈ (number x).toList) :
    isNumeralChar c = true := by
  unfold number at h
  simp only at h
  -- A zero, a number that is not finite, and a signed numeral.
  split at h
  · simp at h
    rw [h]
    decide
  · split at h
    · rename_i hfinite
      exact mem_plain_of_not_finite (by simpa using hfinite) h
    · rw [String.toList_ofList, List.mem_append] at h
      rcases h with h | h
      · split at h
        · rw [List.mem_singleton] at h
          rw [h]
          decide
        · simp at h
      · exact mem_numeral h

theorem mem_pixels {x : Binary64} {c : Char} (h : c ∈ (pixels x).toList) :
    isNumeralChar c = true := by
  unfold pixels at h
  simp only at h
  split at h
  · exact mem_number h
  · rw [String.toList_append, List.mem_append] at h
    rcases h with h | h
    · exact mem_number h
    · have hunit : ("px".toList.all isNumeralChar) = true := by decide
      exact List.all_eq_true.mp hunit c h

/-! ## Colors -/

/-- A character between the parentheses of a functional color. -/
def isInnerChar (c : Char) : Bool :=
  c.isAlphanum || Color.isArgumentChar c

/-- The three forms of a color. -/
theorem color_cases {s : String} (h : isColor s = true) :
    (∀ c ∈ s.toList, c.isAlphanum = true ∨ c = '#') ∨
      ∃ word inner, s.toList = word ++ '(' :: (inner ++ [')']) ∧ (∀ c ∈ word, c.isAlpha = true) ∧
        ∀ c ∈ inner, isInnerChar c = true := by
  have hform := isColor_iff.mp h
  generalize s.toList = cs at hform
  -- A function is the only form with more than letters, digits and `#`.
  cases hform with
  | hexadecimal hdigits _ =>
    refine Or.inl fun c hc => ?_
    rcases List.mem_cons.mp hc with rfl | hc
    · exact Or.inr rfl
    · exact Or.inl (Color.isAlphanum_of_mem_hexDigits (hdigits c hc))
  | functional hname hinside =>
    refine Or.inr ⟨_, _, rfl, Color.isAlpha_of_mem_functions hname, fun c hc => ?_⟩
    have hchar := hinside.chars c hc
    simp only [Color.isInsideChar, Bool.or_eq_true] at hchar
    rcases hchar with hchar | hchar
    · simp [isInnerChar, Char.isAlphanum, hchar]
    · simp [isInnerChar, hchar]
  | word _ hletters => exact Or.inl fun c hc => Or.inl (by simp [Char.isAlphanum, hletters c hc])

/-- A character of a color. -/
def isColorChar (c : Char) : Bool :=
  isInnerChar c || c == '#' || c == '(' || c == ')'

theorem mem_color {s : String} (h : isColor s = true) {c : Char} (hc : c ∈ s.toList) :
    isColorChar c = true := by
  rcases color_cases h with hall | ⟨word, inner, hs, hword, hinner⟩
  · rcases hall c hc with hc | rfl
    · simp [isColorChar, isInnerChar, hc]
    · decide
  · rw [hs, List.mem_append, List.mem_cons, List.mem_append, List.mem_singleton] at hc
    rcases hc with hc | rfl | hc | rfl
    · simp [isColorChar, isInnerChar, Char.isAlphanum, hword c hc]
    · decide
    · simp [isColorChar, hinner c hc]
    · decide

theorem plain_color {s : String} (h : isColor s = true) : IsPlain s :=
  plain_of_chars (by decide) (by decide) (by decide) fun _ hc => mem_color h hc

/-! ## Texts -/

theorem plain_of_breaksStylesheet {s : String} (h : Attributes.breaksStylesheet s = false) :
    IsPlain s := by
  intro c hc
  have hchar := List.any_eq_false.mp h c hc
  simp only [Bool.or_eq_true, beq_iff_eq, not_or] at hchar
  simp [isDelimiter, hchar]

/-- The quote and the backslash are written behind a backslash, all others as they stand. -/
theorem escape_cases (c : Char) :
    (c = '\\' ∨ c = '"') ∧ escape c = ['\\', c] ∨ (c ≠ '\\' ∧ c ≠ '"') ∧ escape c = [c] := by
  rw [escape]
  split
  · rename_i h
    rw [Bool.or_eq_true, decide_eq_true_eq, decide_eq_true_eq] at h
    exact Or.inl ⟨h, rfl⟩
  · rename_i h
    rw [Bool.or_eq_true, decide_eq_true_eq, decide_eq_true_eq, not_or] at h
    exact Or.inr ⟨h, rfl⟩

theorem plain_escape {x : Char} (h : isDelimiter x = false) : ∀ c ∈ escape x, isDelimiter c = false := by
  rcases escape_cases x with ⟨-, hescape⟩ | ⟨-, hescape⟩
  · rw [hescape]
    simpa [h] using show isDelimiter '\\' = false by decide
  · rw [hescape]
    simpa using h

theorem plain_quote {s : String} (h : IsPlain s) : IsPlain (quote s) := by
  intro c hc
  rw [quote, String.toList_ofList, List.cons_append, List.mem_cons, List.mem_append] at hc
  rcases hc with rfl | hc | hc
  · decide
  · obtain ⟨x, hx, hc⟩ := List.mem_flatMap.mp hc
    exact plain_escape (h x hx) c hc
  · rw [List.mem_singleton] at hc
    rw [hc]
    decide

/-! ## Values of an element -/

/-- The font family that an element declares. -/
def fontFamily? (e : PageElement) : Option String :=
  e.element.typography?.bind (·.fontFamily)

/-- The picture that an element declares as its background. -/
def backgroundSource? (e : PageElement) : Option String :=
  match e.element with
  | .image p => if e.hasChildren then some p.source else none
  | _ => none

/-- A character of a keyword, a number or a length. -/
def isWordChar (c : Char) : Bool :=
  isNumeralChar c || c == '%' || c == ' '

theorem isWordChar_of_isNumeralChar {c : Char} (h : isNumeralChar c = true) :
    isWordChar c = true := by
  simp [isWordChar, h]

/-- The values that an element can declare. Two of them have a text that nobody but its author has
chosen: a font family, which stands there as it is, and the source of a picture, between quotes. -/
inductive IsValue (e : PageElement) : String → Prop where
  /-- Keywords and numbers. -/
  | word {w : String} (h : ∀ c ∈ w.toList, isWordChar c = true) : IsValue e w
  | color {c : String} (h : isColor c = true) : IsValue e c
  | border {width c : String} (hwidth : ∀ c ∈ width.toList, isWordChar c = true)
      (hcolor : isColor c = true) : IsValue e (width ++ " solid " ++ c)
  | family {f : String} (h : fontFamily? e = some f)
      (hchecked : Attributes.breaksStylesheet f = false) : IsValue e f
  | image {source : String} (h : backgroundSource? e = some source)
      (hchecked : Attributes.breaksStylesheet source = false) :
      IsValue e ("url(" ++ quote source ++ ")")

variable {e : PageElement}

theorem IsValue.isPlain {v : String} (h : IsValue e v) : IsPlain v := by
  cases h with
  | word h => exact plain_of_chars (by decide) (by decide) (by decide) h
  | color h => exact plain_color h
  | border hwidth hcolor =>
    have hplain : IsPlain _ := plain_of_chars (by decide) (by decide) (by decide) hwidth
    exact (hplain.append (by decide)).append (plain_color hcolor)
  | family _ hchecked => exact plain_of_breaksStylesheet hchecked
  | image _ hchecked =>
    have hplain := plain_quote (plain_of_breaksStylesheet hchecked)
    exact (IsPlain.append (by decide) hplain).append (by decide)

/-! ## Declarations -/

/-- A declaration of an element: one of the properties, and a value. -/
structure Written (e : PageElement) (d : Declaration) : Prop where
  property : d.property ∈ propertyOrder
  value : IsValue e d.value

theorem written_declare {property : String} (hproperty : property ∈ propertyOrder)
    {o : Option String} (h : ∀ s ∈ o, IsValue e s) : ∀ d ∈ declare property o, Written e d := by
  intro d hd
  cases o with
  | none => exact nomatch hd
  | some s =>
    rw [declare, List.mem_singleton] at hd
    rw [hd]
    exact ⟨hproperty, h s rfl⟩

/-- A value that is computed from another one. -/
theorem isValue_of_mem_map {α : Type} {f : α → String} {o : Option α}
    (h : ∀ a ∈ o, IsValue e (f a)) : ∀ s ∈ o.map f, IsValue e s := by
  intro s hs
  obtain ⟨a, ha, rfl⟩ := Option.map_eq_some_iff.mp hs
  exact h a ha

theorem isValue_number (x : Binary64) : IsValue e (number x) :=
  .word fun _ hc => isWordChar_of_isNumeralChar (mem_number hc)

theorem isValue_pixels (x : Binary64) : IsValue e (pixels x) :=
  .word fun _ hc => isWordChar_of_isNumeralChar (mem_pixels hc)

theorem isValue_keyword {w : String} (h : w.toList.all isWordChar = true) : IsValue e w :=
  .word (List.all_eq_true.mp h)

theorem written_placement (isRoot : Bool) (g : Geometry) :
    ∀ d ∈ placement isRoot g, Written e d := by
  intro d hd
  cases isRoot
  · simp only [placement, Bool.false_eq_true, if_false, List.cons_append, List.nil_append,
      List.mem_cons, List.not_mem_nil, or_false] at hd
    rcases hd with rfl | rfl | rfl | rfl | rfl
    · exact ⟨by decide, isValue_keyword (by decide)⟩
    all_goals exact ⟨by simp [propertyOrder], isValue_pixels _⟩
  · simp only [placement, if_true, List.cons_append, List.nil_append, List.mem_cons,
      List.not_mem_nil, or_false] at hd
    rcases hd with rfl | rfl | rfl
    · exact ⟨by decide, isValue_keyword (by decide)⟩
    all_goals exact ⟨by simp [propertyOrder], isValue_pixels _⟩

theorem written_background (h : e.element.Checked) : ∀ d ∈ background e, Written e d := by
  intro d hd
  unfold background at hd
  split at hd
  · rename_i p hp
    split at hd
    · rename_i hchildren
      have hsource : backgroundSource? e = some p.source := by
        rw [backgroundSource?, hp]
        exact if_pos hchildren
      rw [List.mem_cons, List.mem_singleton] at hd
      rcases hd with rfl | rfl
      · exact ⟨by simp [propertyOrder], .image hsource (h.source p hp)⟩
      · refine ⟨by simp [propertyOrder], isValue_keyword ?_⟩
        cases p.fit.getD .cover <;> decide
    · exact nomatch hd
  · exact nomatch hd

theorem written_font (h : e.element.Checked) {t : Typography} (ht : e.element.typography? = some t) :
    ∀ d ∈ font t, Written e d := by
  have hchecked := h.typography t ht
  intro d hd
  simp only [font, List.mem_append] at hd
  -- One case for each declaration, in the order they are written.
  rcases hd with (((hd | hd) | hd) | hd) | hd
  · exact written_declare (by simp [propertyOrder]) (fun c hc => .color (hchecked.color c hc)) d hd
  · refine written_declare (by simp [propertyOrder]) (fun f hf => ?_) d hd
    exact .family (by rw [fontFamily?, ht]; exact hf) (hchecked.fontFamily f hf)
  · refine written_declare (by simp [propertyOrder]) (isValue_of_mem_map fun x _ => ?_) d hd
    exact isValue_pixels x
  · refine written_declare (by simp [propertyOrder]) (fun w hw => isValue_keyword ?_) d hd
    have hwords : (Attributes.weights.all fun w => w.toList.all isWordChar) = true := by decide
    exact List.all_eq_true.mp hwords w (hchecked.fontWeight w hw)
  · refine written_declare (by simp [propertyOrder]) (isValue_of_mem_map fun a _ => ?_) d hd
    exact isValue_keyword (by cases a <;> decide)

theorem written_behaviour (e : PageElement) : ∀ d ∈ behaviour e, Written e d := by
  intro d hd
  unfold behaviour at hd
  split at hd
  · split at hd
    · exact nomatch hd
    · refine written_declare (by simp [propertyOrder]) (isValue_of_mem_map fun f _ => ?_) d hd
      exact isValue_keyword (by cases f <;> decide)
  · rename_i b hb
    rw [List.mem_singleton] at hd
    rw [hd]
    refine ⟨by simp [propertyOrder], isValue_keyword ?_⟩
    show (if b.disabled then "not-allowed" else "pointer").toList.all isWordChar = true
    split
    · decide
    · decide
  · exact nomatch hd

/-- What a checked element declares, one group of declarations after the other. -/
theorem written_declarations (h : e.element.Checked) : ∀ d ∈ e.declarations, Written e d := by
  intro d hd
  rw [PageElement.declarations_eq, PageElement.declared_eq] at hd
  simp only [List.mem_append] at hd
  rcases hd with ((((((hd | hd) | hd) | hd) | hd) | hd) | hd) | hd
  · -- placement
    split at hd
    · exact nomatch hd
    · exact written_placement _ _ d hd
  · -- fill, background and border
    refine written_declare (by simp [propertyOrder]) (fun c hc => ?_) d hd
    exact .color (h.style.fill c hc)
  · exact written_background h d hd
  · refine written_declare (by simp [propertyOrder]) (isValue_of_mem_map fun l hl => ?_) d hd
    exact .border (fun _ hc => isWordChar_of_isNumeralChar (mem_pixels hc)) (h.style.border l hl)
  · -- radius and opacity
    refine written_declare (by simp [propertyOrder]) (isValue_of_mem_map fun x _ => ?_) d hd
    exact isValue_pixels x
  · refine written_declare (by simp [propertyOrder]) (isValue_of_mem_map fun x _ => ?_) d hd
    exact isValue_number x
  · -- font, and what else the kind of element has
    split at hd
    · exact nomatch hd
    · rename_i t ht
      exact written_font h ht d hd
  · exact written_behaviour e d hd

/-- A declaration that stays whole: one of the properties, and a value without delimiters. -/
structure Readable (d : Declaration) : Prop where
  property : d.property ∈ propertyOrder
  value : IsPlain d.value

/-- **What a checked element declares can be read back: no value breaks out of its place.** -/
theorem readable_declarations (h : e.element.Checked) : ∀ d ∈ e.declarations, Readable d :=
  fun d hd => ⟨(written_declarations h d hd).property, (written_declarations h d hd).value.isPlain⟩

end DesignCompiler.Stylesheet
