import DesignCompiler.Proofs.Stylesheet.Hundredths
import DesignCompiler.Proofs.Text.Digits
import DesignCompiler.Proofs.Text.Spans

/-!
# DesignCompiler — numerals in stylesheets

A number of a stylesheet is written as a decimal numeral in its only shortest form: no zero in front of
the digits, none behind the last one of a fraction, and no sign for zero. Such a numeral is the one with
two places whose last zeros were trimmed, and trimming ends at the point.

* `IsNumeral` — the grammar;
* `twoPlaces`, `trimZeros`, `trimZeros_twoPlaces` — the numeral that is trimmed;
* `Decimal.value`, `spelled?`, `spelled?_numeral` — the number that is read back;
* `IsTextOf`, `number_isTextOf` — what is written for every finite number.
-/

namespace DesignCompiler

/-- The rational number that a decimal is. -/
def Decimal.value (d : Decimal) : ℚ :=
  d.coefficient * 10 ^ d.exponent

namespace Stylesheet

/-! ## Grammar -/

/-- The digits before the point. A zero is the first of them only if it is the only one. -/
structure IsWhole (cs : List Char) : Prop where
  nonempty : cs ≠ []
  digits : ∀ c ∈ cs, c.isDigit = true
  leading : cs.head? = some '0' → cs = ['0']

/-- A fraction: none, or a point and one digit or two. A zero is not the last of them. -/
inductive IsFraction : List Char → Prop
  | none : IsFraction []
  | tenths {t : Char} (ht : t.isDigit = true) (hlast : t ≠ '0') : IsFraction ['.', t]
  | hundredths {t h : Char} (ht : t.isDigit = true) (hh : h.isDigit = true) (hlast : h ≠ '0') :
      IsFraction ['.', t, h]

/-- A decimal numeral: a minus sign at will, digits, and a fraction at will. -/
def IsNumeral (cs : List Char) : Prop :=
  ∃ sign whole fraction, cs = sign ++ (whole ++ fraction) ∧ (sign = [] ∨ sign = ['-']) ∧
    IsWhole whole ∧ IsFraction fraction

theorem IsNumeral.ne_nil {cs : List Char} (h : IsNumeral cs) : cs ≠ [] := by
  obtain ⟨sign, whole, fraction, rfl, -, hwhole, -⟩ := h
  simp [hwhole.nonempty]

theorem IsFraction.chars {cs : List Char} (h : IsFraction cs) :
    ∀ c ∈ cs, c.isDigit = true ∨ c = '.' := by
  cases h with
  | none => simp
  | tenths ht => simp [ht]
  | hundredths ht hh => simp [ht, hh]

theorem IsNumeral.chars {cs : List Char} (h : IsNumeral cs) :
    ∀ c ∈ cs, c.isDigit = true ∨ c = '.' ∨ c = '-' := by
  obtain ⟨sign, whole, fraction, rfl, hsign, hwhole, hfraction⟩ := h
  intro c hc
  rw [List.mem_append, List.mem_append] at hc
  rcases hc with hc | hc | hc
  · rcases hsign with rfl | rfl
    · cases hc
    · exact Or.inr (Or.inr (List.mem_singleton.mp hc))
  · exact Or.inl (hwhole.digits c hc)
  · exact (hfraction.chars c hc).imp_right Or.inl

/-! ## Counts of hundredths -/

theorem isWhole_toDigits (k : Nat) : IsWhole (Nat.toDigits 10 k) where
  nonempty := Nat.toDigits_ne_nil
  digits _ := isDigit_of_mem_toDigits
  leading := by
    intro hhead
    rcases Nat.eq_zero_or_pos k with rfl | hk
    · rfl
    · exact absurd hhead (head?_toDigits hk)

/-- The digits of the tenths and of the hundredths. -/
def tenth (n : Nat) : Char :=
  (n / 10 % 10).digitChar

/-- See `tenth`. -/
def hundredth (n : Nat) : Char :=
  (n % 10).digitChar

theorem tenth_spec (n : Nat) :
    (tenth n).isDigit = true ∧ (tenth n).toNat - '0'.toNat = n / 10 % 10 ∧
      (tenth n = '0' ↔ n / 10 % 10 = 0) :=
  digitChar_spec (Nat.mod_lt _ (by decide))

theorem hundredth_spec (n : Nat) :
    (hundredth n).isDigit = true ∧ (hundredth n).toNat - '0'.toNat = n % 10 ∧
      (hundredth n = '0' ↔ n % 10 = 0) :=
  digitChar_spec (Nat.mod_lt _ (by decide))

/-- The three forms of a numeral. -/
theorem numeral_cases (n : Nat) :
    (n % 100 = 0 ∧ numeral n = Nat.toDigits 10 (n / 100)) ∨
      (n % 10 = 0 ∧ n / 10 % 10 ≠ 0 ∧ numeral n = Nat.toDigits 10 (n / 100) ++ ['.', tenth n]) ∨
      n % 10 ≠ 0 ∧ numeral n = Nat.toDigits 10 (n / 100) ++ ['.', tenth n, hundredth n] := by
  have htenth : Nat.toDigits 10 (n / 10 % 10) = [tenth n] :=
    Nat.toDigits_of_lt_base (Nat.mod_lt _ (by decide))
  have hhundredth : Nat.toDigits 10 (n % 10) = [hundredth n] :=
    Nat.toDigits_of_lt_base (Nat.mod_lt _ (by decide))
  simp only [numeral, htenth, hhundredth]
  split
  · rename_i hwhole
    exact Or.inl ⟨hwhole, rfl⟩
  · rename_i hwhole
    split
    · rename_i hten
      exact Or.inr (Or.inl ⟨hten, by omega, rfl⟩)
    · rename_i hten
      exact Or.inr (Or.inr ⟨hten, rfl⟩)

/-- A numeral has all the digits before the point. -/
theorem exists_fraction (n : Nat) :
    ∃ fraction, IsFraction fraction ∧ numeral n = Nat.toDigits 10 (n / 100) ++ fraction := by
  obtain ⟨ht, -, htzero⟩ := tenth_spec n
  obtain ⟨hh, -, hhzero⟩ := hundredth_spec n
  rcases numeral_cases n with ⟨-, hnumeral⟩ | ⟨-, htenth, hnumeral⟩ | ⟨hhundredth, hnumeral⟩
  · exact ⟨[], .none, by rw [hnumeral, List.append_nil]⟩
  · exact ⟨_, .tenths ht (mt htzero.mp htenth), hnumeral⟩
  · exact ⟨_, .hundredths ht hh (mt hhzero.mp hhundredth), hnumeral⟩

/-! ## Trimming -/

/-- The numeral with two places. -/
def twoPlaces (n : Nat) : List Char :=
  Nat.toDigits 10 (n / 100) ++ ['.', tenth n, hundredth n]

/-- A text without the zeros at its end, and without the points at the end of what is left. -/
def trimZeros (cs : List Char) : List Char :=
  Text.dropEndWhile (· == '.') (Text.dropEndWhile (· == '0') cs)

/-- Zeros behind the point are trimmed, and so is the point. -/
theorem trimZeros_point {text zeros : List Char} (hzeros : ∀ c ∈ zeros, c = '0')
    (hlast : ∀ c ∈ text.getLast?, c ≠ '.') : trimZeros (text ++ ['.'] ++ zeros) = text := by
  rw [trimZeros, dropEndWhile_append_stop (by simpa using hzeros) (by simp),
    dropEndWhile_append_stop (by simp) (by simpa using hlast)]

/-- Zeros behind another digit are trimmed alone. -/
theorem trimZeros_digit {text zeros : List Char} {d : Char} (hzeros : ∀ c ∈ zeros, c = '0')
    (hd : d.isDigit = true) (hne : d ≠ '0') : trimZeros (text ++ [d] ++ zeros) = text ++ [d] := by
  have hpoint : d ≠ '.' := by
    rintro rfl
    cases hd
  have htrim : Text.dropEndWhile (· == '.') (text ++ [d] ++ []) = text ++ [d] :=
    dropEndWhile_append_stop (by simp) (by simp [hpoint])
  rw [List.append_nil] at htrim
  rw [trimZeros, dropEndWhile_append_stop (by simpa using hzeros) (by simp [hne]), htrim]

/-- **Trimming ends at the point.** The numeral is the one with two places, trimmed. -/
theorem trimZeros_twoPlaces (sign : List Char) (n : Nat) :
    trimZeros (sign ++ twoPlaces n) = sign ++ numeral n := by
  obtain ⟨ht, -, htzero⟩ := tenth_spec n
  obtain ⟨hh, -, hhzero⟩ := hundredth_spec n
  have htext : sign ++ twoPlaces n =
      sign ++ Nat.toDigits 10 (n / 100) ++ ['.'] ++ [tenth n] ++ [hundredth n] := by
    simp [twoPlaces]
  rcases numeral_cases n with ⟨hwhole, hnumeral⟩ | ⟨hten, htenth, hnumeral⟩ | ⟨hhundredth, hnumeral⟩
  · -- Both places are zeros and go, with the point.
    have hlast : ∀ c ∈ (sign ++ Nat.toDigits 10 (n / 100)).getLast?, c ≠ '.' := by
      rintro c hc rfl
      rw [List.getLast?_append_of_ne_nil _ Nat.toDigits_ne_nil] at hc
      exact absurd (isDigit_of_mem_toDigits (List.mem_of_getLast? hc)) (by decide)
    have hzeros : ∀ c ∈ [tenth n] ++ [hundredth n], c = '0' := by
      simp only [List.singleton_append, List.forall_mem_cons, htzero, hhzero]
      exact ⟨by omega, by omega, nofun⟩
    rw [htext, List.append_assoc _ [tenth n], trimZeros_point hzeros hlast, hnumeral]
  · -- Only the last place is a zero.
    have hzeros : ∀ c ∈ [hundredth n], c = '0' := by simp [hhzero, hten]
    rw [htext, trimZeros_digit hzeros ht (mt htzero.mp htenth), hnumeral]
    simp
  · -- The last place is not a zero, so nothing goes.
    have hnone : ∀ c ∈ ([] : List Char), c = '0' := nofun
    rw [htext, ← List.append_nil (_ ++ [hundredth n]),
      trimZeros_digit hnone hh (mt hhzero.mp hhundredth), hnumeral]
    simp

/-! ## Reading back -/

/-- The number that a text spells, a minus sign in front at will. -/
def spelled? : List Char → Option ℚ
  | '-' :: cs => (Decimal.ofText? cs).map fun d => -d.value
  | cs => (Decimal.ofText? cs).map Decimal.value

theorem ofText?_whole {ds : List Char} (hne : ds ≠ []) (hds : ∀ c ∈ ds, c.isDigit = true) :
    Decimal.ofText? ds = some ⟨Decimal.ofDigits ds, 0⟩ := by
  have htake : ds.takeWhile Char.isDigit = ds := List.takeWhile_eq_self_iff.mpr hds
  have hdrop : ds.dropWhile Char.isDigit = [] := List.dropWhile_eq_nil_iff.mpr hds
  simp [Decimal.ofText?, htake, hdrop, hne]

theorem ofText?_point {whole part : List Char} (hne : whole ≠ [])
    (hwhole : ∀ c ∈ whole, c.isDigit = true) (hpart : ∀ c ∈ part, c.isDigit = true) :
    Decimal.ofText? (whole ++ '.' :: part) =
      some ⟨Decimal.ofDigits (whole ++ part), -(part.length : Int)⟩ := by
  have hpoint : ∀ c ∈ ('.' :: part).head?, c.isDigit = false := by
    rintro c ⟨⟩
    rfl
  have htake : part.takeWhile Char.isDigit = part := List.takeWhile_eq_self_iff.mpr hpart
  have hdrop : part.dropWhile Char.isDigit = [] := List.dropWhile_eq_nil_iff.mpr hpart
  simp [Decimal.ofText?, takeWhile_append_stop hwhole hpoint, dropWhile_append_stop hwhole hpoint,
    htake, hdrop, hne]

/-- A numeral is read back as the hundredths that were counted. -/
theorem ofText?_numeral (n : Nat) :
    (Decimal.ofText? (numeral n)).map Decimal.value = some ((n : ℚ) / 100) := by
  obtain ⟨ht, htvalue, -⟩ := tenth_spec n
  obtain ⟨hh, hhvalue, -⟩ := hundredth_spec n
  have hdigits : ∀ c ∈ Nat.toDigits 10 (n / 100), c.isDigit = true := fun _ =>
    isDigit_of_mem_toDigits
  have hvalue : Nat.ofDigitChars 10 (Nat.toDigits 10 (n / 100)) 0 = n / 100 :=
    Nat.ofDigitChars_ten_toDigits
  -- One case for each number of places written.
  rcases numeral_cases n with ⟨hwhole, hnumeral⟩ | ⟨hten, -, hnumeral⟩ | ⟨-, hnumeral⟩
  · have hcount : n = 100 * (n / 100) := by omega
    have hscale : ((n / 100 : Nat) : ℚ) * 10 ^ (0 : Int) = n / 100 := by
      conv_rhs => rw [hcount]
      push_cast
      ring
    rw [hnumeral, ofText?_whole Nat.toDigits_ne_nil hdigits, Decimal.ofDigits, hvalue]
    exact congrArg some hscale
  · have hcount : n = 10 * (10 * (n / 100) + n / 10 % 10) := by omega
    have hscale : ((10 * (n / 100) + n / 10 % 10 : Nat) : ℚ) * 10 ^ (-1 : Int) = n / 100 := by
      conv_rhs => rw [hcount]
      push_cast
      ring
    rw [hnumeral, ofText?_point Nat.toDigits_ne_nil hdigits (by simp [ht]),
      Decimal.ofDigits, Nat.ofDigitChars_append, hvalue, Nat.ofDigitChars_cons, htvalue]
    exact congrArg some hscale
  · have hcount : 10 * (10 * (n / 100) + n / 10 % 10) + n % 10 = n := by omega
    have hscale : (n : ℚ) * 10 ^ (-2 : Int) = n / 100 := by
      norm_num
      ring
    rw [hnumeral, ofText?_point Nat.toDigits_ne_nil hdigits (by simp [ht, hh]),
      Decimal.ofDigits, Nat.ofDigitChars_append, hvalue, Nat.ofDigitChars_cons, htvalue,
      Nat.ofDigitChars_cons, hhvalue, hcount]
    exact congrArg some hscale

/-! ## Signed counts -/

/-- The sign of a count; zero has none. -/
def signOf (negative : Bool) (n : Nat) : List Char :=
  if negative && n != 0 then ['-'] else []

/-- The number that a signed count of hundredths is. -/
def signedValue (negative : Bool) (n : Nat) : ℚ :=
  if negative then -(n / 100) else n / 100

theorem signOf_cases (negative : Bool) (n : Nat) :
    negative = true ∧ n ≠ 0 ∧ signOf negative n = ['-'] ∨
      (negative = false ∨ n = 0) ∧ signOf negative n = [] := by
  unfold signOf
  split
  · rename_i h
    rw [Bool.and_eq_true, bne_iff_ne] at h
    exact Or.inl ⟨h.1, h.2, rfl⟩
  · rename_i h
    rw [Bool.and_eq_true, bne_iff_ne, Decidable.not_and_iff_not_or_not, Bool.not_eq_true,
      not_not] at h
    exact Or.inr ⟨h, rfl⟩

/-- A numeral begins with a digit. -/
theorem exists_head_numeral (n : Nat) : ∃ c cs, numeral n = c :: cs ∧ c.isDigit = true := by
  obtain ⟨fraction, -, hnumeral⟩ := exists_fraction n
  obtain ⟨c, cs, hdigits⟩ := List.exists_cons_of_ne_nil (Nat.toDigits_ne_nil (n := n / 100) (b := 10))
  refine ⟨c, cs ++ fraction, by rw [hnumeral, hdigits, List.cons_append], ?_⟩
  exact isDigit_of_mem_toDigits (hdigits ▸ List.mem_cons_self ..)

theorem spelled?_of_isDigit {c : Char} (hc : c.isDigit = true) (cs : List Char) :
    spelled? (c :: cs) = (Decimal.ofText? (c :: cs)).map Decimal.value := by
  rw [spelled?]
  rintro cs ⟨⟩
  cases hc

theorem spelled?_numeral (negative : Bool) (n : Nat) :
    spelled? (signOf negative n ++ numeral n) = some (signedValue negative n) := by
  have hread := ofText?_numeral n
  rcases signOf_cases negative n with ⟨rfl, -, hsign⟩ | ⟨hplus, hsign⟩
  · obtain ⟨d, hd, hvalue⟩ := Option.map_eq_some_iff.mp hread
    rw [hsign, List.singleton_append, spelled?, hd, Option.map_some, hvalue]
    rfl
  · obtain ⟨c, cs, hnumeral, hc⟩ := exists_head_numeral n
    have hvalue : signedValue negative n = n / 100 := by
      rcases hplus with rfl | rfl
      · rfl
      · simp [signedValue]
    rw [hsign, List.nil_append, hvalue, hnumeral, spelled?_of_isDigit hc, ← hnumeral, hread]

theorem isNumeral_numeral (negative : Bool) (n : Nat) : IsNumeral (signOf negative n ++ numeral n) := by
  obtain ⟨fraction, hfraction, hnumeral⟩ := exists_fraction n
  refine ⟨signOf negative n, _, fraction, by rw [hnumeral], ?_, isWhole_toDigits _, hfraction⟩
  rcases signOf_cases negative n with ⟨-, -, hsign⟩ | ⟨-, hsign⟩
  · exact Or.inr hsign
  · exact Or.inl hsign

theorem ne_negative_zero (negative : Bool) (n : Nat) :
    signOf negative n ++ numeral n ≠ ['-', '0'] := by
  intro heq
  rcases signOf_cases negative n with ⟨-, hn, hsign⟩ | ⟨-, hsign⟩
  · -- the same numeral is read back as the same count
    rw [hsign] at heq
    have hnumeral : numeral n = numeral 0 := (List.cons.inj heq).2
    have hread := ofText?_numeral n
    rw [hnumeral, ofText?_numeral 0, Option.some.injEq, Nat.cast_zero, zero_div] at hread
    have hzero : (n : ℚ) = 0 := by linarith
    exact hn (Nat.cast_eq_zero.mp hzero)
  · obtain ⟨c, cs, hnumeral, hc⟩ := exists_head_numeral n
    rw [hsign, List.nil_append, hnumeral] at heq
    rw [(List.cons.inj heq).1] at hc
    cases hc

/-! ## Written numbers -/

variable {x : Binary64}

/-- A finite number is written as its rounded hundredths. -/
theorem toList_number (hx : x.isFinite = true) :
    (number x).toList = signOf x.isNegative (hundredths (roundHundredths x)) ++
      numeral (hundredths (roundHundredths x)) := by
  have hrounded := isRounded_roundHundredths hx
  simp only [number]
  split
  · rename_i hzero
    rw [hrounded.zero_iff.mp hzero]
    simp [signOf]
    rfl
  · rename_i hzero
    rw [hrounded.zero_iff] at hzero
    rw [if_neg (by simp [hrounded.finite]), String.toList_ofList, hrounded.sign]
    simp [signOf, hzero]

theorem signedValue_near (hx : x.isFinite = true) :
    |signedValue x.isNegative (hundredths (roundHundredths x)) - x.value| ≤
      1 / 200 + |x.value| / 2 ^ 49 := by
  obtain ⟨hlow, hhigh⟩ := abs_le.mp (isRounded_roundHundredths hx).near
  rw [Binary64.abs_value, abs_le, signedValue, Binary64.value]
  split
  · constructor
    · linarith
    · linarith
  · constructor
    · linarith
    · linarith

/-- The text of the number `x`, which is rounded to `n` hundredths. -/
structure IsTextOf (x : Binary64) (n : Nat) (text : String) : Prop where
  canonical : IsNumeral text.toList
  nonempty : text ≠ ""
  unsigned : text ≠ "-0"
  no_exponent : 'e' ∉ text.toList ∧ 'E' ∉ text.toList
  trimmed : text.toList = trimZeros (signOf x.isNegative n ++ twoPlaces n)
  /-- zeros before the point were not trimmed -/
  whole : signOf x.isNegative n ++ Nat.toDigits 10 (n / 100) <+: text.toList
  reads : spelled? text.toList = some (signedValue x.isNegative n)
  /-- half a hundredth, and the precision of binary64 numbers -/
  near : |signedValue x.isNegative n - x.value| ≤ 1 / 200 + |x.value| / 2 ^ 49

/-- **Numbers are canonical.** Every finite number is written as a canonical numeral, from which no zero
before the point was trimmed, and which is read back as the nearest number with two places. A length is
the numeral and its unit, without the unit for zero. -/
theorem number_isTextOf (hx : x.isFinite = true) :
    (∃ n, IsTextOf x n (number x)) ∧ (number x = "0" → pixels x = "0") ∧
      (number x ≠ "0" → pixels x = number x ++ "px") := by
  have htext := toList_number hx
  have hnear := signedValue_near hx
  generalize hundredths (roundHundredths x) = n at htext hnear
  have hcanonical : IsNumeral (number x).toList := htext ▸ isNumeral_numeral x.isNegative n
  refine ⟨⟨n, ?_⟩, fun hzero => ?_, fun hzero => ?_⟩
  · constructor
    case canonical => exact hcanonical
    case nonempty =>
      intro hempty
      exact hcanonical.ne_nil (by rw [hempty]; rfl)
    case unsigned =>
      intro hzero
      exact ne_negative_zero x.isNegative n (by rw [← htext, hzero]; rfl)
    case no_exponent =>
      exact ⟨fun he => absurd (hcanonical.chars _ he) (by decide),
        fun he => absurd (hcanonical.chars _ he) (by decide)⟩
    case trimmed => rw [trimZeros_twoPlaces, htext]
    case whole =>
      obtain ⟨fraction, -, hnumeral⟩ := exists_fraction n
      exact ⟨fraction, by rw [htext, hnumeral, List.append_assoc]⟩
    case reads => rw [htext, spelled?_numeral]
    case near => exact hnear
  · simp only [pixels, hzero, if_true]
  · simp only [pixels, hzero, if_false]

/-- Minus one hundred. -/
def minusHundred : Binary64 :=
  ⟨0xC059000000000000⟩

/-- All three digits of minus one hundred stay when `-100.00` is trimmed. -/
theorem minusHundred_isTextOf :
    minusHundred.isFinite = true ∧ (∃ n, IsTextOf minusHundred n "-100") ∧
      pixels minusHundred = "-100px" := by
  have hfinite : minusHundred.isFinite = true := by decide
  have hnumber : number minusHundred = "-100" := by decide +kernel
  obtain ⟨htext, -, hpixels⟩ := number_isTextOf hfinite
  rw [hnumber] at htext hpixels
  exact ⟨hfinite, htext, hpixels (by decide)⟩

/-- The number next to zero on the negative side has no hundredths and no sign. -/
example : number ⟨0x8000000000000001⟩ = "0" := by decide +kernel

end Stylesheet

end DesignCompiler
