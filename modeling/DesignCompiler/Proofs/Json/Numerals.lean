import DesignCompiler.Json.Source
import DesignCompiler.Proofs.Outcome
import DesignCompiler.Proofs.Text.Digits
import DesignCompiler.Proofs.Text.Spans

/-!
# DesignCompiler — numerals of JSON, read back

A numeral that is a whole text is taken as well where another token follows it. Integers that a word
holds are read back from their digits. Of the other numbers this is a property of each one.

* `EndsValue` — what may follow a value;
* `takeNumeral_append` — a numeral before another token;
* `Number.ReadsBack` — a number that is read from its own text;
* `FitsWord`, `readsBack_integer` — all integers in range are such numbers.
-/

namespace DesignCompiler.Json

/-- The text ends, or it goes on with a token that no value begins with. -/
def EndsValue (rest : List Char) : Prop :=
  ∀ c ∈ rest.head?, c = ',' ∨ c = ']' ∨ c = '\x7d'

theorem EndsValue.head {rest : List Char} (h : EndsValue rest) {p : Char → Bool}
    (hp : p ',' = false ∧ p ']' = false ∧ p '\x7d' = false) : ∀ c ∈ rest.head?, p c = false := by
  intro c hc
  rcases h c hc with rfl | rfl | rfl
  · exact hp.1
  · exact hp.2.1
  · exact hp.2.2

theorem endsValue_nil : EndsValue [] := by
  rintro c ⟨⟩

theorem endsValue_cons {c : Char} (h : c = ',' ∨ c = ']' ∨ c = '\x7d') (rest : List Char) :
    EndsValue (c :: rest) := by
  rintro _ ⟨⟩
  exact h

variable {cs rest tail : List Char} {negative : Bool}

/-! ## A numeral before another token -/

theorem takeDigits_eq_ok_iff {ds : List Char} :
    takeDigits cs = .ok (ds, tail) ↔
      ds = cs.takeWhile Char.isDigit ∧ tail = cs.dropWhile Char.isDigit ∧ ds ≠ [] := by
  unfold takeDigits
  split
  · simp_all
  · simp_all
  · rename_i hnone hne
    simp only [pure, Except.pure, Except.ok.injEq, Prod.mk.injEq]
    constructor
    · rintro ⟨rfl, rfl⟩
      exact ⟨rfl, rfl, hnone⟩
    · rintro ⟨rfl, rfl, -⟩
      exact ⟨rfl, rfl⟩

theorem takeDigits_append {ds : List Char} (hrest : EndsValue rest)
    (h : takeDigits cs = .ok (ds, tail)) : takeDigits (cs ++ rest) = .ok (ds, tail ++ rest) := by
  obtain ⟨rfl, rfl, hne⟩ := takeDigits_eq_ok_iff.mp h
  have hstop := hrest.head (p := Char.isDigit) (by decide)
  rw [takeDigits_eq_ok_iff, takeWhile_append_of_head hstop, dropWhile_append_of_head hstop]
  exact ⟨rfl, rfl, hne⟩

theorem takeFraction_of_head (h : cs.head? ≠ some '.') : takeFraction cs = .ok (none, cs) := by
  cases cs with
  | nil => rfl
  | cons c cs =>
    have hc : c ≠ '.' := fun heq => h (congrArg some heq)
    rw [takeFraction]
    · rfl
    · rintro _ ⟨⟩
      exact hc rfl

theorem takeFraction_append {ds : Option (List Char)} (hrest : EndsValue rest)
    (h : takeFraction cs = .ok (ds, tail)) : takeFraction (cs ++ rest) = .ok (ds, tail ++ rest) := by
  by_cases hpoint : cs.head? = some '.'
  · obtain ⟨cs, rfl⟩ := List.head?_eq_some_iff.mp hpoint
    obtain ⟨⟨digits, more⟩, hdigits, h⟩ := map_eq_ok_iff.mp h
    obtain ⟨rfl, rfl⟩ := Prod.mk.inj h
    exact map_eq_ok_iff.mpr ⟨_, takeDigits_append hrest hdigits, rfl⟩
  · rw [takeFraction_of_head hpoint] at h
    obtain ⟨rfl, rfl⟩ := Prod.mk.inj (Except.ok.inj h)
    refine takeFraction_of_head fun hhead => ?_
    cases cs with
    | nil =>
      rcases hrest _ hhead with hc | hc | hc <;> exact absurd hc (by decide)
    | cons c cs => exact hpoint hhead

/-- The sign of an exponent, and what follows it. -/
def afterSign : List Char → Bool × List Char
  | '-' :: cs => (true, cs)
  | '+' :: cs => (false, cs)
  | cs => (false, cs)

theorem afterSign_append (hne : cs ≠ []) :
    afterSign (cs ++ rest) = ((afterSign cs).1, (afterSign cs).2 ++ rest) := by
  obtain ⟨c, cs, rfl⟩ := List.exists_cons_of_ne_nil hne
  rw [List.cons_append]
  unfold afterSign
  split <;> split <;> simp_all

theorem takeExponent_cons (c : Char) (cs : List Char) :
    takeExponent (c :: cs) =
      if c = 'e' || c = 'E' then
        (takeDigits (afterSign cs).2).map fun r => (some ((afterSign cs).1, r.1), r.2)
      else .ok (none, c :: cs) := by
  -- without a sign the digits begin at once
  have hplain : ∀ cs : List Char, cs.head? ≠ some '-' → cs.head? ≠ some '+' →
      afterSign cs = (false, cs) := by
    intro cs hminus hplus
    unfold afterSign
    split <;> simp_all
  by_cases hminus : cs.head? = some '-'
  · obtain ⟨cs, rfl⟩ := List.head?_eq_some_iff.mp hminus
    rfl
  by_cases hplus : cs.head? = some '+'
  · obtain ⟨cs, rfl⟩ := List.head?_eq_some_iff.mp hplus
    rfl
  rw [takeExponent, hplain cs hminus hplus]
  · rfl
  · rintro cs rfl
    exact hminus rfl
  · rintro cs rfl
    exact hplus rfl

theorem takeExponent_append {e : Option (Bool × List Char)} (hrest : EndsValue rest)
    (h : takeExponent cs = .ok (e, tail)) : takeExponent (cs ++ rest) = .ok (e, tail ++ rest) := by
  cases cs with
  | nil =>
    obtain ⟨rfl, rfl⟩ := Prod.mk.inj (Except.ok.inj h)
    cases rest with
    | nil => rfl
    | cons c rest =>
      have hstop := hrest.head (p := fun c => c = 'e' || c = 'E') (by decide)
      have hc : (c = 'e' || c = 'E') = false := hstop c rfl
      rw [List.nil_append, takeExponent_cons, hc]
      rfl
  | cons c cs =>
    rw [List.cons_append, takeExponent_cons]
    rw [takeExponent_cons] at h
    by_cases hc : (c = 'e' || c = 'E') = true
    · rw [if_pos hc] at h ⊢
      obtain ⟨⟨digits, more⟩, hdigits, h⟩ := map_eq_ok_iff.mp h
      obtain ⟨rfl, rfl⟩ := Prod.mk.inj h
      -- there are digits behind the letter, so the sign is read from these
      have hne : cs ≠ [] := by
        rintro rfl
        cases hdigits
      rw [afterSign_append hne]
      exact map_eq_ok_iff.mpr ⟨_, takeDigits_append hrest hdigits, rfl⟩
    · rw [if_neg hc] at h ⊢
      obtain ⟨rfl, rfl⟩ := Prod.mk.inj (Except.ok.inj h)
      rfl

theorem takeNumeral_eq_ok_iff {n : Numeral} :
    takeNumeral negative cs = .ok (n, tail) ↔ ∃ whole cs₁ fraction cs₂ exponent,
      takeDigits cs = .ok (whole, cs₁) ∧ ¬(whole.head? = some '0' ∧ whole.length ≠ 1) ∧
        takeFraction cs₁ = .ok (fraction, cs₂) ∧ takeExponent cs₂ = .ok (exponent, tail) ∧
          n = { negative, whole, fraction, exponent } := by
  have hzero : ∀ whole : List Char,
      (decide (whole.head? = some '0') && decide (whole.length ≠ 1)) = true ↔
        whole.head? = some '0' ∧ whole.length ≠ 1 := by
    intro whole
    rw [Bool.and_eq_true, decide_eq_true_eq, decide_eq_true_eq]
  unfold takeNumeral
  simp only [bind_eq_ok_iff, Prod.exists]
  -- digits without a zero in front of others, then a fraction and an exponent, each of which may be
  -- missing
  constructor
  · rintro ⟨whole, cs₁, hwhole, h⟩
    split at h
    · cases h
    · rename_i hno
      obtain ⟨⟨fraction, cs₂⟩, hfraction, h⟩ := bind_eq_ok_iff.mp h
      obtain ⟨⟨exponent, cs₃⟩, hexponent, h⟩ := bind_eq_ok_iff.mp h
      obtain ⟨rfl, rfl⟩ := Prod.mk.inj (Except.ok.inj h)
      exact ⟨whole, cs₁, fraction, cs₂, exponent, hwhole, mt (hzero whole).mpr hno, hfraction,
        hexponent, rfl⟩
  · rintro ⟨whole, cs₁, fraction, cs₂, exponent, hwhole, hno, hfraction, hexponent, rfl⟩
    refine ⟨whole, cs₁, hwhole, ?_⟩
    rw [if_neg (mt (hzero whole).mp hno)]
    exact bind_eq_ok_iff.mpr ⟨_, hfraction, bind_eq_ok_iff.mpr ⟨_, hexponent, rfl⟩⟩

/-- A numeral is taken as far as before, whatever token follows it. -/
theorem takeNumeral_append {n : Numeral} (hrest : EndsValue rest)
    (h : takeNumeral negative cs = .ok (n, tail)) :
    takeNumeral negative (cs ++ rest) = .ok (n, tail ++ rest) := by
  obtain ⟨whole, cs₁, fraction, cs₂, exponent, hwhole, hzero, hfraction, hexponent, rfl⟩ :=
    takeNumeral_eq_ok_iff.mp h
  exact takeNumeral_eq_ok_iff.mpr ⟨whole, _, fraction, _, exponent, takeDigits_append hrest hwhole,
    hzero, takeFraction_append hrest hfraction, takeExponent_append hrest hexponent, rfl⟩

/-! ## Numbers that are read back -/

/-- The sign in front of a numeral, and the numeral. -/
def splitSign : List Char → Bool × List Char
  | '-' :: cs => (true, cs)
  | cs => (false, cs)

/-- The number that a text spells from its first to its last character. -/
def Number.spelled? (cs : List Char) : Option Number :=
  match takeNumeral (splitSign cs).1 (splitSign cs).2 with
  | .ok (n, []) => n.value?
  | _ => none

/-- A number that its own text spells. -/
def Number.ReadsBack (n : Number) : Prop :=
  Number.spelled? n.render.toList = some n

instance (n : Number) : Decidable n.ReadsBack :=
  inferInstanceAs (Decidable (_ = _))

theorem Number.spelled?_eq_some_iff {n : Number} :
    Number.spelled? cs = some n ↔ ∃ m, takeNumeral (splitSign cs).1 (splitSign cs).2 = .ok (m, []) ∧
      m.value? = some n := by
  unfold Number.spelled?
  split
  · rename_i m hm
    simp [hm]
  · rename_i hno
    refine ⟨nofun, ?_⟩
    rintro ⟨m, hm, -⟩
    exact absurd hm (hno m)

/-- A number that is not finite is written `null`, which is no number. -/
theorem Number.ReadsBack.isFinite {x : Binary64} (h : (Number.binary x).ReadsBack) :
    x.isFinite = true := by
  cases hx : x.isFinite with
  | true => rfl
  | false =>
    have htext : (Number.binary x).render = "null" := by
      rw [Number.render, Binary64.json, hx]
      rfl
    rw [ReadsBack, htext] at h
    cases h

/-- A numeral begins with a digit. -/
theorem exists_digit_of_takeNumeral {n : Numeral} (h : takeNumeral negative cs = .ok (n, tail)) :
    ∃ c ds, cs = c :: ds ∧ c.isDigit = true := by
  obtain ⟨whole, cs₁, -, -, -, hwhole, -⟩ := takeNumeral_eq_ok_iff.mp h
  obtain ⟨rfl, -, hne⟩ := takeDigits_eq_ok_iff.mp hwhole
  cases cs with
  | nil => exact absurd rfl hne
  | cons c ds =>
    by_cases hc : c.isDigit = true
    · exact ⟨c, ds, rfl, hc⟩
    · rw [List.takeWhile_cons_of_neg hc] at hne
      exact absurd rfl hne

/-! ## Integers -/

/-- The digits of a natural number are a numeral. -/
theorem takeNumeral_toDigits (negative : Bool) (k : Nat) :
    takeNumeral negative (Nat.toDigits 10 k) =
      .ok ({ negative, whole := Nat.toDigits 10 k, fraction := none, exponent := none }, []) := by
  have htake : (Nat.toDigits 10 k).takeWhile Char.isDigit = Nat.toDigits 10 k :=
    List.takeWhile_eq_self_iff.mpr fun _ => isDigit_of_mem_toDigits
  have hdrop : (Nat.toDigits 10 k).dropWhile Char.isDigit = [] :=
    List.dropWhile_eq_nil_iff.mpr fun _ => isDigit_of_mem_toDigits
  refine takeNumeral_eq_ok_iff.mpr ⟨Nat.toDigits 10 k, [], none, [], none, ?_, ?_, rfl, rfl, rfl⟩
  · exact takeDigits_eq_ok_iff.mpr ⟨htake.symm, hdrop.symm, Nat.toDigits_ne_nil⟩
  · rintro ⟨hhead, hlength⟩
    rcases Nat.eq_zero_or_pos k with rfl | hk
    · exact hlength rfl
    · exact head?_toDigits hk hhead

theorem splitSign_toDigits (k : Nat) :
    splitSign (Nat.toDigits 10 k) = (false, Nat.toDigits 10 k) := by
  rw [splitSign]
  intro cs heq
  have hminus : '-' ∈ Nat.toDigits 10 k := heq ▸ List.mem_cons_self ..
  exact absurd (isDigit_of_mem_toDigits hminus) (by decide)

theorem integer?_toDigits (k : Nat) (negative : Bool) :
    ({ negative, whole := Nat.toDigits 10 k, fraction := none, exponent := none } :
        Numeral).integer? =
      if negative then if 0 < k && k ≤ Nat.pow 2 63 then some (-(k : Int)) else none
      else if k < Numeral.wordLimit then some (k : Int) else none := by
  have hk : Decimal.ofDigits (Nat.toDigits 10 k) = k :=
    Nat.ofDigitChars_ten_toDigits
  simp only [Numeral.integer?, hk, Option.isSome_none, Bool.or_self, Bool.false_eq_true, if_false]

/-- An integer fits into a word of 64 bits, signed or unsigned. -/
def FitsWord (n : Int) : Prop :=
  -(Nat.pow 2 63 : Nat) ≤ n ∧ n < Numeral.wordLimit

/-- Integers that fit into a word are read back. -/
theorem readsBack_integer {n : Int} (h : FitsWord n) : (Number.integer n).ReadsBack := by
  obtain ⟨hlow, hhigh⟩ := h
  cases n with
  | ofNat k =>
    have htext : (Number.integer (Int.ofNat k)).render.toList = Nat.toDigits 10 k := Nat.toList_repr
    have hk : k < Numeral.wordLimit := Int.ofNat_lt.mp hhigh
    have hvalue := integer?_toDigits k false
    rw [if_neg (by decide), if_pos hk] at hvalue
    rw [Number.ReadsBack, htext, Number.spelled?_eq_some_iff, splitSign_toDigits]
    exact ⟨_, takeNumeral_toDigits false k, by rw [Numeral.value?, hvalue]; rfl⟩
  | negSucc k =>
    have htext : (Number.integer (Int.negSucc k)).render.toList =
        '-' :: Nat.toDigits 10 (k + 1) := by
      have hrender : (Number.integer (Int.negSucc k)).render = "-" ++ Nat.repr (k + 1) := rfl
      rw [hrender, String.toList_append, Nat.toList_repr]
      rfl
    -- the magnitude of a negative number may be one larger
    have hk : (0 < k + 1 && k + 1 ≤ Nat.pow 2 63) = true := by
      have hle : k + 1 ≤ Nat.pow 2 63 := by
        rw [Int.negSucc_eq] at hlow
        omega
      simp only [Nat.succ_pos, hle, decide_true, Bool.and_self]
    have hvalue := integer?_toDigits (k + 1) true
    rw [if_pos rfl, if_pos hk] at hvalue
    rw [Number.ReadsBack, htext, Number.spelled?_eq_some_iff, splitSign]
    exact ⟨_, takeNumeral_toDigits true (k + 1), by rw [Numeral.value?, hvalue]; rfl⟩

/-! ## A number as a value -/

theorem skipSpace_cons {c : Char} (h : isSpace c = false) (cs : List Char) :
    skipSpace (c :: cs) = c :: cs := by
  rw [skipSpace, List.dropWhile_cons_of_neg (by simp [h])]

theorem splitSign_cases (cs : List Char) :
    (∃ ds, cs = '-' :: ds ∧ splitSign cs = (true, ds)) ∨
      cs.head? ≠ some '-' ∧ splitSign cs = (false, cs) := by
  unfold splitSign
  split
  · exact Or.inl ⟨_, rfl, rfl⟩
  · rename_i hno
    refine Or.inr ⟨fun hhead => ?_, rfl⟩
    obtain ⟨ds, rfl⟩ := List.head?_eq_some_iff.mp hhead
    exact hno ds rfl

theorem isSpace_of_isDigit {c : Char} (hc : c.isDigit = true) : isSpace c = false := by
  have hother : ∀ x : Char, x.isDigit = false → c ≠ x := by
    rintro x hx rfl
    exact absurd hc (by simp [hx])
  simp [isSpace, hother ' ' rfl, hother '\n' rfl, hother '\t' rfl, hother '\r' rfl]

theorem takeValue_digit {c : Char} (hc : c.isDigit = true) {ds : List Char} (levels limit : Nat) :
    takeValue levels (limit + 1) (c :: ds) =
      leaf (fun n => .number n.value?) (takeNumeral false (c :: ds)) := by
  have hother : ∀ x : Char, x.isDigit = false → c ≠ x := by
    rintro x hx rfl
    exact absurd hc (by simp [hx])
  rw [takeValue, skipSpace_cons (isSpace_of_isDigit hc)]
  split
  case h_9 x cs heq =>
    obtain ⟨rfl, rfl⟩ := List.cons.inj heq
    rw [if_pos hc]
  case h_1 heq => cases heq
  -- the other values do not begin with digits
  all_goals
    rename_i heq
    exact absurd (List.cons.inj heq).1 (hother _ rfl)

/-- A number that is read back is the value at the beginning of a text that goes on with a token. -/
theorem takeValue_number {n : Number} (h : n.ReadsBack) (hrest : EndsValue rest)
    (levels limit : Nat) :
    takeValue levels (limit + 1) (n.render.toList ++ rest) = (.number (some n), some rest) := by
  obtain ⟨m, hm, hvalue⟩ := Number.spelled?_eq_some_iff.mp h
  have htake := takeNumeral_append hrest hm
  rw [List.nil_append] at htake
  rcases splitSign_cases n.render.toList with ⟨ds, htext, hsplit⟩ | ⟨-, hsplit⟩
  · rw [hsplit] at htake
    rw [htext, List.cons_append, takeValue, skipSpace_cons (by decide)]
    simp only [htake, leaf, hvalue]
  · rw [hsplit] at hm htake
    obtain ⟨c, ds, hds, hdigit⟩ := exists_digit_of_takeNumeral hm
    simp only at hds htake
    rw [hds, List.cons_append] at htake ⊢
    rw [takeValue_digit hdigit, htake, leaf, hvalue]

/-- The text of a number that is read back begins with a minus sign or with a digit. -/
theorem head_of_readsBack {n : Number} (h : n.ReadsBack) :
    ∃ c ds, n.render.toList = c :: ds ∧ (c = '-' ∨ c.isDigit = true) := by
  obtain ⟨m, hm, -⟩ := Number.spelled?_eq_some_iff.mp h
  rcases splitSign_cases n.render.toList with ⟨ds, htext, -⟩ | ⟨-, hsplit⟩
  · exact ⟨'-', ds, htext, Or.inl rfl⟩
  · rw [hsplit] at hm
    obtain ⟨c, ds, hds, hdigit⟩ := exists_digit_of_takeNumeral hm
    exact ⟨c, ds, hds, Or.inr hdigit⟩

end DesignCompiler.Json
