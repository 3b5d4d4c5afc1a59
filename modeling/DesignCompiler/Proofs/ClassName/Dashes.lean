import Mathlib
import DesignCompiler.Proofs.ClassName.Slugs

/-!
# DesignCompiler — the dashes of a slug

A slug has the letters and digits of the name in lower case, in order, and a dash wherever something
else stands between two of them or a capital letter of the name begins a word.

* `IsDashed` — words with one dash between two of them;
* `IsHump` — the places in a name where a capital follows a small letter or a digit;
* `IsCut`, `exists_cut` — a cut of the name in lower case is a cut of the text that the words are
  taken from;
* `exists_consecutive`, `exists_dash` — what stands between two letters that follow each other, in
  this text and in the slug;
* `slug_slug` — the slug of a slug;
* `slug_isSpelling` — the form of a slug, its letters and its dashes.
-/

namespace DesignCompiler.ClassName

/-- One or more words of small letters and digits, with one dash between two of them. -/
inductive IsDashed : List Char → Prop where
  | word {w : List Char} (hne : w ≠ []) (hw : ∀ c ∈ w, isSlugChar c = true) : IsDashed w
  | dash {w rest : List Char} (hne : w ≠ []) (hw : ∀ c ∈ w, isSlugChar c = true)
      (hrest : IsDashed rest) : IsDashed (w ++ '-' :: rest)

/-- A capital letter of the name directly follows a small letter or a digit, and `front` is the name
up to this capital in lower case. -/
def IsHump (name front : List Char) : Prop :=
  ∃ before c d after, name = before ++ c :: d :: after ∧ isSlugChar c = true ∧
    d.isUpper = true ∧ Text.lowercase (before ++ [c]) = front

/-- How the slug `s` of a name is written. -/
structure IsSpelling (name s : String) : Prop where
  form : s.toList = [] ∨ IsDashed s.toList
  stable : slug s = s
  /-- Without its dashes it is what the name in lower case has of small letters and digits. -/
  letters : s.toList.filter (· ≠ '-') = (Text.lowercase name.toList).filter isSlugChar
  /-- Where `x` and `y` follow each other among these, with `gap` between them, they follow each
  other in the slug, after as many letters. -/
  dashes : ∀ a x gap y b, Text.lowercase name.toList = a ++ x :: (gap ++ y :: b) →
    isSlugChar x = true → isSlugChar y = true → (∀ c ∈ gap, isSlugChar c = false) →
    ∃ u mid v, s.toList = u ++ x :: (mid ++ y :: v) ∧
      u.filter (· ≠ '-') = a.filter isSlugChar ∧ v.filter (· ≠ '-') = b.filter isSlugChar ∧
      (mid = ['-'] ∨ mid = []) ∧ (mid = ['-'] ↔ gap ≠ [] ∨ IsHump name.toList (a ++ [x]))

/-! ## Lower case -/

theorem lowerChar_ne_nil (c : Char) : Text.lowerChar c ≠ [] := by
  unfold Text.lowerChar
  split
  · exact List.cons_ne_nil _ _
  · split
    · exact List.cons_ne_nil _ _
    · split
      · exact List.cons_ne_nil _ _
      · exact List.cons_ne_nil _ _

theorem lowercase_eq_nil {cs : List Char} (h : Text.lowercase cs = []) : cs = [] := by
  cases cs with
  | nil => rfl
  | cons c cs => exact absurd (List.append_eq_nil_iff.mp h).1 (lowerChar_ne_nil c)

theorem isSlugChar_iff {c : Char} : isSlugChar c = true ↔
    97 ≤ c.toNat ∧ c.toNat ≤ 122 ∨ 48 ≤ c.toNat ∧ c.toNat ≤ 57 := by
  simp [isSlugChar, Char.isLower, Char.isDigit, UInt32.le_iff_toNat_le, ← Char.toNat_val]

theorem not_isUpper_of_slugChar {c : Char} (h : isSlugChar c = true) : c.isUpper = false := by
  rw [isSlugChar_iff] at h
  simp only [Char.isUpper, decide_eq_false_iff_not, UInt32.le_iff_toNat_le,
    ge_iff_le, Char.toNat_val, Char.reduceVal, UInt32.reduceToNat]
  omega

theorem toLower_of_slugChar {c : Char} (h : isSlugChar c = true) : c.toLower = c := by
  refine Char.toLower_eq_of_not_isUpper ?_
  rw [not_isUpper_of_slugChar h]
  exact Bool.false_ne_true

/-- The characters of a slug are their own lower-case form. -/
theorem lowercase_of_slug {cs : List Char} (h : ∀ c ∈ cs, isSlugChar c = true ∨ c = '-') :
    Text.lowercase cs = cs := by
  induction cs with
  | nil => rfl
  | cons c cs ih =>
    have hc : Text.lowerChar c = [c] := by
      rcases h c (by simp) with hc | rfl
      · have hlt : c.toNat < 128 := by
          rw [isSlugChar_iff] at hc
          omega
        rw [Text.lowerChar_of_lt hlt, toLower_of_slugChar hc]
      · decide
    rw [Text.lowercase_cons, hc, ih fun d hd => h d (List.mem_cons_of_mem _ hd)]
    rfl

/-! ## Humps -/

/-- What stands before the rest of the name, behind `c`. -/
def humpDash (c : Char) (rest : List Char) : List Char :=
  if isSlugChar c && rest.head?.any Char.isUpper then ['-'] else []

theorem splitHumps_cons (c : Char) (cs : List Char) :
    splitHumps (c :: cs) = c :: (humpDash c cs ++ splitHumps cs) := by
  cases cs with
  | nil => simp [splitHumps, humpDash]
  | cons d ds =>
    rw [splitHumps, humpDash]
    by_cases hump : (isSlugChar c && d.isUpper) = true
    · simp [hump]
    · simp [hump]

theorem lowercase_splitHumps_cons (c : Char) (cs : List Char) :
    Text.lowercase (splitHumps (c :: cs)) =
      Text.lowerChar c ++ (humpDash c cs ++ Text.lowercase (splitHumps cs)) := by
  rw [splitHumps_cons, Text.lowercase_cons, Text.lowercase_append]
  congr 2
  rw [humpDash]
  split
  · decide
  · rfl

theorem filter_humpDash (c : Char) (cs : List Char) : (humpDash c cs).filter isSlugChar = [] := by
  rw [humpDash]
  split
  · decide
  · rfl

/-- The dashes at the humps are all that is new. -/
theorem filter_splitHumps (cs : List Char) :
    (Text.lowercase (splitHumps cs)).filter isSlugChar =
      (Text.lowercase cs).filter isSlugChar := by
  induction cs with
  | nil => rfl
  | cons c cs ih =>
    rw [lowercase_splitHumps_cons, Text.lowercase_cons]
    simp only [List.filter_append, filter_humpDash, ih, List.nil_append]

theorem splitHumps_of_slug {cs : List Char} (h : ∀ c ∈ cs, isSlugChar c = true ∨ c = '-') :
    splitHumps cs = cs := by
  induction cs with
  | nil => rfl
  | cons c cs ih =>
    have hnone : humpDash c cs = [] := by
      rw [humpDash, if_neg]
      cases cs with
      | nil => simp
      | cons d ds =>
        rcases h d (by simp) with hd | rfl
        · simp [not_isUpper_of_slugChar hd]
        · simp
    rw [splitHumps_cons, hnone, ih fun d hd => h d (List.mem_cons_of_mem _ hd), List.nil_append]

/-- A hump behind more than the first character of a name. -/
theorem isHump_cons_iff {c : Char} {cs front : List Char} (hne : front ≠ []) :
    IsHump (c :: cs) (Text.lowerChar c ++ front) ↔ IsHump cs front := by
  constructor
  · -- the letter in front of the capital is not `c` itself, for the front goes on behind `c`
    rintro ⟨before, d, e, after, heq, hd, he, hfront⟩
    cases before with
    | nil =>
      rw [List.nil_append, List.cons.injEq] at heq
      obtain ⟨rfl, rfl⟩ := heq
      have hnil : Text.lowerChar c ++ [] = Text.lowerChar c ++ front := hfront
      exact absurd (List.append_cancel_left hnil).symm hne
    | cons f before =>
      rw [List.cons_append, List.cons.injEq] at heq
      obtain ⟨rfl, rfl⟩ := heq
      exact ⟨before, d, e, after, rfl, hd, he, List.append_cancel_left hfront⟩
  · rintro ⟨before, d, e, after, rfl, hd, he, rfl⟩
    exact ⟨c :: before, d, e, after, rfl, hd, he, rfl⟩

/-- A hump directly behind the first character of a name. -/
theorem isHump_first_iff {c : Char} {cs : List Char} :
    IsHump (c :: cs) (Text.lowerChar c) ↔ humpDash c cs ≠ [] := by
  constructor
  · rintro ⟨before, d, e, after, heq, hd, he, hfront⟩
    cases before with
    | nil =>
      rw [List.nil_append, List.cons.injEq] at heq
      obtain ⟨rfl, rfl⟩ := heq
      simp [humpDash, hd, he]
    | cons f before =>
      rw [List.cons_append, List.cons.injEq] at heq
      obtain ⟨rfl, -⟩ := heq
      have hnil : Text.lowerChar c ++ Text.lowercase (before ++ [d]) = Text.lowerChar c ++ [] := by
        rw [List.append_nil]
        exact hfront
      -- nothing is left behind `c`, but a letter would have to be
      exact absurd (lowercase_eq_nil (List.append_cancel_left hnil)) (by simp)
  · intro h
    cases cs with
    | nil => simp [humpDash] at h
    | cons d ds =>
      have hboth : isSlugChar c = true ∧ d.isUpper = true := by simpa [humpDash] using h
      exact ⟨[], c, d, ds, rfl, hboth.1, hboth.2, by simp⟩

/-- No hump is inside the form of one character. -/
theorem not_isHump_of_lt {c : Char} {cs front : List Char}
    (h : front.length < (Text.lowerChar c).length) : ¬ IsHump (c :: cs) front := by
  rintro ⟨before, d, e, after, heq, -, -, rfl⟩
  have hhead : ∃ rest, before ++ [d] = c :: rest := by
    cases before with
    | nil =>
      rw [List.nil_append, List.cons.injEq] at heq
      exact ⟨[], by rw [heq.1]; rfl⟩
    | cons f before =>
      rw [List.cons_append, List.cons.injEq] at heq
      exact ⟨before ++ [d], by rw [heq.1]; rfl⟩
  obtain ⟨rest, hrest⟩ := hhead
  rw [hrest, Text.lowercase_cons, List.length_append] at h
  omega

/-! ## Cuts -/

/-- The name in lower case is cut into `a` and `r`, and the text that the words are taken from into
`front` and `back` with `dash` between them. The parts have the same letters and meet in the same
characters. -/
structure IsCut (cs a r front dash back : List Char) : Prop where
  text : Text.lowercase (splitHumps cs) = front ++ (dash ++ back)
  before : front.filter isSlugChar = a.filter isSlugChar
  behind : back.filter isSlugChar = r.filter isSlugChar
  last : front.getLast? = a.getLast?
  head : back.head? = r.head?
  between : dash.filter isSlugChar = []
  hump : dash ≠ [] ↔ IsHump cs a

section Cuts

variable {cs a r front dash back : List Char} {c : Char}

theorem not_isHump_nil : ¬ IsHump cs [] := by
  rintro ⟨before, d, e, after, -, -, -, hfront⟩
  exact absurd (lowercase_eq_nil hfront) (by simp)

theorem isCut_nil : IsCut [] [] [] [] [] [] where
  text := rfl
  before := rfl
  behind := rfl
  last := rfl
  head := rfl
  between := rfl
  hump := iff_of_false (fun hne => hne rfl) not_isHump_nil

/-- A cut directly behind the first character. -/
theorem IsCut.first (h : IsCut cs [] r front dash back) :
    IsCut (c :: cs) (Text.lowerChar c) r (Text.lowerChar c) (humpDash c cs) back := by
  have hfront : front = [] := List.getLast?_eq_none_iff.mp h.last
  have hdash : dash = [] := by
    by_contra hne
    exact not_isHump_nil (h.hump.mp hne)
  refine ⟨?_, rfl, h.behind, rfl, h.head, filter_humpDash c cs, isHump_first_iff.symm⟩
  rw [lowercase_splitHumps_cons, h.text, hfront, hdash, List.nil_append, List.nil_append]

/-- A cut further behind: the dash behind the first character belongs to the first part. -/
theorem IsCut.cons (h : IsCut cs a r front dash back) (hne : a ≠ []) :
    IsCut (c :: cs) (Text.lowerChar c ++ a) r (Text.lowerChar c ++ (humpDash c cs ++ front)) dash
      back := by
  have hfront : front ≠ [] := by
    rintro rfl
    exact hne (List.getLast?_eq_none_iff.mp h.last.symm)
  refine ⟨?_, ?_, h.behind, ?_, h.head, h.between, ?_⟩
  · simp only [lowercase_splitHumps_cons, h.text, List.append_assoc]
  · simp only [List.filter_append, filter_humpDash, h.before, List.nil_append]
  · rw [List.getLast?_append_of_ne_nil _ (List.append_ne_nil_of_right_ne_nil _ hfront),
      List.getLast?_append_of_ne_nil _ hfront, List.getLast?_append_of_ne_nil _ hne, h.last]
  · rw [h.hump, isHump_cons_iff hne]

/-- A cut inside the form of the first character. -/
theorem isCut_inside {e : List Char} (hc : Text.lowerChar c = a ++ e) (hne : e ≠ []) :
    IsCut (c :: cs) a (e ++ Text.lowercase cs) a []
      (e ++ (humpDash c cs ++ Text.lowercase (splitHumps cs))) := by
  have hlt : a.length < (Text.lowerChar c).length := by
    rw [hc, List.length_append]
    exact Nat.lt_add_of_pos_right (List.length_pos_iff.mpr hne)
  refine ⟨?_, rfl, ?_, rfl, ?_, rfl, iff_of_false (fun hnil => hnil rfl) (not_isHump_of_lt hlt)⟩
  · rw [lowercase_splitHumps_cons, hc, List.append_assoc, List.nil_append]
  · simp only [List.filter_append, filter_humpDash, filter_splitHumps, List.nil_append]
  · rw [List.head?_append_of_ne_nil _ hne, List.head?_append_of_ne_nil _ hne]

/-- A cut is behind the form of the first character, or inside it. -/
theorem lowercase_cons_cut (h : Text.lowercase (c :: cs) = a ++ r) :
    (∃ b, a = Text.lowerChar c ++ b ∧ Text.lowercase cs = b ++ r) ∨
      ∃ e, e ≠ [] ∧ Text.lowerChar c = a ++ e ∧ r = e ++ Text.lowercase cs := by
  rw [Text.lowercase_cons] at h
  rcases List.append_eq_append_iff.mp h with hbehind | ⟨e, hc, hr⟩
  · exact Or.inl hbehind
  · by_cases hne : e = []
    · subst hne
      exact Or.inl ⟨[], by rw [hc, List.append_nil, List.append_nil], hr.symm⟩
    · exact Or.inr ⟨e, hne, hc, hr⟩

/-- Where the name in lower case is cut in two, the text that the words are taken from can be cut as
well. -/
theorem exists_cut (h : Text.lowercase cs = a ++ r) :
    ∃ front dash back, IsCut cs a r front dash back := by
  induction cs generalizing a r with
  | nil =>
    obtain ⟨rfl, rfl⟩ := List.append_eq_nil_iff.mp h.symm
    exact ⟨[], [], [], isCut_nil⟩
  | cons c cs ih =>
    rcases lowercase_cons_cut h with ⟨b, rfl, hcs⟩ | ⟨e, hne, hc, rfl⟩
    · obtain ⟨front, dash, back, hcut⟩ := ih hcs
      by_cases hnil : b = []
      · subst hnil
        rw [List.append_nil]
        exact ⟨_, _, _, hcut.first⟩
      · exact ⟨_, _, _, hcut.cons hnil⟩
    · exact ⟨_, _, _, isCut_inside hc hne⟩

end Cuts

/-! ## Letters that follow each other -/

theorem not_isSlugChar_of_mem_dash {c : Char} (h : c ∈ ['-']) : isSlugChar c = false := by
  rw [List.mem_singleton.mp h]
  decide

/-- A text cut before its first letter. -/
theorem exists_first_letter {cs b : List Char} {y : Char}
    (h : cs.filter isSlugChar = y :: b.filter isSlugChar) :
    ∃ gap b', cs = gap ++ y :: b' ∧ (∀ c ∈ gap, isSlugChar c = false) ∧
      b'.filter isSlugChar = b.filter isSlugChar := by
  obtain ⟨gap, b', rfl, hgap, -, hb⟩ := List.filter_eq_cons_iff.mp h
  refine ⟨gap, b', rfl, fun c hc => ?_, hb⟩
  exact Bool.not_eq_true _ ▸ hgap c hc

/-- A text begins with its first letter exactly if nothing stands before it. -/
theorem head?_gap_iff {gap b : List Char} {y : Char} (hy : isSlugChar y = true)
    (hgap : ∀ c ∈ gap, isSlugChar c = false) : (gap ++ y :: b).head? = some y ↔ gap = [] := by
  cases gap with
  | nil => simp
  | cons c gap =>
    simp only [List.cons_append, List.head?_cons, Option.some.injEq, reduceCtorEq, iff_false]
    rintro rfl
    exact absurd ((hgap c (by simp)).symm.trans hy) (by decide)

/-- Letters that follow each other in the name in lower case do so in the text that the words are
taken from. Nothing is between them there only if there is nothing and no hump in the name. -/
theorem exists_consecutive {cs a gap b : List Char} {x y : Char}
    (h : Text.lowercase cs = a ++ x :: (gap ++ y :: b)) (hy : isSlugChar y = true)
    (hgap : ∀ c ∈ gap, isSlugChar c = false) :
    ∃ a' gap' b', Text.lowercase (splitHumps cs) = a' ++ x :: (gap' ++ y :: b') ∧
      a'.filter isSlugChar = a.filter isSlugChar ∧ b'.filter isSlugChar = b.filter isSlugChar ∧
      (∀ c ∈ gap', isSlugChar c = false) ∧ (gap' = [] ↔ gap = [] ∧ ¬ IsHump cs (a ++ [x])) := by
  rw [List.append_cons] at h
  -- the cut is between the two letters, right behind the first one
  obtain ⟨a', dash, r', htext, ha, hr, hlast, hhead, hdash, hhump⟩ := exists_cut h
  rw [List.getLast?_concat] at hlast
  obtain ⟨a', rfl⟩ := List.getLast?_eq_some_iff.mp hlast
  rw [List.filter_append, List.filter_append] at ha
  -- so the second one is the first letter behind it
  have hfirst : r'.filter isSlugChar = y :: b.filter isSlugChar := by
    rw [hr, List.filter_append, List.filter_cons_of_pos hy,
      List.filter_eq_nil_iff.mpr fun c hc => by simp [hgap c hc], List.nil_append]
  obtain ⟨gap', b', rfl, hgap', hb⟩ := exists_first_letter hfirst
  have hsame : gap' = [] ↔ gap = [] := by
    rw [← head?_gap_iff hy hgap', hhead, head?_gap_iff hy hgap]
  have hnone : ∀ c ∈ dash ++ gap', isSlugChar c = false := by
    intro c hc
    rcases List.mem_append.mp hc with hc | hc
    · exact Bool.not_eq_true _ ▸ List.filter_eq_nil_iff.mp hdash c hc
    · exact hgap' c hc
  refine ⟨a', dash ++ gap', b', ?_, List.append_cancel_right ha, hb, hnone, ?_⟩
  · rw [htext]
    simp
  · rw [List.append_eq_nil_iff, ← hhump, not_not, hsame, and_comm]

/-- Two letters of the text that the words are taken from, with `gap` and nothing else between
them. -/
theorem exists_dash {text a gap b : List Char} {x y : Char}
    (h : text = a ++ x :: (gap ++ y :: b)) (hx : isSlugChar x = true) (hy : isSlugChar y = true)
    (hgap : ∀ c ∈ gap, isSlugChar c = false) :
    ∃ u v, ['-'].intercalate (Text.words isSlugChar text) =
        u ++ x :: ((if gap = [] then [] else ['-']) ++ y :: v) ∧
      u.filter isSlugChar = a.filter isSlugChar ∧ v.filter isSlugChar = b.filter isSlugChar := by
  have hsep : ∀ c ∈ ['-'], isSlugChar c = false := fun _ => not_isSlugChar_of_mem_dash
  obtain ⟨u, hu, hafter⟩ := Text.exists_intercalate_concat hsep hx a
  obtain ⟨v, hv, hbefore⟩ := Text.exists_intercalate_cons hsep hy b
  refine ⟨u, v, ?_, hafter, hbefore⟩
  by_cases hnil : gap = []
  · -- both letters are in one word
    subst hnil
    rw [h, List.nil_append, Text.intercalate_words_join hx hy, hu, hv, if_pos rfl, List.nil_append,
      List.append_assoc, List.singleton_append]
  · have hleft : Text.words isSlugChar (a ++ [x]) ≠ [] := by
      intro hnone
      rw [hnone] at hu
      exact absurd hu (by simp)
    have hright : Text.words isSlugChar (y :: b) ≠ [] := by
      intro hnone
      rw [hnone] at hv
      exact absurd hv (by simp)
    have htext : text = a ++ [x] ++ gap ++ y :: b := by
      simp [h]
    rw [htext, Text.intercalate_words_gap hgap hnil hleft hright, hu, hv, if_neg hnil]
    simp

/-! ## The spelling of a slug -/

theorem isDashed_intercalate {w : List Char} {ws : List (List Char)}
    (h : ∀ v ∈ w :: ws, v ≠ [] ∧ ∀ c ∈ v, isSlugChar c = true) :
    IsDashed (['-'].intercalate (w :: ws)) := by
  obtain ⟨hne, hw⟩ := h w (List.mem_cons_self ..)
  induction ws generalizing w with
  | nil =>
    rw [List.intercalate_singleton]
    exact .word hne hw
  | cons v vs ih =>
    rw [List.intercalate_cons_cons, List.append_assoc, List.singleton_append]
    have hrest : ∀ u ∈ v :: vs, u ≠ [] ∧ ∀ c ∈ u, isSlugChar c = true :=
      fun u hu => h u (List.mem_cons_of_mem _ hu)
    obtain ⟨hvne, hv⟩ := hrest v (List.mem_cons_self ..)
    exact .dash hne hw (ih hrest hvne hv)

theorem toList_slug (name : String) :
    (slug name).toList = ['-'].intercalate (slugWords name.toList) := by
  rw [slug, String.toList_ofList]

theorem slugWords_spec {cs w : List Char} (hw : w ∈ slugWords cs) :
    w ≠ [] ∧ ∀ c ∈ w, isSlugChar c = true :=
  ⟨Text.ne_nil_of_mem_words hw, fun _ hc => Text.mem_of_mem_words hw hc⟩

/-- Among the characters of a slug those other than dashes are the letters and digits. -/
theorem filter_ne_dash {cs : List Char} (h : ∀ c ∈ cs, isSlugChar c = true ∨ c = '-') :
    cs.filter (· ≠ '-') = cs.filter isSlugChar := by
  refine List.filter_congr fun c hc => ?_
  rcases h c hc with hslug | rfl
  · have hne : c ≠ '-' := by
      rintro rfl
      exact absurd hslug (by decide)
    simp [hslug, hne]
  · decide

/-- The slug of a slug is the slug itself. -/
theorem slug_slug (name : String) : slug (slug name) = slug name := by
  have hchars : ∀ c ∈ (slug name).toList, isSlugChar c = true ∨ c = '-' := fun c hc => mem_slug hc
  have hwords : slugWords (slug name).toList = slugWords name.toList := by
    rw [slugWords, splitHumps_of_slug hchars, lowercase_of_slug hchars, toList_slug]
    exact Text.words_intercalate (fun _ => not_isSlugChar_of_mem_dash) (List.cons_ne_nil _ _)
      fun w hw => slugWords_spec hw
  rw [slug, hwords]
  rfl

/--
**The spelling of slugs.** The slug of every name is empty or words with single dashes between
them, and its own slug. It has all small letters and digits of the name in lower case, in order, and
a dash between two of them exactly where something else is between them or a capital begins.
-/
theorem slug_isSpelling (name : String) : IsSpelling name (slug name) where
  form := by
    rw [toList_slug]
    cases hws : slugWords name.toList with
    | nil => exact Or.inl rfl
    | cons w ws => exact Or.inr (isDashed_intercalate fun v hv => slugWords_spec (hws ▸ hv))
  stable := slug_slug name
  letters := by
    rw [filter_ne_dash fun c hc => mem_slug hc, toList_slug, slugWords,
      Text.filter_intercalate_words fun _ => not_isSlugChar_of_mem_dash, filter_splitHumps]
  dashes := by
    intro a x gap y b hname hx hy hgap
    obtain ⟨a', gap', b', htext, ha, hb, hgap', hnil⟩ := exists_consecutive hname hy hgap
    obtain ⟨u, v, hslug, hu, hv⟩ := exists_dash htext hx hy hgap'
    rw [← slugWords, ← toList_slug] at hslug
    -- without its dashes the slug has the letters of `u` and `v`, which are those of the name
    have hchars : ∀ c ∈ u ++ v, isSlugChar c = true ∨ c = '-' := by
      intro c hc
      have hmem : c ∈ (slug name).toList := by
        rw [hslug]
        rcases List.mem_append.mp hc with hc | hc
        · exact List.mem_append_left _ hc
        · simp [hc]
      exact mem_slug hmem
    have hthere : gap ≠ [] ∨ IsHump name.toList (a ++ [x]) ↔ gap' ≠ [] := by
      rw [ne_eq, ne_eq, hnil, not_and_or, not_not]
    refine ⟨u, _, v, hslug, ?_, ?_, ?_⟩
    · rw [filter_ne_dash fun c hc => hchars c (List.mem_append_left _ hc), hu, ha]
    · rw [filter_ne_dash fun c hc => hchars c (List.mem_append_right _ hc), hv, hb]
    · rw [hthere]
      by_cases hgone : gap' = []
      · simp [hgone]
      · simp [hgone]

example : slug "myNavBar 2ÄİX" = "my-nav-bar-2-i-x" := by decide +kernel

end DesignCompiler.ClassName
