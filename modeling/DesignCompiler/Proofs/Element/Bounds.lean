import DesignCompiler.Proofs.Element.Colors
import DesignCompiler.Proofs.Element.Judging
import DesignCompiler.Proofs.Element.Lowering
import DesignCompiler.Proofs.Number.Value
import Mathlib.Tactic.NormNum.Pow

/-!
# DesignCompiler — bounds of what is lowered

No stage behind lowering checks a value again, so all that they rely on has to hold of every element:
colors are in the language of colors, numbers are finite and in their ranges, weights are weights,
and no text can end the declaration it is written into. Numbers are compared as the rational numbers
that they are.

* `Element.IsBounded`, `Geometry.IsBounded` — what holds of an element and of a geometry;
* `length_eq_ok`, `opacity_eq_ok`, `isBounded_borderOf` — the ranges of numbers;
* `checkCoordinate_eq_ok_iff` — one number of a geometry;
* `lowering_bounded` — every component that is lowered, and every geometry that is accepted.
-/

namespace DesignCompiler

/-! ## Bounds -/

/-- A number of pixels that can be written. -/
structure IsLength (x : Binary64) : Prop where
  finite : x.isFinite = true
  nonneg : 0 ≤ x.value
  le : x.value ≤ 10 ^ 9

/-- The characters that could end a declaration or the element around it. -/
def breakingChars : List Char := [';', '\x7b', '\x7d', '<', '>', '\r', '\n']

/-- The weights of fonts: four words, and the hundreds. -/
def IsWeight (w : String) : Prop :=
  w ∈ ["normal", "bold", "bolder", "lighter"] ∨ ∃ n, 1 ≤ n ∧ n ≤ 9 ∧ w = toString (100 * n)

structure BoxStyle.IsBounded (b : BoxStyle) : Prop where
  fill : ∀ c ∈ b.fill, Color.IsForm c.toList
  borderColor : ∀ l ∈ b.border, Color.IsForm l.color.toList
  /-- A line that is there can be seen. -/
  borderWidth : ∀ l ∈ b.border, IsLength l.width ∧ 0 < l.width.value
  radius : ∀ r ∈ b.radius, IsLength r
  opacity : ∀ o ∈ b.opacity, o.isFinite = true ∧ 0 ≤ o.value ∧ o.value ≤ 1

structure Typography.IsBounded (t : Typography) : Prop where
  color : ∀ c ∈ t.color, Color.IsForm c.toList
  fontFamily : ∀ f ∈ t.fontFamily, ∀ c ∈ f.toList, c ∉ breakingChars
  fontSize : ∀ s ∈ t.fontSize, IsLength s
  fontWeight : ∀ w ∈ t.fontWeight, IsWeight w

structure Element.IsBounded (e : Element) : Prop where
  style : e.style.IsBounded
  typography : ∀ t ∈ e.typography?, t.IsBounded
  source : ∀ p, e = .image p → (∀ c ∈ p.source.toList, c ∉ breakingChars) ∧
    ∃ c ∈ p.source.toList, Text.isBlank c = false

/-- A number of a geometry that can be written. -/
structure IsCoordinate (x : Binary64) : Prop where
  finite : x.isFinite = true
  abs_le : |x.value| ≤ 10 ^ 9

structure Geometry.IsBounded (g : Geometry) : Prop where
  x : IsCoordinate g.x
  y : IsCoordinate g.y
  width : IsCoordinate g.width ∧ 0 ≤ g.width.value
  height : IsCoordinate g.height ∧ 0 ≤ g.height.value

/-! ## Values -/

theorem isLength_iff {x : Binary64} : IsLength x ↔ x.isWithin maxMagnitude = true := by
  have hmax : ((maxMagnitude : Nat) : ℚ) = 10 ^ 9 := by norm_num [maxMagnitude]
  rw [Binary64.isWithin_iff, hmax]
  exact ⟨fun h => ⟨h.finite, h.nonneg, h.le⟩, fun ⟨hf, hn, hl⟩ => ⟨hf, hn, hl⟩⟩

theorem notMem_breakingChars {s : String} (h : Attributes.breaksStylesheet s = false) :
    ∀ c ∈ s.toList, c ∉ breakingChars := by
  intro c hc
  have hchar := List.any_eq_false.mp h c hc
  simp only [Bool.or_eq_true, beq_iff_eq, not_or] at hchar
  simp [breakingChars, hchar]

theorem isWeight_of_mem {w : String} (h : w ∈ Attributes.weights) : IsWeight w := by
  have hwords : ∀ w ∈ Attributes.weights, w ∈ ["normal", "bold", "bolder", "lighter"] ∨
      ∃ n ∈ List.range' 1 9, w = toString (100 * n) := by
    decide
  refine (hwords w h).imp_right fun ⟨n, hn, hw⟩ => ⟨n, ?_, ?_, hw⟩
  · exact (List.mem_range'_1.mp hn).1
  · exact Nat.le_of_lt_succ (List.mem_range'_1.mp hn).2

theorem Judge.length_eq_ok {v : Json} {x : Binary64} (h : Judge.length v = .ok x) :
    IsLength x := by
  unfold Judge.length at h
  split at h
  · exact nomatch h
  · split at h
    · rename_i hwithin
      exact isLength_iff.mpr (Except.ok.inj h ▸ hwithin)
    · exact nomatch h

theorem Judge.opacity_eq_ok {v : Json} {x : Binary64} (h : Judge.opacity v = .ok x) :
    x.isFinite = true ∧ 0 ≤ x.value ∧ x.value ≤ 1 := by
  obtain ⟨y, hlength, h⟩ := bind_eq_ok_iff.mp h
  have hy := Judge.length_eq_ok hlength
  split at h
  · exact nomatch h
  · rename_i hexceeds
    obtain rfl : y = x := Except.ok.inj h
    rw [Binary64.exceeds_iff, not_lt, abs_of_nonneg hy.nonneg, Nat.cast_one] at hexceeds
    exact ⟨hy.finite, hy.nonneg, hexceeds⟩

namespace Attributes

variable {a : Attributes}

theorem length_eq_ok {p : Property} {r : Option Binary64} (h : a.length p = .ok r) :
    ∀ x ∈ r, IsLength x :=
  forall_mem_of_read (fun _ _ => Judge.length_eq_ok) (length_eq_read ▸ h)

theorem opacity_eq_ok {r : Option Binary64} (h : a.opacity = .ok r) :
    ∀ x ∈ r, x.isFinite = true ∧ 0 ≤ x.value ∧ x.value ≤ 1 :=
  forall_mem_of_read (fun _ _ => Judge.opacity_eq_ok) (opacity_eq_read ▸ h)

/-! ## Groups -/

/-- A length that is not zero is positive. -/
theorem value_pos {x : Binary64} (h : IsLength x) (hzero : ¬ x.isZero = true) : 0 < x.value :=
  h.nonneg.lt_of_ne' (mt Binary64.isZero_iff.mpr hzero)

/-- A line of no width is none, and one of which only the color is known is one pixel wide. -/
theorem isBounded_borderOf {width : Option Binary64} {line : Option String}
    (h : ∀ w ∈ width, IsLength w) :
    ∀ l ∈ borderOf width line, IsLength l.width ∧ 0 < l.width.value := by
  intro l hl
  unfold borderOf at hl
  -- a color without a width is one pixel wide, and a width of zero is no border
  split at hl
  · exact nomatch hl
  · have hone : IsLength (.ofNat 1) := isLength_iff.mpr (by decide)
    have hzero : ¬ (Binary64.ofNat 1).isZero = true := by decide
    rw [← Option.some.inj hl]
    exact ⟨hone, value_pos hone hzero⟩
  · rename_i w
    split at hl
    · exact nomatch hl
    · rename_i hzero
      rw [← Option.some.inj hl]
      exact ⟨h w rfl, value_pos (h w rfl) hzero⟩

theorem boxStyle_isBounded {b : BoxStyle} (h : a.boxStyle = .ok b) : b.IsBounded := by
  have hchecked := boxStyle_checked h
  obtain ⟨width, line, hwidth, -, hopacity, -, hradius, hborder⟩ := boxStyle_eq_ok h
  exact {
    fill := fun c hc => isColor_iff.mp (hchecked.fill c hc)
    borderColor := fun l hl => isColor_iff.mp (hchecked.border l hl)
    borderWidth := hborder ▸ isBounded_borderOf (length_eq_ok hwidth)
    radius := length_eq_ok hradius
    opacity := opacity_eq_ok hopacity }

theorem typography_isBounded {t : Typography} (h : a.typography = .ok t) : t.IsBounded := by
  have hchecked := typography_checked h
  obtain ⟨-, -, -, -, hsize⟩ := typography_eq_ok h
  exact {
    color := fun c hc => isColor_iff.mp (hchecked.color c hc)
    fontFamily := fun f hf => notMem_breakingChars (hchecked.fontFamily f hf)
    fontSize := length_eq_ok hsize
    fontWeight := fun w hw => isWeight_of_mem (hchecked.fontWeight w hw) }

theorem source_isBounded {s : String} (h : a.source = .ok s) :
    (∀ c ∈ s.toList, c ∉ breakingChars) ∧ ∃ c ∈ s.toList, Text.isBlank c = false := by
  obtain ⟨hblank, hbreaks⟩ := source_eq_ok h
  exact ⟨notMem_breakingChars hbreaks, by simpa [Text.isAllBlank] using hblank⟩

theorem element_isBounded {k : Kind} {e : Element} (h : a.element k = .ok e) : e.IsBounded := by
  obtain ⟨hstyle, hfont, hsource⟩ := element_eq_ok h
  exact ⟨boxStyle_isBounded hstyle, fun t ht => typography_isBounded (hfont t ht),
    fun p hp => source_isBounded (hsource p hp)⟩

end Attributes

/-! ## Components -/

namespace Component

variable {c : Component}

theorem element_isBounded {e : Element} (h : c.element = .ok e) : e.IsBounded := by
  unfold element at h
  split at h
  · exact nomatch h
  · exact Attributes.element_isBounded h

/-- A number of a geometry is accepted if it can be written, and is not negative if it is a size. -/
theorem checkCoordinate_eq_ok_iff {part : String} {isSize : Bool} {x : Binary64} :
    c.checkCoordinate part isSize x = .ok () ↔
      IsCoordinate x ∧ (isSize = true → 0 ≤ x.value) := by
  have hmax : ((maxMagnitude : Nat) : ℚ) = 10 ^ 9 := by norm_num [maxMagnitude]
  have hbound : x.exceeds maxMagnitude = true ↔ ¬ |x.value| ≤ 10 ^ 9 := by
    rw [Binary64.exceeds_iff, hmax, not_le]
  unfold checkCoordinate
  dsimp only
  -- the checks in their order: finite, not negative for a size, not too large
  split
  · rename_i hfinite
    exact ⟨nofun, fun h => absurd h.1.finite (by simpa using hfinite)⟩
  · rename_i hfinite
    split
    · rename_i hnegative
      rw [Bool.and_eq_true, Binary64.isBelowZero_iff] at hnegative
      exact ⟨nofun, fun h => absurd (h.2 hnegative.1) hnegative.2.not_ge⟩
    · rename_i hnegative
      rw [Bool.and_eq_true, Binary64.isBelowZero_iff, not_and, not_lt] at hnegative
      split
      · rename_i hexceeds
        exact ⟨nofun, fun h => absurd h.1.abs_le (hbound.mp hexceeds)⟩
      · rename_i hexceeds
        rw [hbound, not_not] at hexceeds
        exact ⟨fun _ => ⟨⟨by simpa using hfinite, hexceeds⟩, hnegative⟩, fun _ => rfl⟩

theorem placement_eq_ok_iff {o : Option Geometry} :
    c.placement = .ok o ↔ o = c.geometry ∧ ∀ g ∈ c.geometry, g.IsBounded := by
  unfold placement
  cases c.geometry with
  | none => exact ⟨fun h => ⟨(Except.ok.inj h).symm, nofun⟩, fun h => congrArg Except.ok h.1.symm⟩
  | some g =>
    simp only [bind_eq_ok_iff, Option.mem_some, forall_eq']
    constructor
    · rintro ⟨_, hx, _, hy, _, hwidth, _, hheight, h⟩
      rw [checkCoordinate_eq_ok_iff] at hx hy hwidth hheight
      exact ⟨(Except.ok.inj h).symm, hx.1, hy.1, hwidth.imp_right (· rfl), hheight.imp_right (· rfl)⟩
    · -- positions may be negative, sizes may not
      rintro ⟨rfl, hx, hy, hwidth, hheight⟩
      have hsize := fun part x => @checkCoordinate_eq_ok_iff c part true x
      have hplace := fun part x => @checkCoordinate_eq_ok_iff c part false x
      exact ⟨(), (hplace ..).mpr ⟨hx, nofun⟩, (), (hplace ..).mpr ⟨hy, nofun⟩,
        (), (hsize ..).mpr (hwidth.imp_right fun h _ => h),
        (), (hsize ..).mpr (hheight.imp_right fun h _ => h), rfl⟩

end Component

/--
**What lowering guarantees.** An element that is lowered has values in their ranges only. A geometry is
accepted exactly if its numbers are finite and bounded and its sizes are not negative, and it is
given back as it is; so is one that is absent.
-/
theorem lowering_bounded (c : Component) :
    (∀ e, c.element = .ok e → e.IsBounded) ∧
      ∀ o, c.placement = .ok o ↔ o = c.geometry ∧ ∀ g ∈ c.geometry, g.IsBounded :=
  ⟨fun _ => Component.element_isBounded, fun _ => Component.placement_eq_ok_iff⟩

/-- A link whose values are at their bounds or spelled in a rare way. -/
def edgeLink : Component where
  id := ⟨1⟩
  kind := "Link"
  geometry := some ⟨⟨0xC1CDCD6500000000⟩, ⟨0x8000000000000000⟩, ⟨0x41CDCD6500000000⟩, ⟨1⟩⟩
  appearance := [("background_color", .string " hsl(.5turn 40%) "),
    ("border_width", .string "1e9 pxpx"), ("borderRadius", .number (.integer 1000000000)),
    ("fontFamily", .null), ("font_family", .string "\"Open Sans\", serif"),
    ("fontSize", .string "-0"), ("fontWeight", .number (.integer 900)), ("label", .string "a"),
    ("opacity", .number (.binary ⟨0x3FF0000000000000⟩)), ("textColor", .string "Navy")]

theorem edgeLink_bounded :
    (∃ e, edgeLink.element = .ok e ∧ e.style.border.isSome ∧ e.IsBounded) ∧
      edgeLink.placement = .ok edgeLink.geometry ∧ ∀ g ∈ edgeLink.geometry, g.IsBounded := by
  obtain ⟨helement, hplacement⟩ := lowering_bounded edgeLink
  have hlowered : edgeLink.element.toOption.any (·.style.border.isSome) = true := by decide +kernel
  have hplaced : edgeLink.placement = .ok edgeLink.geometry := by decide +kernel
  refine ⟨?_, hplaced, ((hplacement _).mp hplaced).2⟩
  cases h : edgeLink.element with
  | error r =>
    rw [h] at hlowered
    exact nomatch hlowered
  | ok e =>
    rw [h] at hlowered
    exact ⟨e, rfl, hlowered, helement e h⟩

end DesignCompiler
