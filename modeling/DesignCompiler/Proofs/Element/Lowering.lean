import DesignCompiler.Proofs.Element.Judging

/-!
# DesignCompiler — what lowering has checked

An element that came out of lowering carries checked texts only: its colors are colors, its weight
is one of the weights, and the names of fonts and the sources of pictures cannot end the declaration
they are written into. Later stages rely on this and check nothing again.

* `color_eq_ok`, `fontFamily_eq_ok`, `fontWeight_eq_ok`, `source_eq_ok` — one value each;
* `boxStyle_eq_ok`, `typography_eq_ok`, `element_eq_ok` — the parts of what was read;
* `Element.Checked` — an element whose texts are checked;
* `Component.element_checked` — a component that is lowered has such an element.
-/

namespace DesignCompiler

/-- A box whose colors are colors. -/
structure BoxStyle.Checked (b : BoxStyle) : Prop where
  fill : ∀ c ∈ b.fill, isColor c = true
  border : ∀ l ∈ b.border, isColor l.color = true

/-- A font whose texts were checked. -/
structure Typography.Checked (t : Typography) : Prop where
  color : ∀ c ∈ t.color, isColor c = true
  fontFamily : ∀ f ∈ t.fontFamily, Attributes.breaksStylesheet f = false
  fontWeight : ∀ w ∈ t.fontWeight, w ∈ Attributes.weights

/-- An element whose texts were checked. -/
structure Element.Checked (e : Element) : Prop where
  style : e.style.Checked
  typography : ∀ t ∈ e.typography?, t.Checked
  source : ∀ p, e = .image p → Attributes.breaksStylesheet p.source = false

namespace Attributes

variable {a : Attributes}

/-! ## Values -/

theorem color_eq_ok {p : Property} {r : Option String} (h : a.color p = .ok r) :
    ∀ c ∈ r, isColor c = true :=
  forall_mem_of_read (fun _ _ => Judge.color_eq_ok) (color_eq_read ▸ h)

theorem fontFamily_eq_ok {r : Option String} (h : a.fontFamily = .ok r) :
    ∀ f ∈ r, breaksStylesheet f = false :=
  forall_mem_of_read (fun _ _ => Judge.family_eq_ok) (fontFamily_eq_read ▸ h)

theorem fontWeight_eq_ok {r : Option String} (h : a.fontWeight = .ok r) :
    ∀ w ∈ r, w ∈ weights :=
  forall_mem_of_read (fun _ _ => Judge.weight_eq_ok) (fontWeight_eq_read ▸ h)

theorem source_eq_ok {s : String} (h : a.source = .ok s) :
    Text.isAllBlank s = false ∧ breaksStylesheet s = false :=
  of_require (fun _ _ => Judge.source_eq_ok) (source_eq_require ▸ h)

/-! ## Groups -/

theorem isColor_currentColor : isColor "currentColor" = true := by decide

/-- The color of a line is the one that was read, or that of the text. -/
theorem borderOf_checked {width : Option Binary64} {line : Option String}
    (h : ∀ c ∈ line, isColor c = true) : ∀ l ∈ borderOf width line, isColor l.color = true := by
  intro l hl
  unfold borderOf at hl
  split at hl
  · exact nomatch hl
  · rw [Option.mem_some] at hl
    exact hl ▸ h _ rfl
  · split at hl
    · exact nomatch hl
    · rw [Option.mem_some] at hl
      rw [← hl]
      cases line with
      | none => exact isColor_currentColor
      | some c => exact h c rfl

/-- The parts of a box, each read by its own reader. -/
theorem boxStyle_eq_ok {b : BoxStyle} (h : a.boxStyle = .ok b) :
    ∃ width line, a.length .borderWidth = .ok width ∧ a.color .borderColor = .ok line ∧
      a.opacity = .ok b.opacity ∧ a.color .fill = .ok b.fill ∧ a.length .radius = .ok b.radius ∧
      b.border = borderOf width line := by
  obtain ⟨width, hwidth, h⟩ := bind_eq_ok_iff.mp h
  obtain ⟨line, hline, h⟩ := bind_eq_ok_iff.mp h
  obtain ⟨opacity, hopacity, h⟩ := bind_eq_ok_iff.mp h
  obtain ⟨fill, hfill, h⟩ := bind_eq_ok_iff.mp h
  obtain ⟨radius, hradius, h⟩ := bind_eq_ok_iff.mp h
  obtain rfl := Except.ok.inj h
  exact ⟨width, line, hwidth, hline, hopacity, hfill, hradius, rfl⟩

theorem boxStyle_checked {b : BoxStyle} (h : a.boxStyle = .ok b) : b.Checked := by
  obtain ⟨width, line, -, hline, -, hfill, -, hborder⟩ := boxStyle_eq_ok h
  exact ⟨color_eq_ok hfill, hborder ▸ borderOf_checked (color_eq_ok hline)⟩

/-- The parts of a font, each read by its own reader. -/
theorem typography_eq_ok {t : Typography} (h : a.typography = .ok t) :
    a.fontFamily = .ok t.fontFamily ∧ a.fontWeight = .ok t.fontWeight ∧
      a.textAlign = .ok t.textAlign ∧ a.color .color = .ok t.color ∧
      a.length .fontSize = .ok t.fontSize := by
  obtain ⟨family, hfamily, h⟩ := bind_eq_ok_iff.mp h
  obtain ⟨weight, hweight, h⟩ := bind_eq_ok_iff.mp h
  obtain ⟨align, halign, h⟩ := bind_eq_ok_iff.mp h
  obtain ⟨color, hcolor, h⟩ := bind_eq_ok_iff.mp h
  obtain ⟨size, hsize, h⟩ := bind_eq_ok_iff.mp h
  obtain rfl := Except.ok.inj h
  exact ⟨hfamily, hweight, halign, hcolor, hsize⟩

theorem typography_checked {t : Typography} (h : a.typography = .ok t) : t.Checked := by
  obtain ⟨hfamily, hweight, -, hcolor, -⟩ := typography_eq_ok h
  exact ⟨color_eq_ok hcolor, fontFamily_eq_ok hfamily, fontWeight_eq_ok hweight⟩

/-! ## Elements -/

/-- The parts of an element, each read by its own reader. -/
theorem element_eq_ok {k : Kind} {e : Element} (h : a.element k = .ok e) :
    a.boxStyle = .ok e.style ∧ (∀ t ∈ e.typography?, a.typography = .ok t) ∧
      ∀ p, e = .image p → a.source = .ok p.source := by
  -- every kind reads a box, at last; texts and buttons read a font, pictures a source
  cases k with
  | container =>
    obtain ⟨style, hstyle, h⟩ := bind_eq_ok_iff.mp h
    obtain rfl := Except.ok.inj h
    exact ⟨hstyle, (fun _ ht => nomatch ht), fun _ hp => nomatch hp⟩
  | text =>
    obtain ⟨text, -, h⟩ := bind_eq_ok_iff.mp h
    obtain ⟨font, hfont, h⟩ := bind_eq_ok_iff.mp h
    obtain ⟨style, hstyle, h⟩ := bind_eq_ok_iff.mp h
    obtain rfl := Except.ok.inj h
    refine ⟨hstyle, fun t ht => ?_, fun _ hp => nomatch hp⟩
    obtain rfl : font = t := Option.some.inj ht
    exact hfont
  | image =>
    obtain ⟨source, hsource, h⟩ := bind_eq_ok_iff.mp h
    obtain ⟨alt, -, h⟩ := bind_eq_ok_iff.mp h
    obtain ⟨fit, -, h⟩ := bind_eq_ok_iff.mp h
    obtain ⟨style, hstyle, h⟩ := bind_eq_ok_iff.mp h
    obtain rfl := Except.ok.inj h
    refine ⟨hstyle, (fun _ ht => nomatch ht), fun p hp => ?_⟩
    rw [← Element.image.inj hp]
    exact hsource
  | button =>
    obtain ⟨label, -, h⟩ := bind_eq_ok_iff.mp h
    obtain ⟨href, -, h⟩ := bind_eq_ok_iff.mp h
    obtain ⟨disabled, -, h⟩ := bind_eq_ok_iff.mp h
    obtain ⟨font, hfont, h⟩ := bind_eq_ok_iff.mp h
    obtain ⟨style, hstyle, h⟩ := bind_eq_ok_iff.mp h
    obtain rfl := Except.ok.inj h
    refine ⟨hstyle, fun t ht => ?_, fun _ hp => nomatch hp⟩
    obtain rfl : font = t := Option.some.inj ht
    exact hfont

theorem element_checked {k : Kind} {e : Element} (h : a.element k = .ok e) : e.Checked := by
  obtain ⟨hstyle, hfont, hsource⟩ := element_eq_ok h
  exact ⟨boxStyle_checked hstyle, fun t ht => typography_checked (hfont t ht),
    fun p hp => (source_eq_ok (hsource p hp)).2⟩

end Attributes

theorem Component.element_checked {c : Component} {e : Element} (h : c.element = .ok e) :
    e.Checked := by
  unfold Component.element at h
  split at h
  · exact nomatch h
  · exact Attributes.element_checked h

end DesignCompiler
