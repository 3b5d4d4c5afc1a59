import DesignCompiler.Proofs.Document.Reflow
import DesignCompiler.Proofs.Markup.RoundTrip

/-!
# DesignCompiler — markup behind a margin

The markup inside a document is read as markup on its own is, but that every line has a margin: so
many blanks at its beginning say nothing, unless it begins inside a tag. Read so, moved markup is the
markup of elements whose attributes are moved.

* `withoutMargin`, `readIndented` — a reader for lines behind a margin;
* `PageElement.reflow` — an element with the attributes that the document gives it;
* `Stands` — what becomes of a part of a line, and how it is cut;
* `Moves`, `moves_line`, `moves_rendering` — what becomes of whole lines.
-/

namespace DesignCompiler

namespace Markup

/-! ## Reading behind a margin -/

/-- Marks without the margin of their lines. So many blanks of the margin are `left` in the line. -/
def withoutMargin (width : Nat) : (left : Nat) → List Mark → List Mark
  | _, [] => []
  | left, .char c :: ms =>
    if c = '\n' then .char c :: withoutMargin width width ms
    else if c = ' ' ∧ 0 < left then withoutMargin width (left - 1) ms
    else .char c :: withoutMargin width 0 ms
  | _, .tag body :: ms => .tag body :: withoutMargin width 0 ms

/-- The elements of a markup whose lines stand behind a margin. -/
def readIndented (d : Dialect) (margin indent : Nat) (cs : List Char) :
    Option (Forest Entry) := do
  let marks ← cut none cs
  let r ← (withoutMargin margin margin marks).foldlM (Reading.mark d indent) ⟨[], .nil, 0⟩
  if r.outer.isEmpty then some r.page else none

section Marks

variable {w : Nat} {ms more : List Mark}

theorem withoutMargin_newline {left : Nat} :
    withoutMargin w left (.char '\n' :: more) = .char '\n' :: withoutMargin w w more := by
  rw [withoutMargin, if_pos rfl]

theorem withoutMargin_blanks (n left : Nat) :
    withoutMargin w (n + left) (List.replicate n (.char ' ') ++ more) =
      withoutMargin w left more := by
  induction n with
  | zero => rw [Nat.zero_add, List.replicate_zero, List.nil_append]
  | succ n ih =>
    rw [List.replicate_succ, List.cons_append, withoutMargin, if_neg (by decide),
      if_pos ⟨rfl, by omega⟩, ← ih]
    congr 1
    omega

/-- Behind the margin a line is as it was. -/
theorem withoutMargin_line (h : ∀ m ∈ ms, m ≠ .char '\n') :
    withoutMargin w 0 (ms ++ more) = ms ++ withoutMargin w 0 more := by
  induction ms with
  | nil => rfl
  | cons m ms ih =>
    obtain ⟨hm, hms⟩ := List.forall_mem_cons.mp h
    rw [List.cons_append, List.cons_append, ← ih hms]
    cases m with
    | tag body => rfl
    | char c =>
      have hc : c ≠ '\n' := fun heq => hm (congrArg Mark.char heq)
      rw [withoutMargin, if_neg hc, if_neg (by simp)]

end Marks

/-! ## Moved attributes -/

open Document (reflowText)

/-- An attribute in markup that a document moves. -/
def reflowAttribute (w : Nat) (a : Attribute) : Attribute :=
  (a.1, a.2.map (reflowText w))

/-- An element as it is read in markup that a document moves. -/
def Entry.reflow (w : Nat) (x : Entry) : Entry :=
  { x with attributes := x.attributes.map (reflowAttribute w) }

end Markup

open Markup Document

/-- An element of which the texts in attributes are moved. -/
def Element.reflow (w : Nat) : Element → Element
  | .image p =>
    .image { p with source := reflowText w p.source, alt := p.alt.map (reflowText w) }
  | .button b => .button { b with href := b.href.map (reflowText w) }
  | .container s => .container s
  | .text b => .text b

def PageElement.reflow (w : Nat) (e : PageElement) : PageElement :=
  { e with element := e.element.reflow w }

section Element

variable (w : Nat) (e : PageElement)

theorem tag_reflow : (e.reflow w).tag = e.tag := by
  unfold PageElement.tag
  obtain ⟨_, _, _, _, _, _ | _ | _ | b⟩ := e
  · rfl
  · rfl
  · rfl
  · simp only [PageElement.reflow, Element.reflow, Option.isSome_map]

theorem contentLines?_reflow : (e.reflow w).contentLines? = e.contentLines? := by
  obtain ⟨_, _, _, _, _, _ | _ | _ | _⟩ := e <;> rfl

theorem ownAttributes_reflow :
    (e.reflow w).ownAttributes = e.ownAttributes.map (reflowAttribute w) := by
  -- the values that are written for every element have no line feeds
  have hempty : reflowText w "" = "" := reflowText_of_notMem (by decide)
  have himg : reflowText w "img" = "img" := reflowText_of_notMem (by decide)
  have hbutton : reflowText w "button" = "button" := reflowText_of_notMem (by decide)
  have htrue : reflowText w "true" = "true" := reflowText_of_notMem (by decide)
  obtain ⟨_, _, _, _, hasChildren, _ | _ | p | b⟩ := e
  · rfl
  · rfl
  · obtain ⟨source, alt, _, _⟩ := p
    cases hasChildren <;> cases alt <;>
      simp [PageElement.ownAttributes, PageElement.reflow, Element.reflow, reflowAttribute, hempty,
        himg]
  · obtain ⟨_, href, disabled, _, _⟩ := b
    cases href <;> cases disabled <;>
      simp [PageElement.ownAttributes, PageElement.reflow, Element.reflow, reflowAttribute, hbutton,
        htrue]

variable {e}

theorem attributes_reflow {d : Dialect} (h : ClassName.isClassName e.className) :
    (e.reflow w).attributes d = (e.attributes d).map (reflowAttribute w) := by
  have hclass : reflowText w e.className = e.className :=
    reflowText_of_notMem fun hmem => absurd (h _ hmem) (by decide)
  have hattribute : reflowAttribute w (d.classAttribute, some e.className) =
      (d.classAttribute, some e.className) := by
    rw [reflowAttribute, Option.map_some, hclass]
  rw [PageElement.attributes, PageElement.attributes, List.map_cons, hattribute,
    ownAttributes_reflow]
  rfl

theorem entry_reflow {d : Dialect} (h : ClassName.isClassName e.className) :
    (e.reflow w).entry d = (e.entry d).reflow w := by
  simp only [PageElement.entry_eq, Entry.reflow, tag_reflow, contentLines?_reflow,
    attributes_reflow w h]

end Element

namespace Document

/-! ## Parts of lines -/

/-- The mark with which a document ends. -/
def closing : Dialect → Mark
  | .html => .tag ['/', 'h', 't', 'm', 'l']
  | .jsx => .char '\x7d'

/-- What becomes of a part of a line. It has no line feeds but inside tags, and no mark that ends a
document. -/
structure Stands (d : Dialect) (w : Nat) (x x' : List Char) : Prop where
  reflows : Reflows w x x'
  head : x'.head? ≠ some '\n'
  cuts : ∃ ms, Cuts x' ms ∧ ∀ m ∈ ms, m ≠ .char '\n' ∧ m ≠ closing d

variable {d : Dialect} {w : Nat} {x x' y y' : List Char} {e : PageElement}

theorem Stands.append (hx : Stands d w x x') (hy : Stands d w y y') :
    Stands d w (x ++ y) (x' ++ y') where
  reflows := hx.reflows.append hy.reflows
  head := by
    rw [List.head?_append]
    cases hhead : x'.head? with
    | none => exact hy.head
    | some c => exact fun heq => hx.head (hhead.trans heq)
  cuts := by
    obtain ⟨ms, hms, hin⟩ := hx.cuts
    obtain ⟨ns, hns, hin'⟩ := hy.cuts
    refine ⟨ms ++ ns, hms.append hns, fun m hm => ?_⟩
    exact (List.mem_append.mp hm).elim (hin m) (hin' m)

theorem stands_tag {body : List Char} (hr : Reflows w x ('<' :: body ++ ['>']))
    (hgt : ∀ c ∈ body, c ≠ '>') (hclosing : Mark.tag body ≠ closing d) :
    Stands d w x ('<' :: body ++ ['>']) where
  reflows := hr
  head := by simp
  cuts := ⟨_, cuts_tag hgt, by simpa using hclosing⟩

/-- Part of a line that stays as it is. -/
theorem reflows_line (hn : '\n' ∉ x) (hr : '\r' ∉ x) : Reflows w x x :=
  reflows_plain hn fun hlast => hr (List.mem_of_getLast? hlast)

/-! ## Tags -/

theorem reflows_attributeText {a : Attribute} (hn : '\n' ∉ a.1.toList) (hr : '\r' ∉ a.1.toList) :
    Reflows w (attributeText d a) (attributeText d (reflowAttribute w a)) := by
  obtain ⟨name, _ | v⟩ := a
  · exact reflows_line (by simpa [attributeText] using hn) (by simpa [attributeText] using hr)
  · have hname : Reflows w (' ' :: name.toList ++ ['=', '"']) (' ' :: name.toList ++ ['=', '"']) :=
      reflows_line (by simpa using hn) (by simpa using hr)
    have hvalue := hname.append (reflows_concat (c := '"') (by decide) (by decide)
      (escapeValue d v.toList))
    rw [reflow_escapeValue] at hvalue
    simpa [attributeText, reflowAttribute, reflowText] using hvalue

/-- Names have no line feeds; values may have some. -/
theorem reflows_attributes {as : List Attribute}
    (h : ∀ a ∈ as, '\n' ∉ a.1.toList ∧ '\r' ∉ a.1.toList) :
    Reflows w (as.flatMap (attributeText d))
      ((as.map (reflowAttribute w)).flatMap (attributeText d)) := by
  induction as with
  | nil => exact Reflows.nil
  | cons a as ih =>
    obtain ⟨ha, has⟩ := List.forall_mem_cons.mp h
    exact (reflows_attributeText ha.1 ha.2).append (ih has)

/-- Neither names of tags and attributes nor what stands around them has line breaks. -/
theorem isLine_attributes (d : Dialect) (e : PageElement) :
    ∀ a ∈ e.attributes d, '\n' ∉ a.1.toList ∧ '\r' ∉ a.1.toList := by
  have hclass : '\n' ∉ d.classAttribute.toList ∧ '\r' ∉ d.classAttribute.toList := by
    cases d <;> decide
  refine List.forall_mem_cons.mpr ⟨hclass, fun a ha => ?_⟩
  have hname := name_mem_ownAttributes e a ha
  revert hname
  generalize a.1 = name
  revert name
  decide

theorem isLine_tag (e : PageElement) :
    '\n' ∉ e.tag.toList ∧ '\r' ∉ e.tag.toList ∧ e.tag ≠ "html" := by
  have htag := tag_mem e
  revert htag
  generalize e.tag = tag
  revert tag
  decide

theorem reflows_startBody (hclass : ClassName.isClassName e.className) :
    Reflows w ('<' :: startBody d e) ('<' :: startBody d (e.reflow w)) := by
  obtain ⟨hn, hr, -⟩ := isLine_tag e
  have htag : Reflows w ('<' :: e.tag.toList) ('<' :: e.tag.toList) :=
    reflows_line (by simpa using hn) (by simpa using hr)
  have hall := htag.append (reflows_attributes (w := w) (d := d) (isLine_attributes d e))
  rw [← attributes_reflow w hclass] at hall
  rw [startBody, startBody, tag_reflow]
  exact hall

/-- The text of a start tag does not begin with a slash. -/
theorem startBody_ne_closing (e : PageElement) (tail : List Char) :
    Mark.tag (startBody d e ++ tail) ≠ closing d := by
  cases d with
  | jsx => exact nofun
  | html =>
    have hplain := isPlainName_tag e
    rw [startBody, List.append_assoc]
    cases htag : e.tag.toList with
    | nil => exact absurd htag (ne_nil_of_plainName hplain)
    | cons c cs =>
      have hslash := (ne_of_mem_plainName hplain (htag ▸ List.mem_cons_self ..)).2.2.1
      simp [closing, hslash]

/-- Start tags, whether a slash ends them or not. -/
theorem stands_startTag (hclass : ClassName.isClassName e.className) {tail : List Char}
    (htail : tail = [] ∨ tail = [' ', '/']) :
    Stands d w (openTag d e ++ tail ++ ['>']) (openTag d (e.reflow w) ++ tail ++ ['>']) := by
  have hend : '\n' ∉ tail ++ ['>'] ∧ '\r' ∉ tail ++ ['>'] ∧ ∀ c ∈ tail, c ≠ '>' := by
    rcases htail with rfl | rfl <;> simp
  have hsplit : ∀ e' : PageElement, ClassName.isClassName e'.className →
      openTag d e' ++ tail ++ ['>'] = '<' :: (startBody d e' ++ tail) ++ ['>'] := by
    intro e' he'
    rw [openTag_eq d he']
    rfl
  have hreflows := (reflows_startBody (w := w) (d := d) hclass).append
    (reflows_line (w := w) hend.1 hend.2.1)
  rw [hsplit e hclass, hsplit (e.reflow w) hclass]
  refine stands_tag (by simpa using hreflows) (fun c hc => ?_) (startBody_ne_closing _ _)
  -- no character of the tag ends it
  rcases List.mem_append.mp hc with hc | hc
  · exact mem_startBody hc
  · exact hend.2.2 c hc

/-- A tag that has the same text in every document. -/
theorem stands_plainTag (body : List Char) (hn : '\n' ∉ body) (hr : '\r' ∉ body)
    (hgt : ∀ c ∈ body, c ≠ '>') (hclosing : Mark.tag body ≠ closing d) :
    Stands d w ('<' :: body ++ ['>']) ('<' :: body ++ ['>']) :=
  stands_tag (reflows_line (by simpa using hn) (by simpa using hr)) hgt hclosing

theorem stands_endTag (e : PageElement) : Stands d w (endTag e) (endTag e) := by
  obtain ⟨hn, hr, hhtml⟩ := isLine_tag e
  refine stands_plainTag ('/' :: e.tag.toList) (by simpa using hn) (by simpa using hr)
    (fun c hc => ?_) ?_
  · rcases List.mem_cons.mp hc with rfl | hc
    · decide
    · exact (ne_of_mem_plainName (isPlainName_tag e) hc).2.2.2
  · cases d with
    | jsx => exact nofun
    | html =>
      intro heq
      have hlist : e.tag.toList = "html".toList := (List.cons.inj (Mark.tag.inj heq)).2
      exact hhtml (String.toList_inj.mp hlist)

theorem stands_lineBreak : Stands d w (lineBreak d) (lineBreak d) := by
  cases d with
  | html => exact stands_plainTag ['b', 'r'] (by simp) (by simp) (by simp) (by simp [closing])
  | jsx =>
    exact stands_plainTag ['b', 'r', ' ', '/'] (by simp) (by simp) (by simp) nofun

/-! ## Text -/

theorem escapeTextChar_ne_nil (c : Char) : escapeTextChar d c ≠ [] := by
  unfold escapeTextChar
  split <;> simp

theorem mem_escapeTextChar_jsx {c z : Char} (h : z ∈ escapeTextChar .jsx c) : z ≠ '\x7d' := by
  unfold escapeTextChar at h
  split at h <;> simp_all <;> rintro rfl <;> simp_all

theorem mem_escapeTextChar_return {c : Char} (h : '\r' ∈ escapeTextChar d c) : c = '\r' := by
  unfold escapeTextChar at h
  split at h
  case h_6 => exact (List.mem_singleton.mp h).symm
  -- no entity has a carriage return
  all_goals exact absurd h (by decide)

theorem getLast?_escapeText {l : List Char} (h : l.getLast? ≠ some '\r') :
    (escapeText d l).getLast? ≠ some '\r' := by
  rcases List.eq_nil_or_concat l with rfl | ⟨v, c, rfl⟩
  · simp [escapeText]
  · rw [List.concat_eq_append, List.getLast?_concat] at h
    have hsplit : escapeText d (v ++ [c]) = escapeText d v ++ escapeTextChar d c := by
      simp [escapeText]
    rw [List.concat_eq_append, hsplit, List.getLast?_append_of_ne_nil _ (escapeTextChar_ne_nil c)]
    intro hlast
    exact h (congrArg some (mem_escapeTextChar_return (List.mem_of_getLast? hlast)))

/-- A line of text, which has no line feed and no carriage return at its end. -/
def IsTextLine (l : List Char) : Prop :=
  '\n' ∉ l ∧ l.getLast? ≠ some '\r'

theorem stands_escapeText {l : List Char} (h : IsTextLine l) :
    Stands d w (escapeText d l) (escapeText d l) := by
  have hplain : ∀ c ∈ escapeText d l, c ≠ '<' ∧ c ≠ '\n' := by
    intro c hc
    obtain ⟨hlt, -, hmem | hne⟩ := mem_escapeText hc
    · exact ⟨hlt, fun heq => h.1 (heq ▸ hmem)⟩
    · exact ⟨hlt, hne⟩
  have hn : '\n' ∉ escapeText d l := fun hmem => (hplain _ hmem).2 rfl
  refine ⟨reflows_plain hn (getLast?_escapeText h.2), fun hhead => hn (List.mem_of_head? hhead),
    _, cuts_chars fun c hc => (hplain c hc).1, fun m hm => ?_⟩
  obtain ⟨c, hc, rfl⟩ := List.mem_map.mp hm
  refine ⟨fun heq => (hplain c hc).2 (Mark.char.inj heq), ?_⟩
  -- braces are escaped, so none of them ends the document
  cases d with
  | html => exact nofun
  | jsx =>
    intro heq
    obtain ⟨z, -, hz⟩ := List.mem_flatMap.mp hc
    exact mem_escapeTextChar_jsx hz (Mark.char.inj heq)

theorem stands_content {lines : List (List Char)} (h : ∀ l ∈ lines, IsTextLine l) :
    Stands d w (content d lines) (content d lines) := by
  induction lines with
  | nil => exact ⟨Reflows.nil, nofun, [], Cuts.nil, nofun⟩
  | cons l ls ih =>
    obtain ⟨hl, hls⟩ := List.forall_mem_cons.mp h
    cases ls with
    | nil =>
      have htext := stands_escapeText (d := d) (w := w) hl
      simpa [content, List.intercalate] using htext
    | cons l' ls =>
      rw [content_cons_cons]
      exact ((stands_escapeText hl).append stands_lineBreak).append (ih hls)

/-- The lines of an element's text are lines of text. -/
theorem isTextLine_of_contentLines? {lines : List (List Char)} (h : e.contentLines? = some lines) :
    ∀ l ∈ lines, IsTextLine l := by
  obtain ⟨-, _, _, hlines, hplain⟩ := contentLines?_eq_some h
  intro l hl
  refine ⟨hplain l (hlines ▸ hl), ?_⟩
  obtain ⟨s, -, rfl⟩ := Option.map_eq_some_iff.mp h
  obtain ⟨y, -, rfl⟩ := List.mem_map.mp hl
  rw [Text.dropEndWhile, List.getLast?_reverse]
  intro hhead
  have hstop := List.head?_dropWhile_not (· == '\r') y.reverse
  rw [hhead] at hstop
  cases hstop

/-- An element without children, on its line. -/
theorem stands_leaf (hclass : ClassName.isClassName e.className) :
    Stands d w (leaf d e) (leaf d (e.reflow w)) := by
  have hstart := stands_startTag (w := w) (d := d) hclass (Or.inl rfl)
  rw [List.append_nil, List.append_nil] at hstart
  have hend : endTag (e.reflow w) = endTag e := by rw [endTag, endTag, tag_reflow]
  -- with text, without text as a closed tag, and in the two forms of other tags
  unfold leaf
  rw [contentLines?_reflow, tag_reflow, hend]
  split
  · rename_i lines hlines
    exact (hstart.append (stands_content (isTextLine_of_contentLines? hlines))).append
      (stands_endTag e)
  · have hclosed := stands_startTag (w := w) (d := .jsx) hclass (Or.inr rfl)
    simpa [closedTag] using hclosed
  · split
    · exact hstart
    · exact hstart.append (stands_endTag e)

/-! ## Lines -/

/-- What becomes of whole lines, and how they are read behind their margin. -/
def Moves (d : Dialect) (w : Nat) (cs cs' : List Char) : Prop :=
  ∃ body ns ms, (∀ rest, indented w (cs ++ rest) = body ++ indented w rest) ∧
    Cuts body ns ∧ closing d ∉ ns ∧ Cuts cs' ms ∧
    ∀ more, withoutMargin w w (ns ++ more) = ms ++ withoutMargin w w more

theorem Moves.nil : Moves d w [] [] :=
  ⟨[], [], [], fun _ => rfl, Cuts.nil, List.not_mem_nil, Cuts.nil, fun _ => rfl⟩

theorem Moves.append (hx : Moves d w x x') (hy : Moves d w y y') :
    Moves d w (x ++ y) (x' ++ y') := by
  obtain ⟨bx, nx, mx, hx, hcx, hcl, hcx', hrx⟩ := hx
  obtain ⟨bY, nY, mY, hy, hcy, hcl', hcy', hry⟩ := hy
  refine ⟨bx ++ bY, nx ++ nY, mx ++ mY, fun rest => ?_, hcx.append hcy, ?_, hcx'.append hcy',
    fun more => ?_⟩
  · rw [List.append_assoc, hx, hy, List.append_assoc]
  · rw [List.mem_append, not_or]
    exact ⟨hcl, hcl'⟩
  · rw [List.append_assoc, hrx, hry, List.append_assoc]

theorem closing_ne_char (d : Dialect) {c : Char} (hc : c ≠ '\x7d') : Mark.char c ≠ closing d := by
  cases d with
  | html => exact nofun
  | jsx => exact fun heq => hc (Mark.char.inj heq)

theorem stands_blanks (n : Nat) : Stands d w (List.replicate n ' ') (List.replicate n ' ') := by
  have hblank : ∀ c ∈ List.replicate n ' ', c = ' ' := fun c hc => List.eq_of_mem_replicate hc
  refine ⟨reflows_line ?_ ?_, ?_, _, cuts_chars ?_, ?_⟩
  · exact fun hmem => absurd (hblank _ hmem) (by decide)
  · exact fun hmem => absurd (hblank _ hmem) (by decide)
  · exact fun hhead => absurd (hblank _ (List.mem_of_head? hhead)) (by decide)
  · exact fun c hc heq => absurd (heq ▸ hblank c hc) (by decide)
  · intro m hm
    obtain ⟨c, hc, rfl⟩ := List.mem_map.mp hm
    rw [hblank c hc]
    exact ⟨by decide, closing_ne_char d (by decide)⟩

theorem cuts_newline : Cuts ['\n'] [.char '\n'] :=
  cuts_chars (by simp)

theorem cuts_blanks (n : Nat) : Cuts (List.replicate n ' ') (List.replicate n (.char ' ')) := by
  have hblank : ∀ c ∈ List.replicate n ' ', c ≠ '<' := fun c hc =>
    List.eq_of_mem_replicate hc ▸ by decide
  have hcuts := cuts_chars hblank
  rwa [List.map_replicate] at hcuts

/-- A line moves as what stands on it. Only an empty line gets no margin. -/
theorem Stands.moves (h : Stands d w x x') : Moves d w (x ++ ['\n']) (x' ++ ['\n']) := by
  have hmoved : ∀ rest, indented w (x ++ ['\n'] ++ rest) =
      (if x' = [] then [] else List.replicate w ' ') ++ (x' ++ ['\n']) ++ indented w rest := by
    intro rest
    have hhead : (x' ++ '\n' :: indented w rest).head? = some '\n' ↔ x' = [] := by
      have hx' := h.head
      cases x' <;> simp_all
    have hline : reflow w (x ++ ['\n'] ++ rest) = x' ++ '\n' :: indented w rest := by
      rw [List.append_assoc, h.reflows, List.singleton_append, reflow_newline]
    rw [indented_eq, hline]
    simp only [hhead, List.append_assoc, List.singleton_append]
  have hnewline : Mark.char '\n' ≠ closing d := closing_ne_char d (by decide)
  by_cases hnil : x' = []
  · refine ⟨['\n'], [.char '\n'], [.char '\n'], fun rest => ?_, cuts_newline, ?_, ?_, fun more => ?_⟩
    · rw [hmoved, if_pos hnil, hnil]
      rfl
    · simpa using hnewline.symm
    · rw [hnil]
      exact cuts_newline
    · exact withoutMargin_newline
  · obtain ⟨ms, hcuts, hline⟩ := h.cuts
    refine ⟨_, _, ms ++ [.char '\n'], fun rest => by rw [hmoved, if_neg hnil],
      (cuts_blanks w).append (hcuts.append cuts_newline), ?_, hcuts.append cuts_newline,
      fun more => ?_⟩
    · simp only [List.mem_append, List.mem_replicate, List.mem_singleton, not_or, not_and]
      refine ⟨fun _ => (closing_ne_char d (by decide)).symm, fun hmem => ?_, hnewline.symm⟩
      exact (hline _ hmem).2 rfl
    · -- the margin is left out, and the line ends where the next margin begins
      have hmargin : withoutMargin w w
          (List.replicate w (.char ' ') ++ (ms ++ .char '\n' :: more)) =
          withoutMargin w 0 (ms ++ .char '\n' :: more) := withoutMargin_blanks w 0
      simp only [List.append_assoc, List.singleton_append]
      rw [hmargin, withoutMargin_line fun m hm => (hline m hm).1, withoutMargin_newline]

theorem moves_line (h : Stands d w x x') (indent depth : Nat) :
    Moves d w (line indent depth x) (line indent depth x') := by
  rw [line, line]
  exact ((stands_blanks _).append h).moves

theorem moves_opening (hclass : ClassName.isClassName e.className) (s : Settings) (depth : Nat) :
    Moves s.dialect w (opening s depth e) (opening s depth (e.reflow w)) := by
  have hstart := stands_startTag (w := w) (d := s.dialect) hclass (Or.inl rfl)
  rw [List.append_nil, List.append_nil] at hstart
  unfold opening
  rw [contentLines?_reflow]
  refine (moves_line hstart s.indent depth).append ?_
  split
  · rename_i lines hlines
    exact moves_line (stands_content (isTextLine_of_contentLines? hlines)) _ _
  · exact Moves.nil

/--
**Moving a rendering.** The lines of a forest are moved to lines that, without their margin, are the
lines of the forest with its attributes moved. The induction follows the rendering.
-/
theorem moves_rendering (s : Settings) (depth : Nat) {f : Forest PageElement}
    (hclass : ∀ e ∈ f.labels, ClassName.isClassName e.className) :
    Moves s.dialect w (rendering s depth f) (rendering s depth (f.map (·.reflow w))) := by
  fun_induction rendering s depth f with
  | case1 depth => exact Moves.nil
  | case2 depth e rest ih =>
    rw [Forest.map, Forest.map, rendering]
    exact (moves_line (stands_leaf (hclass e (by simp [Forest.labels]))) _ _).append
      (ih fun x hx => hclass x (by simp [Forest.labels, hx]))
  | case3 depth e a below others rest ihb ihr =>
    have hbelow : ∀ x ∈ (Forest.cons a below others).labels, ClassName.isClassName x.className := by
      intro x hx
      refine hclass x ?_
      rw [Forest.labels, List.mem_cons, List.mem_append]
      exact Or.inr (Or.inl hx)
    have hend := stands_endTag (w := w) (d := s.dialect) e
    have hsame : endTag (e.reflow w) = endTag e := by rw [endTag, endTag, tag_reflow]
    rw [Forest.map, Forest.map, rendering, hsame]
    -- opening, what stands below, end tag, and the trees behind
    exact (((moves_opening (hclass e (by simp [Forest.labels])) s depth).append (ihb hbelow)).append
      (moves_line hend _ _)).append (ihr fun x hx => hclass x (by simp [Forest.labels, hx]))

/-! ## The lines of a document -/

theorem suffix_leaf (d : Dialect) (e : PageElement) : ['>'] <:+ leaf d e := by
  have hend : ['>'] <:+ endTag e := List.suffix_append _ _
  unfold leaf
  split
  · exact hend.trans (List.suffix_append _ _)
  · exact ⟨openTag .jsx e ++ [' ', '/'], by simp [closedTag]⟩
  · split
    · exact List.suffix_append _ _
    · exact hend.trans (List.suffix_append _ _)

theorem suffix_line {x : List Char} (h : ['>'] <:+ x) (indent depth : Nat) :
    ['>', '\n'] <:+ line indent depth x := by
  obtain ⟨cs, rfl⟩ := h
  exact ⟨List.replicate (depth * indent) ' ' ++ cs, by simp [line]⟩

/-- The last line of a forest ends with a tag. -/
theorem suffix_rendering {s : Settings} {depth : Nat} {f : Forest PageElement} (hne : f ≠ .nil) :
    ['>', '\n'] <:+ rendering s depth f := by
  -- the last line is that of the last tree: a leaf, or an end tag
  fun_induction rendering s depth f with
  | case1 => exact absurd rfl hne
  | case2 depth e rest ih =>
    cases rest with
    | nil =>
      rw [rendering, List.append_nil]
      exact suffix_line (suffix_leaf s.dialect e) _ _
    | cons a below others => exact (ih (by simp)).trans (List.suffix_append _ _)
  | case3 depth e a below others rest ihb ihr =>
    cases rest with
    | nil =>
      rw [rendering, List.append_nil]
      exact (suffix_line (List.suffix_append _ _) _ _).trans (List.suffix_append _ _)
    | cons a' below' others' => exact (ihr (by simp)).trans (List.suffix_append _ _)

/--
**The body.** Lines that end with a tag become the lines that a document shows. Cut into marks, without
their margin, they are those of the text that they move to.
-/
theorem Moves.body {d : Dialect} {w : Nat} {cs cs' : List Char} (h : Moves d w cs cs')
    (hend : ['>', '\n'] <:+ cs) :
    ∃ ns, Cuts ((indentBlock w (String.ofList cs)).toList ++ ['\n']) ns ∧ closing d ∉ ns ∧
      Cuts cs' (withoutMargin w w ns) := by
  obtain ⟨body, ns, ms, hmoved, hcuts, hns, hcuts', hread⟩ := h
  obtain ⟨v, rfl⟩ := hend
  have hlast : ∃ c ∈ (v ++ ['>']).getLast?, c ≠ '\n' ∧ c ≠ '\r' := ⟨'>', by simp, by decide⟩
  have hsplit : v ++ ['>', '\n'] = v ++ ['>'] ++ ['\n'] := by simp
  have hblock := indentBlock_eq (w := w) hlast
  -- with nothing behind it the block ends with a margin, which is not part of it
  have hbody : body = (indentBlock w (String.ofList (v ++ ['>', '\n']))).toList ++ ['\n'] := by
    have hall := hmoved []
    rw [List.append_nil, hsplit, indented_concat_newline (List.suffix_append _ _), ← hblock] at hall
    have hempty : indented w [] = List.replicate w ' ' := by
      simp [indented, dropReturns, indentFirst, indentAfter]
    rw [hempty] at hall
    rw [hsplit]
    have hcancel : (indentBlock w (String.ofList (v ++ ['>'] ++ ['\n']))).toList ++ ['\n'] ++
        List.replicate w ' ' = body ++ List.replicate w ' ' := by
      rw [← hall]
      simp
    exact (List.append_cancel_right hcancel).symm
  have hmarks := hread []
  rw [List.append_nil, withoutMargin, List.append_nil] at hmarks
  exact ⟨ns, hbody ▸ hcuts, hns, hmarks ▸ hcuts'⟩

end Document

end DesignCompiler
