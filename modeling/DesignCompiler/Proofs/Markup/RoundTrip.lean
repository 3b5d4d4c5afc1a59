import DesignCompiler.Proofs.Markup.Pieces
import DesignCompiler.Proofs.Markup.Rendering
import DesignCompiler.Proofs.Text.Pieces

/-!
# DesignCompiler — markup reads back to its tree

The markup of a tree is read as the forest of its page elements: the same nesting, and each element
with its tag, its attributes and its text. At the start of every line the reader is as deep in the
markup as the writer was in the tree.

* `Reads` — what a text does to the reader, and the classes of its start tags;
* `reads_line`, `reads_leaf`, `reads_opening` — the pieces of the writer;
* `reads_rendering` — the markup of a forest, wherever it stands;
* `emit_reads_back` — the markup that is emitted for a page.
-/

namespace DesignCompiler.Markup

/-- A text takes the reader from one state to another, and its start tags have these classes. -/
def Reads (d : Dialect) (indent : Nat) (cs : List Char) (classes : List (Option String))
    (r r' : Reading) : Prop :=
  ∃ ms, Cuts cs ms ∧ ms.filterMap (startClass? d) = classes ∧
    ms.foldlM (Reading.mark d indent) r = some r'

section Pieces

variable {d : Dialect} {indent : Nat} {outer : List Opened} {page : Forest Entry}

theorem Reads.nil {r : Reading} : Reads d indent [] [] r r :=
  ⟨[], .nil, rfl, rfl⟩

theorem Reads.append {cs ds : List Char} {as bs : List (Option String)} {r r' r'' : Reading}
    (hc : Reads d indent cs as r r') (hd : Reads d indent ds bs r' r'') :
    Reads d indent (cs ++ ds) (as ++ bs) r r'' := by
  obtain ⟨ms, hcut, hclasses, hread⟩ := hc
  obtain ⟨ns, hcut', hclasses', hread'⟩ := hd
  refine ⟨ms ++ ns, hcut.append hcut', ?_, ?_⟩
  · rw [List.filterMap_append, hclasses, hclasses']
  · rw [List.foldlM_append, hread]
    exact hread'

/-! ## Characters -/

/-- A single character that is no `<`. -/
theorem reads_char {c : Char} (hc : c ≠ '<') {r r' : Reading} (hr : r.char indent c = some r') :
    Reads d indent [c] [] r r' := by
  refine ⟨[.char c], cuts_chars (by simpa using hc), rfl, ?_⟩
  simp [Reading.mark, hr]

theorem reads_newline (r : Reading) :
    Reads d indent ['\n'] [] r { r with padding := r.outer.length * indent } :=
  reads_char (by decide) rfl

/-- Blanks are taken as indentation as long as some of it is left. -/
theorem reads_padding (n pad : Nat) :
    Reads d indent (List.replicate n ' ') [] ⟨outer, page, n + pad⟩ ⟨outer, page, pad⟩ := by
  induction n with
  | zero =>
    rw [Nat.zero_add]
    exact Reads.nil
  | succ n ih =>
    have hstep : Reads d indent [' '] [] ⟨outer, page, n + 1 + pad⟩ ⟨outer, page, n + pad⟩ := by
      refine reads_char (by decide) ?_
      rw [Reading.char, if_neg (by decide), if_pos ⟨rfl, show 0 < n + 1 + pad by omega⟩]
      simp only [Option.some.injEq, Reading.mk.injEq, true_and]
      omega
    exact hstep.append ih

/-- Text goes to the end of the latest line of the innermost element. -/
theorem reads_text {tag : String} {as : List Attribute} {l : List Char} {ls : List (List Char)}
    {cs : List Char} (h : ∀ c ∈ cs, c ≠ '<' ∧ c ≠ '\n') :
    Reads d indent cs [] ⟨⟨tag, as, l :: ls, .nil⟩ :: outer, page, 0⟩
      ⟨⟨tag, as, (l ++ cs) :: ls, .nil⟩ :: outer, page, 0⟩ := by
  induction cs generalizing l with
  | nil =>
    rw [List.append_nil]
    exact Reads.nil
  | cons c cs ih =>
    obtain ⟨hlt, hne⟩ := h c (List.mem_cons_self ..)
    have hstep : Reads d indent [c] [] ⟨⟨tag, as, l :: ls, .nil⟩ :: outer, page, 0⟩
        ⟨⟨tag, as, (l ++ [c]) :: ls, .nil⟩ :: outer, page, 0⟩ := by
      refine reads_char hlt ?_
      rw [Reading.char, if_neg hne, if_neg (by simp)]
      rfl
    have hrest := hstep.append (ih fun x hx => h x (List.mem_cons_of_mem _ hx))
    rw [List.append_assoc] at hrest
    exact hrest

/-! ## Tags -/

/-- A tag that says something takes one step. -/
theorem reads_tag {body : List Char} (hbody : ∀ c ∈ body, c ≠ '>') {tag : Tag}
    (htag : readTag d body = some tag) {r r' : Reading} (hr : r.tag d tag = some r') :
    Reads d indent ('<' :: body ++ ['>']) ([Mark.tag body].filterMap (startClass? d)) r r' := by
  refine ⟨[.tag body], cuts_tag hbody, rfl, ?_⟩
  simp [Reading.mark, htag, hr]

theorem startClass?_start {body : List Char} {e : PageElement} {closed : Bool}
    (htag : readTag d body = some (.start e.tag (e.attributes d) closed)) :
    [Mark.tag body].filterMap (startClass? d) = [some e.className] := by
  have hlookup : (e.attributes d).lookup (classKey d) = some (some e.className) := by
    rw [PageElement.attributes, d.classAttribute_eq, List.lookup_cons_self]
  simp [startClass?, htag, tag_ne_br, hlookup]

theorem readTag_open (e : PageElement) :
    readTag d (startBody d e) = some (.start e.tag (e.attributes d) false) := by
  have htag : readTag d (startBody d e ++ []) = some (.start e.tag (e.attributes d) false) :=
    readTag_startBody (by simp) (by rw [readAttributes])
  rwa [List.append_nil] at htag

theorem readTag_closed (e : PageElement) :
    readTag d (startBody d e ++ [' ', '/']) = some (.start e.tag (e.attributes d) true) :=
  readTag_startBody (by simp) (by rw [readAttributes, if_pos rfl])

section Element

variable {e : PageElement} (hclass : ClassName.isClassName e.className)

include hclass

/-- A start tag opens an element. -/
theorem reads_startTag (himg : e.tag ≠ "img") (r : Reading) :
    Reads d indent (startTag d e) [some e.className] r
      ⟨⟨e.tag, e.attributes d, [[]], .nil⟩ :: r.outer, r.page, 0⟩ := by
  rw [startTag, openTag_eq d hclass, ← startClass?_start (readTag_open e)]
  refine reads_tag (fun c hc => mem_startBody hc) (readTag_open e) ?_
  rw [Reading.tag, if_neg (tag_ne_br e), if_neg (by simpa using himg)]

/-- The start tag of a picture is a whole element. -/
theorem reads_imgTag (himg : e.tag = "img") (r : Reading) :
    Reads d indent (startTag d e) [some e.className] r
      ({ r with padding := 0 }.put (.cons ⟨e.tag, e.attributes d, [[]]⟩ .nil .nil)) := by
  rw [startTag, openTag_eq d hclass, ← startClass?_start (readTag_open e)]
  refine reads_tag (fun c hc => mem_startBody hc) (readTag_open e) ?_
  rw [Reading.tag, if_neg (tag_ne_br e), if_pos (Or.inr himg)]

/-- So is a tag that a slash ends. -/
theorem reads_closedTag (r : Reading) :
    Reads d indent (closedTag d e) [some e.className] r
      ({ r with padding := 0 }.put (.cons ⟨e.tag, e.attributes d, [[]]⟩ .nil .nil)) := by
  have hsplit : closedTag d e = '<' :: (startBody d e ++ [' ', '/']) ++ ['>'] := by
    rw [closedTag, openTag_eq d hclass]
    simp
  have hend : ∀ c ∈ [' ', '/'], c ≠ '>' := by simp
  rw [hsplit, ← startClass?_start (readTag_closed e)]
  refine reads_tag (fun c hc => ?_) (readTag_closed e) ?_
  · rcases List.mem_append.mp hc with hc | hc
    · exact mem_startBody hc
    · exact hend c hc
  · rw [Reading.tag, if_neg (tag_ne_br e), if_pos (Or.inl rfl)]

end Element

/-- An end tag closes the innermost element, which it names. -/
theorem reads_endTag (e : PageElement) {as : List Attribute} {text lines : List (List Char)}
    {inside : Forest Entry} {pad : Nat} (hlines : text.reverse.mapM (unescape? d none) = some lines) :
    Reads d indent (endTag e) [] ⟨⟨e.tag, as, text, inside⟩ :: outer, page, pad⟩
      (Reading.put ⟨outer, page, 0⟩ (.cons ⟨e.tag, as, lines⟩ inside .nil)) := by
  have hsplit : endTag e = '<' :: ('/' :: e.tag.toList) ++ ['>'] := rfl
  have hclasses : [Mark.tag ('/' :: e.tag.toList)].filterMap (startClass? d) = [] := by
    simp [startClass?, readTag_endTag]
  rw [hsplit, ← hclasses]
  refine reads_tag (fun c hc => ?_) (readTag_endTag d e.tag) ?_
  · rcases List.mem_cons.mp hc with rfl | hc
    · decide
    · exact (ne_of_mem_plainName (isPlainName_tag e) hc).2.2.2
  · simp [Reading.tag, hlines]

/-! ## Text -/

theorem reads_lineBreak {tag : String} {as : List Attribute} {text : List (List Char)} :
    Reads d indent (lineBreak d) [] ⟨⟨tag, as, text, .nil⟩ :: outer, page, 0⟩
      ⟨⟨tag, as, [] :: text, .nil⟩ :: outer, page, 0⟩ := by
  -- Both dialects name the same tag; only the way it closes differs.
  have hbreak : ∀ (body : List Char) (closed : Bool), (∀ c ∈ body, c ≠ '>') →
      readTag d body = some (.start "br" [] closed) →
      Reads d indent ('<' :: body ++ ['>']) [] ⟨⟨tag, as, text, .nil⟩ :: outer, page, 0⟩
        ⟨⟨tag, as, [] :: text, .nil⟩ :: outer, page, 0⟩ := by
    intro body closed hbody hbr
    have hclasses : [Mark.tag body].filterMap (startClass? d) = [] := by
      simp [startClass?, hbr]
    rw [← hclasses]
    exact reads_tag hbody hbr rfl
  have hname : isPlainName "br".toList = true := by decide
  cases d with
  | html =>
    have htag : readTag .html ['b', 'r'] = some (.start "br" [] false) := by
      refine (readTag_name hname (by simp)).trans ?_
      rw [readAttributes, Option.map_some]
    exact hbreak ['b', 'r'] false (by simp) htag
  | jsx =>
    have htag : readTag .jsx ['b', 'r', ' ', '/'] = some (.start "br" [] true) := by
      refine (readTag_name hname (by simp)).trans ?_
      rw [readAttributes, if_pos rfl, Option.map_some]
    exact hbreak ['b', 'r', ' ', '/'] true (by simp) htag

theorem content_cons_cons (l l' : List Char) (ls : List (List Char)) :
    content d (l :: l' :: ls) = escapeText d l ++ lineBreak d ++ content d (l' :: ls) := by
  simp [content, List.intercalate]

/-- Lines of text are read as they were written, the latest first. -/
theorem reads_content {tag : String} {as : List Attribute} {l : List Char} {ls : List (List Char)}
    (h : ∀ x ∈ l :: ls, '\n' ∉ x) (done : List (List Char)) :
    Reads d indent (content d (l :: ls)) [] ⟨⟨tag, as, [] :: done, .nil⟩ :: outer, page, 0⟩
      ⟨⟨tag, as, ((l :: ls).map (escapeText d)).reverse ++ done, .nil⟩ :: outer, page, 0⟩ := by
  have hplain : ∀ x ∈ l :: ls, ∀ c ∈ escapeText d x, c ≠ '<' ∧ c ≠ '\n' := by
    intro x hx c hc
    obtain ⟨hlt, -, hmem | hne⟩ := mem_escapeText hc
    · exact ⟨hlt, fun heq => h x hx (heq ▸ hmem)⟩
    · exact ⟨hlt, hne⟩
  have hfirst : ∀ {l : List Char} (done : List (List Char)),
      (∀ c ∈ escapeText d l, c ≠ '<' ∧ c ≠ '\n') →
      Reads d indent (escapeText d l) [] ⟨⟨tag, as, [] :: done, .nil⟩ :: outer, page, 0⟩
        ⟨⟨tag, as, escapeText d l :: done, .nil⟩ :: outer, page, 0⟩ :=
    fun done hl => reads_text hl
  -- line breaks move `done` forward, so the induction is on the lines that are left
  induction ls generalizing l done with
  | nil =>
    have htext := hfirst done (hplain l (List.mem_cons_self ..))
    simpa [content, List.intercalate] using htext
  | cons l' ls ih =>
    have htext := hfirst done (hplain l (List.mem_cons_self ..))
    have hrest := ih (fun x hx => h x (List.mem_cons_of_mem _ hx)) (escapeText d l :: done)
      (fun x hx => hplain x (List.mem_cons_of_mem _ hx))
    have hall := (htext.append reads_lineBreak).append hrest
    rw [content_cons_cons]
    simpa using hall

/-! ## Lines of an element -/

/-- The text of an element has at least one line, and no line has a line feed. -/
theorem contentLines?_eq_some {e : PageElement} {lines : List (List Char)}
    (h : e.contentLines? = some lines) :
    e.tag ≠ "img" ∧ ∃ l ls, lines = l :: ls ∧ ∀ x ∈ l :: ls, '\n' ∉ x := by
  obtain ⟨s, hs, rfl⟩ := Option.map_eq_some_iff.mp h
  refine ⟨?_, ?_⟩
  · -- only texts and buttons have a text, and neither is written as a picture
    unfold Element.content? at hs
    unfold PageElement.tag
    split at hs
    · rename_i b hb
      rw [hb]
      simp only
      split <;> simp
    · rename_i b hb
      rw [hb]
      simp only
      split <;> simp
    · exact nomatch hs
  · obtain ⟨p, ps, hps⟩ := List.exists_cons_of_ne_nil (Text.pieces_ne_nil '\n' s.toList)
    refine ⟨_, _, by rw [hps, List.map_cons], ?_⟩
    intro x hx
    rw [← List.map_cons, ← hps] at hx
    obtain ⟨y, hy, rfl⟩ := List.mem_map.mp hx
    intro hmem
    rw [Text.dropEndWhile, List.mem_reverse] at hmem
    exact Text.mem_pieces hy (List.mem_reverse.mp ((List.dropWhile_sublist _).mem hmem))

theorem mapM_unescape?_map (lines : List (List Char)) :
    (lines.map (escapeText d)).mapM (unescape? d none) = some lines := by
  induction lines with
  | nil => rfl
  | cons l ls ih =>
    rw [List.map_cons, List.mapM_cons, unescape?_escapeText, ih]
    rfl

/-- An element without children is read whole. -/
theorem reads_leaf {e : PageElement} (hclass : ClassName.isClassName e.className) :
    Reads d indent (leaf d e) [some e.className] ⟨outer, page, 0⟩
      (Reading.put ⟨outer, page, 0⟩ (.cons (e.entry d) .nil .nil)) := by
  unfold leaf
  split
  · rename_i d _ _ lines hlines
    obtain ⟨himg, l, ls, rfl, hplain⟩ := contentLines?_eq_some hlines
    have hentry : e.entry d = ⟨e.tag, e.attributes d, l :: ls⟩ := by
      rw [e.entry_eq, hlines, Option.getD_some]
    have hend := mapM_unescape?_map (d := d) (l :: ls)
    rw [hentry]
    -- start tag, lines and end tag
    exact ((reads_startTag hclass himg ⟨outer, page, 0⟩).append
      (reads_content hplain [])).append (reads_endTag e (by simpa using hend))
  · rename_i hnone
    have hentry : e.entry .jsx = ⟨e.tag, e.attributes .jsx, [[]]⟩ := by
      rw [e.entry_eq, hnone, Option.getD_none]
    rw [hentry]
    exact reads_closedTag hclass ⟨outer, page, 0⟩
  · rename_i hnone
    have hentry : e.entry .html = ⟨e.tag, e.attributes .html, [[]]⟩ := by
      rw [e.entry_eq, hnone, Option.getD_none]
    rw [hentry]
    split
    · rename_i himg
      exact reads_imgTag hclass himg ⟨outer, page, 0⟩
    · rename_i himg
      exact (reads_startTag hclass himg ⟨outer, page, 0⟩).append (reads_endTag e rfl)

/-- A line begins with its indentation, of which more may be left, and ends with a new line. -/
theorem reads_line (depth : Nat) {pad : Nat} {cs : List Char} {classes : List (Option String)}
    {r : Reading} (h : Reads d indent cs classes ⟨outer, page, pad⟩ r) :
    Reads d indent (line indent depth cs) classes ⟨outer, page, depth * indent + pad⟩
      { r with padding := r.outer.length * indent } := by
  have hline := ((reads_padding (depth * indent) pad).append h).append (reads_newline r)
  rw [List.nil_append, List.append_nil] at hline
  exact hline

/-- The opening of an element leaves it open, with its text. -/
theorem reads_opening (outer : List Opened) (page : Forest Entry) (s : Settings) {e : PageElement}
    (hclass : ClassName.isClassName e.className) (himg : e.tag ≠ "img") :
    ∃ text, text.reverse.mapM (unescape? s.dialect none) = some (e.contentLines?.getD [[]]) ∧
      Reads s.dialect s.indent (opening s outer.length e) [some e.className]
        ⟨outer, page, outer.length * s.indent⟩
        ⟨⟨e.tag, e.attributes s.dialect, text, .nil⟩ :: outer, page,
          (outer.length + 1) * s.indent⟩ := by
  -- The start tag leaves one empty line open; the content, where there is some, fills it.
  have hstart : Reads s.dialect s.indent (line s.indent outer.length (startTag s.dialect e))
      [some e.className] ⟨outer, page, outer.length * s.indent⟩
      ⟨⟨e.tag, e.attributes s.dialect, [[]], .nil⟩ :: outer, page,
        (outer.length + 1) * s.indent⟩ :=
    reads_line outer.length (reads_startTag hclass himg ⟨outer, page, 0⟩)
  unfold opening
  split
  · rename_i lines hlines
    obtain ⟨-, l, ls, rfl, hplain⟩ := contentLines?_eq_some hlines
    refine ⟨((l :: ls).map (escapeText s.dialect)).reverse ++ [], ?_, ?_⟩
    · have hend := mapM_unescape?_map (d := s.dialect) (l :: ls)
      rw [hlines]
      simpa using hend
    · exact hstart.append (reads_line (outer.length + 1) (reads_content hplain []))
  · rename_i hnone
    rw [hnone]
    refine ⟨[[]], rfl, ?_⟩
    rw [List.append_nil]
    exact hstart

end Pieces

/-! ## Forests -/

/-- Only elements that say so have others inside them. -/
def Nests : Forest PageElement → Prop
  | .nil => True
  | .cons e below rest => (below ≠ .nil → e.hasChildren = true) ∧ Nests below ∧ Nests rest

/-- Pictures have nothing inside them. -/
theorem tag_ne_img {e : PageElement} (h : e.hasChildren = true) : e.tag ≠ "img" := by
  unfold PageElement.tag
  split
  · simp
  · simp [h]
  · simp [h]
  · split <;> simp

namespace Reading

variable (r : Reading) (f g : Forest Entry)

theorem put_nil : r.put .nil = r := by
  obtain ⟨_ | ⟨o, outer⟩, page, pad⟩ := r <;> simp [put]

theorem put_put : (r.put f).put g = r.put (f.append g) := by
  obtain ⟨_ | ⟨o, outer⟩, page, pad⟩ := r <;> simp [put, Forest.append_assoc]

theorem length_put : (r.put f).outer.length = r.outer.length := by
  obtain ⟨_ | ⟨o, outer⟩, page, pad⟩ := r <;> simp [put]

theorem padding_put : (r.put f).padding = r.padding := by
  obtain ⟨_ | ⟨o, outer⟩, page, pad⟩ := r <;> simp [put]

/-- What is put leaves the reader as deep as it was. -/
theorem put_line (indent : Nat) :
    { { r with padding := 0 }.put f with
      padding := ({ r with padding := 0 }.put f).outer.length * indent } =
    { r with padding := r.outer.length * indent }.put f := by
  obtain ⟨_ | ⟨o, outer⟩, page, pad⟩ := r <;> simp [put]

end Reading

/-- An element and what is read inside it, one level deeper. The end tag puts it where it stood when it
was opened. -/
theorem reads_element {s : Settings} {e : PageElement} {outer : List Opened} {page : Forest Entry}
    (hclass : ClassName.isClassName e.className) (himg : e.tag ≠ "img") {lines : List Char}
    {classes : List (Option String)} {inside : Forest Entry}
    (hinside : ∀ text, Reads s.dialect s.indent lines classes
      ⟨⟨e.tag, e.attributes s.dialect, text, .nil⟩ :: outer, page, (outer.length + 1) * s.indent⟩
      ⟨⟨e.tag, e.attributes s.dialect, text, inside⟩ :: outer, page,
        (outer.length + 1) * s.indent⟩) :
    Reads s.dialect s.indent
      (opening s outer.length e ++ lines ++ line s.indent outer.length (endTag e))
      (some e.className :: classes) ⟨outer, page, outer.length * s.indent⟩
      (Reading.put ⟨outer, page, outer.length * s.indent⟩
        (.cons (e.entry s.dialect) inside .nil)) := by
  -- The start tag opens the element, what is inside is put in it, and the end tag puts it where it
  -- was opened.
  obtain ⟨text, hlines, hopening⟩ := reads_opening outer page s hclass himg
  have hclosing : Reads s.dialect s.indent (line s.indent outer.length (endTag e)) []
      ⟨⟨e.tag, e.attributes s.dialect, text, inside⟩ :: outer, page,
        outer.length * s.indent + s.indent⟩ _ :=
    reads_line outer.length (reads_endTag e hlines)
  rw [Reading.put_line ⟨outer, page, 0⟩, ← Nat.succ_mul] at hclosing
  have hall := (hopening.append (hinside text)).append hclosing
  rw [List.append_nil] at hall
  rw [e.entry_eq]
  exact hall

/--
**Reading a rendering.** A reader that is as deep as the writer, at the start of a line, puts the
forest of entries behind what it has, and is at the start of a line again.
-/
theorem reads_rendering {s : Settings} {f : Forest PageElement} (hnests : Nests f)
    (hclass : ∀ e ∈ f.labels, ClassName.isClassName e.className) {depth : Nat} {r : Reading}
    (hdepth : r.outer.length = depth) (hpad : r.padding = depth * s.indent) :
    Reads s.dialect s.indent (rendering s depth f) (f.labels.map (some ·.className)) r
      (r.put (f.map (·.entry s.dialect))) := by
  fun_induction rendering s depth f generalizing r with
  | case1 depth =>
    rw [Forest.map, Reading.put_nil]
    exact Reads.nil
  | case2 depth e rest ih =>
    obtain ⟨-, -, hrest⟩ := hnests
    obtain ⟨outer, page, pad⟩ := r
    simp only at hdepth hpad
    subst hdepth hpad
    -- the line of `e` first, then the trees behind it from where that line ends
    have hleaf : Reads s.dialect s.indent (line s.indent outer.length (leaf s.dialect e))
        [some e.className] ⟨outer, page, outer.length * s.indent⟩ _ :=
      reads_line outer.length (reads_leaf (hclass e (by simp [Forest.labels])))
    rw [Reading.put_line ⟨outer, page, 0⟩] at hleaf
    have hothers := ih (r := Reading.put ⟨outer, page, outer.length * s.indent⟩
      (.cons (e.entry s.dialect) .nil .nil)) hrest
      (fun x hx => hclass x (by simp [Forest.labels, hx])) (Reading.length_put _ _)
      (Reading.padding_put _ _)
    have hall := hleaf.append hothers
    rw [Reading.put_put] at hall
    exact hall
  | case3 depth e a below others rest ihb ihr =>
    obtain ⟨hchildren, hbelow, hrest⟩ := hnests
    obtain ⟨outer, page, pad⟩ := r
    simp only at hdepth hpad
    subst hdepth hpad
    have hclassBelow : ∀ x ∈ (Forest.cons a below others).labels,
        ClassName.isClassName x.className := by
      intro x hx
      refine hclass x ?_
      rw [Forest.labels, List.mem_cons, List.mem_append]
      exact Or.inr (Or.inl hx)
    -- the elements below are read inside `e`, the trees behind it from where its last line ends
    have hinside := fun text => ihb (r := ⟨⟨e.tag, e.attributes s.dialect, text, .nil⟩ :: outer, page,
      (outer.length + 1) * s.indent⟩) hbelow hclassBelow rfl rfl
    have helement := reads_element (hclass e (by simp [Forest.labels]))
      (tag_ne_img (hchildren (by simp))) hinside
    have hothers := ihr (r := Reading.put ⟨outer, page, outer.length * s.indent⟩
      (.cons (e.entry s.dialect) ((Forest.cons a below others).map (·.entry s.dialect)) .nil)) hrest
      (fun x hx => hclass x (by simp [Forest.labels, hx])) (Reading.length_put _ _)
      (Reading.padding_put _ _)
    have hall := helement.append hothers
    rw [Reading.put_put] at hall
    rw [Forest.labels, List.map_cons, List.map_append]
    exact hall

/-! ## Pages -/

/-- In a forest that is a tree, the elements with others inside them say so. -/
theorem nests_of_fits {t : PageTree} {f : Forest (Nat × PageElement)}
    (hfits : (f.map Prod.fst).Fits t.children)
    (hall : ∀ p ∈ f.labels, ∃ n, t.nodes[p.1]? = some n ∧ p.2.Describes t.root p.1 n) :
    Nests (f.map Prod.snd) := by
  induction f with
  | nil => trivial
  | cons p below rest ihb ihr =>
    obtain ⟨htops, hbelow, hrest⟩ := hfits
    obtain ⟨n, hn, hdescribes⟩ := hall p (List.mem_cons_self ..)
    refine ⟨fun hne => ?_, ihb hbelow fun q hq => ?_, ihr hrest fun q hq => ?_⟩
    · -- the children of the slot are the tops below it
      have hchildren : n.children = (below.map Prod.fst).tops := by
        rw [htops]
        simp only [PageTree.children, hn]
      rw [hdescribes.hasChildren, hchildren]
      cases below with
      | nil => exact absurd rfl hne
      | cons q below' others => rfl
    · exact hall q (List.mem_cons_of_mem _ (List.mem_append_left _ hq))
    · exact hall q (List.mem_cons_of_mem _ (List.mem_append_right _ hq))

/-- What is read from the beginning to the end is the page. -/
theorem Reads.read_eq {d : Dialect} {indent : Nat} {cs : List Char} {classes : List (Option String)}
    {g : Forest Entry} (h : Reads d indent cs classes ⟨[], .nil, 0⟩ ⟨[], g, 0⟩) :
    read d indent cs = some g ∧ startClasses d cs = some classes := by
  obtain ⟨ms, hcut, hclasses, hread⟩ := h
  constructor
  · simp [read, hcut.cut_eq, hread]
  · simp [startClasses, hcut.cut_eq, hclasses]

/-- The markup of a forest that is a tree is read as the forest of its entries. -/
theorem read_rendering {t : PageTree} {f : Forest (Nat × PageElement)} (h : t.Lists f)
    (s : Settings) :
    read s.dialect s.indent (rendering s 0 (f.map Prod.snd)) =
        some (f.map fun p => p.2.entry s.dialect) ∧
      startClasses s.dialect (rendering s 0 (f.map Prod.snd)) =
        some (f.labels.map fun p => some p.2.className) := by
  have hclass : ∀ e ∈ (f.map Prod.snd).labels, ClassName.isClassName e.className := by
    intro e he
    rw [Forest.labels_map, List.mem_map] at he
    obtain ⟨p, hp, rfl⟩ := he
    obtain ⟨n, -, hdescribes⟩ := h.describes p hp
    exact hdescribes.className
  have hread : Reads s.dialect s.indent (rendering s 0 (f.map Prod.snd)) _ ⟨[], .nil, 0⟩ _ :=
    reads_rendering (nests_of_fits h.unfolds.fits h.describes) hclass rfl (by rw [Nat.zero_mul])
  rw [Forest.map_map, Forest.labels_map, List.map_map] at hread
  exact hread.read_eq

end DesignCompiler.Markup

namespace DesignCompiler

/--
**Markup reads back.** The markup that is emitted for components is read as a forest that is their
tree: every component is one element, elements stand in each other as the components do, in paint
order, and each has the tag, the attributes and the lines of text that its component asks for.
-/
theorem emit_reads_back {cs : List Component} {t : PageTree} {s : Settings} {code : Code}
    (hb : PageTree.build cs = .ok t) (he : t.emit s = .ok code) :
    ∃ f : Forest (Nat × PageElement), t.Lists f ∧
      (f.labels.map (·.2.id)).Perm (cs.map Component.id) ∧
      code.classes = f.labels.map (fun p => (p.2.id, p.2.className)) ∧
      Markup.read s.dialect s.indent code.markup.toList =
        some (f.map fun p => p.2.entry s.dialect) := by
  obtain ⟨f, es, hlists, hes, rfl⟩ := exists_lists hb he
  refine ⟨f, hlists, hlists.ids_perm hb, rfl, ?_⟩
  simp only [markup_eq_rendering hlists hes, String.toList_ofList]
  exact (Markup.read_rendering hlists s).1

/-- A box. -/
def markedBox : Component :=
  { id := ⟨1⟩, kind := "box", name := "Hero" }

/-- A link in the box, with a label and a target full of signs. -/
def markedLink : Component :=
  { id := ⟨2⟩, parentId := some ⟨1⟩, kind := "link", name := "Go <b>",
    appearance := [("label", .string " \x7ba\x7d\r\n<br>&amp;"),
      ("href", .string "/x?a=\"1\"&b=>2")] }

/-- A picture in the link. -/
def markedPicture : Component :=
  { id := ⟨3⟩, parentId := some ⟨2⟩, kind := "img", appearance := [("src", .string "a.png")] }

/-- A picture in the box that has a text in it. -/
def markedBackdrop : Component :=
  { id := ⟨4⟩, parentId := some ⟨1⟩, kind := "img", name := "Sky",
    appearance := [("src", .string "b.png"), ("alt", .string "\"><i>\x7b")] }

def markedText : Component :=
  { id := ⟨5⟩, parentId := some ⟨4⟩, kind := "text", name := "Words",
    appearance := [("text", .string "one\r\r\n\ntwo </p>\r")] }

/-- A button in the box that cannot be pressed. -/
def markedButton : Component :=
  { id := ⟨6⟩, parentId := some ⟨1⟩, kind := "button", name := "Off",
    appearance := [("label", .string "<!--"), ("disabled", .bool true)] }

def markedPage : List Component :=
  [markedButton, markedText, markedLink, markedBackdrop, markedPicture, markedBox]

def markedTree : PageTree where
  nodes :=
    [{ component := markedBox, parent := none, children := [1, 3, 5], depth := 0 },
      { component := markedLink, parent := some 0, children := [2], depth := 1 },
      { component := markedPicture, parent := some 1, children := [], depth := 2 },
      { component := markedBackdrop, parent := some 0, children := [4], depth := 1 },
      { component := markedText, parent := some 3, children := [], depth := 2 },
      { component := markedButton, parent := some 0, children := [], depth := 1 }]
  root := 0
  pageId := none

/-- The elements that the page should be read as in JSX, with classes that begin with `x`. -/
def markedEntries : Forest Markup.Entry :=
  .cons ⟨"div", [("className", some "x-hero")], [[]]⟩
    (.cons ⟨"a", [("className", some "x-go-b"), ("href", some "/x?a=\"1\"&b=>2")],
        [" \x7ba\x7d".toList, "<br>&amp;".toList]⟩
      (.cons ⟨"img", [("className", some "x-image"), ("src", some "a.png"), ("alt", some "")], [[]]⟩
        .nil .nil)
    (.cons ⟨"div",
        [("className", some "x-sky"), ("role", some "img"), ("aria-label", some "\"><i>\x7b")], [[]]⟩
      (.cons ⟨"p", [("className", some "x-words")], ["one".toList, [], "two </p>".toList]⟩ .nil .nil)
    (.cons ⟨"button", [("className", some "x-off"), ("type", some "button"), ("disabled", none)],
        ["<!--".toList]⟩
      .nil .nil)))
  .nil

theorem build_markedPage : PageTree.build markedPage = .ok markedTree := by
  cbv

/-- The markup of the page, read on its own. -/
theorem read_markedTree {code : Code}
    (h : markedTree.emit { dialect := .jsx, indent := 1, classPrefix := some "x" } = .ok code) :
    Markup.read .jsx 1 code.markup.toList = some markedEntries := by
  let s : Settings := { dialect := .jsx, indent := 1, classPrefix := some "x" }
  obtain ⟨es, hes, hcode⟩ := bind_eq_ok_iff.mp h
  obtain rfl := Except.ok.inj hcode
  -- the lines as the loop writes them, before they are one string
  have hread : (markedTree.pageElements s.classPrefix).map (fun es =>
      Markup.read .jsx 1 (Markup.run s markedTree es (2 * markedTree.size) [.enter 0])) =
        .ok (some markedEntries) := by
    decide +kernel
  obtain ⟨es', hes', hread⟩ := map_eq_ok_iff.mp hread
  obtain rfl := Except.ok.inj (hes.symm.trans hes')
  rw [PageTree.markup, String.toList_ofList]
  exact hread

theorem exists_emit_markedTree (s : Settings) : ∃ code, markedTree.emit s = .ok code :=
  PageTree.exists_emit_of_all (by decide +kernel) s

theorem markedPage_reads_back :
    ∃ t s code, PageTree.build markedPage = .ok t ∧ t.emit s = .ok code ∧
      ∃ f : Forest (Nat × PageElement), t.Lists f ∧
        (f.labels.map (·.2.id)).Perm (markedPage.map Component.id) ∧
        code.classes = f.labels.map (fun p => (p.2.id, p.2.className)) ∧
        Markup.read s.dialect s.indent code.markup.toList =
          some (f.map fun p => p.2.entry s.dialect) ∧
        (f.map fun p => p.2.entry s.dialect) = markedEntries := by
  let s : Settings := { dialect := .jsx, indent := 1, classPrefix := some "x" }
  obtain ⟨code, hcode⟩ := exists_emit_markedTree s
  obtain ⟨f, hlists, hids, hclasses, hread⟩ := emit_reads_back build_markedPage hcode
  exact ⟨markedTree, s, code, build_markedPage, hcode, f, hlists, hids, hclasses, hread,
    Option.some.inj (hread.symm.trans (read_markedTree hcode))⟩

end DesignCompiler
