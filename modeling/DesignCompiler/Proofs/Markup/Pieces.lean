import DesignCompiler.Markup.Tag
import DesignCompiler.Proofs.ClassName.Allocation
import DesignCompiler.Proofs.Markup.Reader
import DesignCompiler.Proofs.Text.Pieces
import DesignCompiler.Proofs.Text.Spans

/-!
# DesignCompiler — the pieces of markup, read

What the reader makes of the pieces that the writer puts together. Escaping leaves none of the
characters by which the reader finds its way, and nothing that is escaped is lost.

* `Cuts` — a text is cut into marks, whatever follows it;
* `unescape?_escapeText`, `unescape?_escapeValue` — entities are decoded to what they came from;
* `readAttributes_attributes` — attributes are read as they were written;
* `readTag_startBody`, `readTag_endTag` — so are tags;
* `PageElement.entry_eq` — what is written for an element is what it should be read as.
-/

namespace DesignCompiler

open Markup

theorem Dialect.classAttribute_eq (d : Dialect) : d.classAttribute = classKey d := by
  cases d <;> rfl

namespace PageElement

variable (e : PageElement)

/-- All attributes that are written for an element, the class first. -/
def attributes (d : Dialect) : List Attribute :=
  (d.classAttribute, some e.className) :: e.ownAttributes

/-- The lines that are written for a text are its lines. -/
theorem contentLines?_eq : e.contentLines? = e.element.content?.map textLines := by
  simp only [contentLines?, Text.pieces_eq_splitOn]
  rfl

/-- The tag, the attributes and the lines that are written for an element are those that it should be
read with. -/
theorem entry_eq (d : Dialect) :
    e.entry d = ⟨e.tag, e.attributes d, e.contentLines?.getD [[]]⟩ := by
  rw [attributes, d.classAttribute_eq, contentLines?_eq]
  cases hel : e.element with
  | container style => simp [entry, tag, ownAttributes, Element.content?, hel]
  | text b => cases hc : e.hasChildren <;> simp [entry, tag, ownAttributes, Element.content?, hel, hc]
  | image p =>
    cases hc : e.hasChildren <;> cases halt : p.alt <;>
      simp [entry, tag, ownAttributes, Element.content?, hel, hc, halt]
  | button b =>
    cases hhref : b.href <;> cases hdisabled : b.disabled <;>
      simp [entry, tag, ownAttributes, Element.content?, hel, hhref, hdisabled]

@[simp] theorem tag_entry (d : Dialect) : (e.entry d).tag = e.tag := by
  rw [entry_eq]

end PageElement

end DesignCompiler

namespace DesignCompiler.Markup

/-! ## Cutting -/

/-- A text that is cut into marks whatever follows it. -/
def Cuts (cs : List Char) (ms : List Mark) : Prop :=
  ∀ rest, cut none (cs ++ rest) = (cut none rest).map (ms ++ ·)

theorem Cuts.nil : Cuts [] [] := by
  intro rest
  simp

theorem Cuts.append {cs ds : List Char} {ms ns : List Mark} (hc : Cuts cs ms) (hd : Cuts ds ns) :
    Cuts (cs ++ ds) (ms ++ ns) := by
  intro rest
  rw [List.append_assoc, hc, hd, Option.map_map]
  simp [Function.comp_def]

/-- Characters other than `<` are marks of their own. -/
theorem cuts_chars {cs : List Char} (h : ∀ c ∈ cs, c ≠ '<') : Cuts cs (cs.map .char) := by
  induction cs with
  | nil => exact Cuts.nil
  | cons c cs ih =>
    intro rest
    rw [List.cons_append, cut, if_neg (h c (List.mem_cons_self ..)),
      ih (fun d hd => h d (List.mem_cons_of_mem _ hd)), Option.map_map]
    rfl

theorem cut_body {body : List Char} (h : ∀ c ∈ body, c ≠ '>') (acc rest : List Char) :
    cut (some acc) (body ++ '>' :: rest) = (cut none rest).map (.tag (acc ++ body) :: ·) := by
  induction body generalizing acc with
  | nil => simp [cut]
  | cons c cs ih =>
    rw [List.cons_append, cut, if_neg (h c (List.mem_cons_self ..)),
      ih (fun d hd => h d (List.mem_cons_of_mem _ hd))]
    simp

/-- A tag without `>` in it is one mark. -/
theorem cuts_tag {body : List Char} (h : ∀ c ∈ body, c ≠ '>') :
    Cuts ('<' :: body ++ ['>']) [.tag body] := by
  intro rest
  have hcut := cut_body h [] rest
  rw [List.nil_append] at hcut
  simpa [cut] using hcut

theorem Cuts.cut_eq {cs : List Char} {ms : List Mark} (h : Cuts cs ms) :
    cut none cs = some ms := by
  have hall := h []
  rw [List.append_nil] at hall
  simpa [cut] using hall

/-! ## Entities -/

theorem unescape?_escapeTextChar (d : Dialect) (c : Char) (rest : List Char) :
    unescape? d none (escapeTextChar d c ++ rest) = (unescape? d none rest).map (c :: ·) := by
  unfold escapeTextChar
  split
  case h_6 hamp hlt hgt hopen hclose =>
    -- braces are escaped in JSX only, and reserved there only
    have hreserved : isReserved d c = false := by
      cases d <;> simp_all [isReserved]
    rw [List.singleton_append, unescape?, if_neg hamp, hreserved]
    rfl
  -- the other five are entities
  all_goals simp [unescape?, entity?]

theorem unescape?_escapeValueChar (d : Dialect) (c : Char) (rest : List Char) :
    unescape? d none (escapeValueChar d c ++ rest) = (unescape? d none rest).map (c :: ·) := by
  unfold escapeValueChar
  split
  · rename_i hc
    simp [unescape?, entity?, hc]
  · exact unescape?_escapeTextChar d c rest

/-- What every character is decoded from, a text is decoded from. -/
theorem unescape?_flatMap {d : Dialect} {f : Char → List Char}
    (hf : ∀ c rest, unescape? d none (f c ++ rest) = (unescape? d none rest).map (c :: ·))
    (cs : List Char) : unescape? d none (cs.flatMap f) = some cs := by
  induction cs with
  | nil => rfl
  | cons c cs ih => rw [List.flatMap_cons, hf, ih, Option.map_some]

theorem unescape?_escapeText (d : Dialect) (cs : List Char) :
    unescape? d none (escapeText d cs) = some cs :=
  unescape?_flatMap (unescape?_escapeTextChar d) cs

theorem unescape?_escapeValue (d : Dialect) (cs : List Char) :
    unescape? d none (escapeValue d cs) = some cs :=
  unescape?_flatMap (unescape?_escapeValueChar d) cs

/-- The characters of an entity stand for themselves. -/
private theorem mem_entity {name : List Char} (h : (name.all fun x => x != '<' && x != '>' &&
    x != '\n' && x != '"') = true) {x : Char} (hx : x ∈ name) :
    x ≠ '<' ∧ x ≠ '>' ∧ x ≠ '\n' ∧ x ≠ '"' := by
  simpa [and_assoc] using List.all_eq_true.mp h x hx

theorem mem_escapeTextChar {d : Dialect} {c x : Char} (h : x ∈ escapeTextChar d c) :
    x ≠ '<' ∧ x ≠ '>' ∧ (x = c ∨ x ≠ '\n' ∧ x ≠ '"') := by
  unfold escapeTextChar at h
  split at h
  case h_6 hamp hlt hgt hopen hclose =>
    rw [List.mem_singleton] at h
    exact ⟨h ▸ hlt, h ▸ hgt, Or.inl h⟩
  -- the other five are entities
  all_goals
    obtain ⟨hlt, hgt, hplain⟩ := mem_entity (by decide) h
    exact ⟨hlt, hgt, Or.inr hplain⟩

theorem mem_escapeText {d : Dialect} {cs : List Char} {x : Char} (h : x ∈ escapeText d cs) :
    x ≠ '<' ∧ x ≠ '>' ∧ (x ∈ cs ∨ x ≠ '\n') := by
  obtain ⟨c, hc, hx⟩ := List.mem_flatMap.mp h
  obtain ⟨hlt, hgt, heq | hne⟩ := mem_escapeTextChar hx
  · exact ⟨hlt, hgt, Or.inl (heq ▸ hc)⟩
  · exact ⟨hlt, hgt, Or.inr hne.1⟩

theorem mem_escapeValue {d : Dialect} {cs : List Char} {x : Char} (h : x ∈ escapeValue d cs) :
    x ≠ '>' ∧ x ≠ '"' := by
  obtain ⟨c, -, hx⟩ := List.mem_flatMap.mp h
  unfold escapeValueChar at hx
  split at hx
  · obtain ⟨-, hgt, -, hquote⟩ := mem_entity (by decide) hx
    exact ⟨hgt, hquote⟩
  · rename_i hc
    obtain ⟨-, hgt, heq | hne⟩ := mem_escapeTextChar hx
    · exact ⟨hgt, heq ▸ hc⟩
    · exact ⟨hgt, hne.2⟩

/-- A class name has nothing to escape. -/
theorem escapeValue_className (d : Dialect) {s : String} (h : ClassName.isClassName s) :
    escapeValue d s.toList = s.toList := by
  have hchar : ∀ c ∈ s.toList, escapeValueChar d c = [c] := by
    intro c hc
    have hprefix := h c hc
    unfold escapeValueChar escapeTextChar
    split
    · rename_i hq
      rw [hq] at hprefix
      exact absurd hprefix (by decide)
    · -- every character with an entity is refused by `isPrefixChar`
      split
      case h_6 => rfl
      all_goals exact absurd hprefix (by decide)
  rw [escapeValue, List.flatMap_congr hchar, List.flatMap_singleton']

/-! ## Attributes -/

/-- A name in which nothing ends it and nothing is mistaken for a slash. -/
def isPlainName (name : List Char) : Bool :=
  !name.isEmpty && name.all fun c => c != ' ' && c != '=' && c != '/' && c != '>'

theorem ne_of_mem_plainName {name : List Char} (h : isPlainName name = true) {c : Char}
    (hc : c ∈ name) : c ≠ ' ' ∧ c ≠ '=' ∧ c ≠ '/' ∧ c ≠ '>' := by
  rw [isPlainName, Bool.and_eq_true, List.all_eq_true] at h
  simpa [and_assoc] using h.2 c hc

theorem ne_nil_of_plainName {name : List Char} (h : isPlainName name = true) : name ≠ [] := by
  rintro rfl
  exact nomatch h

/-- A plain name is no slash, whatever follows it. -/
theorem plainName_append_ne {name rest : List Char} (h : isPlainName name = true) :
    name ++ rest ≠ ['/'] := by
  cases name with
  | nil => exact nomatch h
  | cons c cs =>
    intro heq
    exact (ne_of_mem_plainName h (List.mem_cons_self ..)).2.2.1 (List.cons.inj heq).1

theorem isNameChar_of_mem {name : List Char} (h : isPlainName name = true) :
    ∀ c ∈ name, isNameChar c = true := by
  intro c hc
  obtain ⟨hblank, heq, -⟩ := ne_of_mem_plainName h hc
  simp [isNameChar, hblank, heq]

/-- A value is read up to its closing quote. -/
theorem quoted?_value {value : List Char} (h : ∀ c ∈ value, c ≠ '"') (rest : List Char) :
    quoted? ('=' :: '"' :: (value ++ '"' :: rest)) = some (value, rest) := by
  have hall : ∀ c ∈ value, (c != '"') = true := by simpa using h
  have hstop : ∀ c ∈ ('"' :: rest).head?, (c != '"') = false := by simp
  simp only [quoted?, dropWhile_append_stop hall hstop, takeWhile_append_stop hall hstop]

theorem readAttributes_value {d : Dialect} {name : String} (hn : isPlainName name.toList = true)
    {value : List Char} (hv : ∀ c ∈ value, c ≠ '"') (rest : List Char) :
    readAttributes d (' ' :: name.toList ++ ['=', '"'] ++ value ++ '"' :: rest) =
      (unescape? d none value).bind fun v =>
        (readAttributes d rest).map fun r => ((name, some (String.ofList v)) :: r.1, r.2) := by
  have hchars := isNameChar_of_mem hn
  -- The name ends at the `=`, the value at the quote.
  have hstop : ∀ c ∈ ('=' :: '"' :: (value ++ '"' :: rest)).head?, isNameChar c = false := by
    simp [isNameChar]
  have hdrop := dropWhile_append_stop hchars hstop
  have htake := takeWhile_append_stop hchars hstop
  simp only [List.cons_append, List.append_assoc, List.nil_append]
  rw [readAttributes, if_neg (plainName_append_ne hn)]
  simp only [hdrop, htake, String.ofList_toList]
  split
  · rename_i v r hq
    rw [hdrop, quoted?_value hv, Option.some.injEq, Prod.mk.injEq] at hq
    obtain ⟨rfl, rfl⟩ := hq
    cases unescape? d none value with
    | none => rfl
    | some v => cases readAttributes d rest <;> rfl
  · rename_i hq
    rw [hdrop, quoted?_value hv] at hq
    exact absurd hq (Option.some_ne_none _)

/-- A switch ends where the next attribute, the slash, or the end of the tag stands. -/
theorem readAttributes_switch {d : Dialect} {name : String} (hn : isPlainName name.toList = true)
    {rest : List Char} (hrest : ∀ c ∈ rest.head?, c = ' ') :
    readAttributes d (' ' :: name.toList ++ rest) =
      (readAttributes d rest).map fun r => ((name, none) :: r.1, r.2) := by
  have hchars := isNameChar_of_mem hn
  -- The name ends at the blank, and no value follows one.
  have hstop : ∀ c ∈ rest.head?, isNameChar c = false := by
    intro c hc
    rw [hrest c hc]
    decide
  have hdrop := dropWhile_append_stop hchars hstop
  have htake := takeWhile_append_stop hchars hstop
  have hquoted : quoted? rest = none := by
    cases rest with
    | nil => rfl
    | cons c cs =>
      rw [hrest c rfl]
      simp [quoted?]
  rw [List.cons_append, readAttributes, if_neg (plainName_append_ne hn)]
  simp only [hdrop, htake, String.ofList_toList]
  split
  · rename_i v r hq
    rw [hdrop, hquoted] at hq
    exact absurd hq.symm (Option.some_ne_none _)
  · cases readAttributes d rest <;> rfl

/-- Attributes are read as they were written, up to what ends the tag. -/
theorem readAttributes_attributes {d : Dialect} {as : List Attribute}
    (has : ∀ a ∈ as, isPlainName a.1.toList = true) {tail : List Char}
    (htail : ∀ c ∈ tail.head?, c = ' ') {closed : Bool}
    (hread : readAttributes d tail = some ([], closed)) :
    readAttributes d (as.flatMap (attributeText d) ++ tail) = some (as, closed) := by
  induction as with
  | nil => exact hread
  | cons a as ih =>
    have hrest := ih fun b hb => has b (List.mem_cons_of_mem _ hb)
    have hn := has a (List.mem_cons_self ..)
    obtain ⟨name, value⟩ := a
    rw [List.flatMap_cons, List.append_assoc]
    cases value with
    | some value =>
      have hv : ∀ c ∈ escapeValue d value.toList, c ≠ '"' := fun c hc => (mem_escapeValue hc).2
      have hvalue := readAttributes_value (d := d) hn hv (as.flatMap (attributeText d) ++ tail)
      rw [unescape?_escapeValue, hrest] at hvalue
      simpa [attributeText] using hvalue
    | none =>
      -- a switch has no quote to end it, so what follows has to begin with a blank
      have hhead : ∀ c ∈ (as.flatMap (attributeText d) ++ tail).head?, c = ' ' := by
        cases as with
        | nil => exact htail
        | cons b bs =>
          obtain ⟨other, _ | v⟩ := b <;> simp [attributeText]
      have hswitch := readAttributes_switch (d := d) hn hhead
      rw [hrest] at hswitch
      simpa [attributeText] using hswitch

/-! ## Tags -/

/-- The name of an attribute is one of eight, the class aside. -/
theorem name_mem_ownAttributes (e : PageElement) :
    ∀ a ∈ e.ownAttributes, a.1 ∈
      ["role", "aria-label", "src", "alt", "href", "aria-disabled", "type", "disabled"] := by
  unfold PageElement.ownAttributes
  split
  · simp
  · simp
  · split
    · split <;> simp
    · simp
  · split
    · split <;> simp
    · split <;> simp

theorem isPlainName_attributes (d : Dialect) (e : PageElement) :
    ∀ a ∈ e.attributes d, isPlainName a.1.toList = true := by
  have hclass : isPlainName d.classAttribute.toList = true := by cases d <;> decide
  refine List.forall_mem_cons.mpr ⟨hclass, fun a ha => ?_⟩
  have hname := name_mem_ownAttributes e a ha
  revert hname
  generalize a.1 = name
  revert name
  decide

/-- The tag of an element is one of five. -/
theorem tag_mem (e : PageElement) : e.tag ∈ ["div", "p", "img", "a", "button"] := by
  unfold PageElement.tag
  split
  · simp
  · split <;> simp
  · split <;> simp
  · split <;> simp

theorem isPlainName_tag (e : PageElement) : isPlainName e.tag.toList = true := by
  have htag := tag_mem e
  revert htag
  generalize e.tag = tag
  revert tag
  decide

theorem tag_ne_br (e : PageElement) : e.tag ≠ "br" := by
  have htag := tag_mem e
  intro heq
  rw [heq] at htag
  revert htag
  decide

/-- The text of a start tag, without the brackets and without the slash that may end it. -/
def startBody (d : Dialect) (e : PageElement) : List Char :=
  e.tag.toList ++ (e.attributes d).flatMap (attributeText d)

theorem openTag_eq (d : Dialect) {e : PageElement} (h : ClassName.isClassName e.className) :
    openTag d e = '<' :: startBody d e := by
  have hclass : classText d e = attributeText d (d.classAttribute, some e.className) := by
    simp [classText, attributeText, escapeValue_className d h]
  rw [openTag, hclass, startBody, PageElement.attributes, List.flatMap_cons, List.cons_append,
    List.cons_append, List.append_assoc]

theorem mem_attributeText {d : Dialect} {a : Attribute} (hn : isPlainName a.1.toList = true)
    {c : Char} (h : c ∈ attributeText d a) : c ≠ '>' := by
  obtain ⟨name, _ | value⟩ := a
  · rcases List.mem_cons.mp h with rfl | h
    · decide
    · exact (ne_of_mem_plainName hn h).2.2.2
  · simp only [attributeText, List.cons_append, List.append_assoc, List.mem_cons, List.mem_append,
      List.nil_append, List.not_mem_nil, or_false] at h
    rcases h with rfl | h | rfl | rfl | h | rfl
    · decide
    · exact (ne_of_mem_plainName hn h).2.2.2
    · decide
    · decide
    · exact (mem_escapeValue h).1
    · decide

theorem mem_startBody {d : Dialect} {e : PageElement} {c : Char} (h : c ∈ startBody d e) :
    c ≠ '>' := by
  rcases List.mem_append.mp h with h | h
  · exact (ne_of_mem_plainName (isPlainName_tag e) h).2.2.2
  · obtain ⟨a, ha, hc⟩ := List.mem_flatMap.mp h
    exact mem_attributeText (isPlainName_attributes d e a ha) hc

/-- A name and what follows it behind a blank are told apart by the blank. -/
theorem readTag_name {d : Dialect} {name : String} (hn : isPlainName name.toList = true)
    {rest : List Char} (hrest : ∀ c ∈ rest.head?, c = ' ') :
    readTag d (name.toList ++ rest) =
      (readAttributes d rest).map fun r => .start name r.1 r.2 := by
  have hchars : ∀ c ∈ name.toList, (c != ' ') = true := by
    intro c hc
    simpa using (ne_of_mem_plainName hn hc).1
  have hstop : ∀ c ∈ rest.head?, (c != ' ') = false := by
    intro c hc
    rw [hrest c hc]
    decide
  have hdrop := dropWhile_append_stop hchars hstop
  have htake := takeWhile_append_stop hchars hstop
  unfold readTag
  split
  · -- an end tag would begin with a slash
    rename_i cs heq
    cases hname : name.toList with
    | nil => exact absurd hname (ne_nil_of_plainName hn)
    | cons c cs =>
      rw [hname] at hn heq
      exact absurd (List.cons.inj heq).1 (ne_of_mem_plainName hn (List.mem_cons_self ..)).2.2.1
  · rw [hdrop, htake, String.ofList_toList]

theorem readTag_startBody {d : Dialect} {e : PageElement} {tail : List Char}
    (htail : ∀ c ∈ tail.head?, c = ' ') {closed : Bool}
    (hread : readAttributes d tail = some ([], closed)) :
    readTag d (startBody d e ++ tail) = some (.start e.tag (e.attributes d) closed) := by
  have hattributes := readAttributes_attributes (isPlainName_attributes d e) htail hread
  rw [startBody, List.append_assoc, readTag_name (isPlainName_tag e), hattributes]
  · rfl
  · obtain ⟨a, as, has⟩ : ∃ a as, e.attributes d = a :: as := ⟨_, _, rfl⟩
    rw [has]
    obtain ⟨other, _ | v⟩ := a <;> simp [attributeText]

theorem readTag_endTag (d : Dialect) (name : String) :
    readTag d ('/' :: name.toList) = some (.stop name) := by
  rw [readTag, String.ofList_toList]

end DesignCompiler.Markup
