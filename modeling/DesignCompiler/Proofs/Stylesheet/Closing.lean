import DesignCompiler.Proofs.Stylesheet.Agreement
import DesignCompiler.Proofs.Stylesheet.Nesting

/-!
# DesignCompiler — values that close what they open

A value stays in its declaration if nothing is open at its end. Numbers, keywords and colors never open
anything that they do not close. A font family is written as it stands, so it can; and so can the source
of a picture, because a string ends at a form feed.

* `closes` — whether nothing is open behind a value;
* `closes_color`, `closes_image` — colors and pictures;
* `closes_declarations_iff` — the declarations of an element;
* `settled_stylesheet_iff` — the rules of elements.
-/

namespace DesignCompiler.Stylesheet

/-- Whether nothing is open behind a text. -/
def closes (cs : List Char) : Bool :=
  (cs.foldl Context.next {}).isTop

/-! ## Characters that open nothing -/

/-- The characters that can begin or end something. A slash does only before a star. -/
def special : List Char :=
  ['*', '\\', '"', '\x27', '(', ')', '[', ']', '\x7b', '\x7d', ';']

/-- A character that changes nothing outside of comments and strings. -/
abbrev Inert (c : Char) : Prop :=
  c ∉ special ∧ c ≠ '/'

theorem notMem_special {p : Char → Bool} (h : special.all (!p ·) = true) {c : Char}
    (hc : p c = true) : c ∉ special := by
  intro hmem
  have hp := List.all_eq_true.mp h c hmem
  rw [hc] at hp
  exact nomatch hp

/-- Neither in a comment nor a string nor behind a backslash. -/
structure Context.Idle (s : Context) (awaited : List Char) : Prop where
  awaited : s.awaited = awaited
  lexeme : s.lexeme = .plain ∨ s.lexeme = .slash

variable {s : Context} {awaited : List Char} {c : Char} {cs : List Char}

theorem closing?_eq_none (h : c ∉ special) : closing? c = none := by
  simp only [special, List.mem_cons, List.not_mem_nil, or_false, not_or] at h
  simp [closing?, h]

theorem nextPlain_of_notMem (hc : c ∉ special) (hslash : c ≠ '/') (hawaited : awaited ⊆ special) :
    nextPlain awaited c = ⟨.plain, awaited⟩ := by
  have hnone := closing?_eq_none hc
  have hhead : awaited.head? ≠ some c := fun h => hc (hawaited (List.mem_of_head? h))
  simp only [special, List.mem_cons, List.not_mem_nil, or_false, not_or] at hc
  simp [nextPlain, hnone, hhead, hslash, hc]

theorem foldl_inert (h : ∀ c ∈ cs, Inert c) (hawaited : awaited ⊆ special) :
    cs.foldl Context.next ⟨.plain, awaited⟩ = ⟨.plain, awaited⟩ := by
  induction cs with
  | nil => rfl
  | cons c cs ih =>
    obtain ⟨hc, hcs⟩ := List.forall_mem_cons.mp h
    have hnext : Context.next ⟨.plain, awaited⟩ c = ⟨.plain, awaited⟩ :=
      nextPlain_of_notMem hc.1 hc.2 hawaited
    rw [List.foldl_cons, hnext, ih hcs]

theorem Context.Idle.next (h : s.Idle awaited) (hc : c ∉ special) (hawaited : awaited ⊆ special) :
    (s.next c).Idle awaited := by
  have hstar : c ≠ '*' := fun heq => hc (heq ▸ List.mem_cons_self ..)
  have hnext : s.next c = nextPlain awaited c := by
    rcases h.lexeme with hl | hl
    · rw [Context.next, hl, h.awaited]
    · rw [Context.next, hl, h.awaited]
      exact if_neg hstar
  rw [hnext]
  by_cases hslash : c = '/'
  · rw [nextPlain, if_pos hslash]
    exact ⟨rfl, Or.inr rfl⟩
  · rw [nextPlain_of_notMem hc hslash hawaited]
    exact ⟨rfl, Or.inl rfl⟩

theorem Context.Idle.foldl (h : s.Idle awaited) (hcs : ∀ c ∈ cs, c ∉ special)
    (hawaited : awaited ⊆ special) : (cs.foldl Context.next s).Idle awaited := by
  induction cs generalizing s with
  | nil => exact h
  | cons c cs ih =>
    obtain ⟨hc, hrest⟩ := List.forall_mem_cons.mp hcs
    exact ih (h.next hc hawaited) hrest

/-- What is inert does not count for what follows it. -/
theorem closes_append (h : ∀ c ∈ cs, Inert c) (rest : List Char) :
    closes (cs ++ rest) = closes rest := by
  rw [closes, List.foldl_append, foldl_inert h (List.nil_subset _)]
  rfl

theorem closes_inert (h : ∀ c ∈ cs, Inert c) : closes cs = true := by
  rw [closes, foldl_inert h (List.nil_subset _)]
  rfl

/-! ## Words and colors -/

theorem inert_of_isWordChar (h : isWordChar c = true) : Inert c := by
  refine ⟨notMem_special (by decide) h, ?_⟩
  rintro rfl
  exact absurd h (by decide)

theorem inert_of_isAlphanum (h : c.isAlphanum = true) : Inert c :=
  inert_of_isWordChar (by simp [isWordChar, isNumeralChar, h])

/-- The parentheses of a color are a pair, and nothing is open between them. -/
theorem closes_parenthesized {word inner : List Char} (hword : ∀ c ∈ word, Inert c)
    (hinner : ∀ c ∈ inner, c ∉ special) : closes (word ++ '(' :: (inner ++ [')'])) = true := by
  have hawaited : [')'] ⊆ special := by decide
  have hopen : Context.Idle ⟨.plain, [')']⟩ [')'] := ⟨rfl, Or.inl rfl⟩
  obtain ⟨hmissing, hlexeme⟩ := hopen.foldl hinner hawaited
  have hopened : Context.next {} '(' = ⟨.plain, [')']⟩ := by decide
  rw [closes_append hword, closes, List.foldl_cons, List.foldl_append, hopened]
  generalize inner.foldl Context.next ⟨.plain, [')']⟩ = s at hmissing hlexeme
  obtain ⟨lexeme, awaited⟩ := s
  simp only at hmissing hlexeme
  rw [hmissing]
  rcases hlexeme with rfl | rfl <;> decide

theorem closes_color {s : String} (h : isColor s = true) : closes s.toList = true := by
  rcases color_cases h with hall | ⟨word, inner, hs, hword, hinner⟩
  · refine closes_inert fun c hc => ?_
    rcases hall c hc with hc | rfl
    · exact inert_of_isAlphanum hc
    · decide
  · rw [hs]
    refine closes_parenthesized (fun c hc => inert_of_isAlphanum ?_) fun c hc => ?_
    · simp [Char.isAlphanum, hword c hc]
    · exact notMem_special (by decide) (hinner c hc)

/-! ## Texts between quotes -/

/-- Where no text between double quotes leads back into its string: what is written for the text has no
quote without a backslash. -/
inductive Astray : Lexeme → Prop where
  | plain : Astray .plain
  | slash : Astray .slash
  | single : Astray (.string '\x27')
  | comment : Astray .comment
  | star : Astray .star

theorem nextPlain_astray (hslash : c ≠ '\\') (hquote : c ≠ '"') :
    Astray (nextPlain awaited c).lexeme := by
  rw [nextPlain]
  by_cases h : c = '/'
  · rw [if_pos h]
    exact .slash
  · rw [if_neg h, if_neg hslash]
    by_cases h' : c = '\x27'
    · rw [h']
      exact .single
    · simp only [hquote, h', decide_false, Bool.or_self, Bool.false_eq_true, if_false]
      cases closing? c <;> exact .plain

/-- A character that is written as it stands. -/
theorem Astray.next (h : Astray s.lexeme) (hslash : c ≠ '\\') (hquote : c ≠ '"') :
    Astray (s.next c).lexeme := by
  obtain ⟨lexeme, awaited⟩ := s
  cases h with
  | plain => exact nextPlain_astray hslash hquote
  | slash =>
    simp only [Context.next]
    split
    · exact .comment
    · exact nextPlain_astray hslash hquote
  | single =>
    simp only [Context.next, hslash, if_false]
    split
    · exact .plain
    · exact .single
  | comment =>
    simp only [Context.next]
    split
    · exact .star
    · exact .comment
  | star =>
    simp only [Context.next]
    split
    · exact .plain
    · split
      · exact .star
      · exact .comment

/-- A backslash takes the quote or the backslash behind it with it. -/
theorem Astray.next_escaped (h : Astray s.lexeme) (hc : c = '\\' ∨ c = '"') :
    Astray ((s.next '\\').next c).lexeme := by
  obtain ⟨lexeme, awaited⟩ := s
  cases h with
  | plain => exact .plain
  | slash => exact .plain
  | single => exact .single
  | comment => rcases hc with rfl | rfl <;> exact .comment
  | star => rcases hc with rfl | rfl <;> exact .comment

theorem Astray.foldl_escape (h : Astray s.lexeme) (c : Char) :
    Astray ((escape c).foldl Context.next s).lexeme := by
  rcases escape_cases c with ⟨hescaped, hescape⟩ | ⟨⟨hslash, hquote⟩, hescape⟩
  · rw [hescape]
    exact h.next_escaped hescaped
  · rw [hescape]
    exact h.next hslash hquote

theorem Astray.foldl_escapes (h : Astray s.lexeme) (cs : List Char) :
    Astray ((cs.flatMap escape).foldl Context.next s).lexeme := by
  induction cs generalizing s with
  | nil => exact h
  | cons c cs ih =>
    rw [List.flatMap_cons, List.foldl_append]
    exact ih (h.foldl_escape c)

/-- The quote that should end the string begins one, or is lost in a string or comment. -/
theorem Astray.not_isTop (h : Astray s.lexeme) :
    ((s.next '"').next ')').isTop = false := by
  obtain ⟨lexeme, awaited⟩ := s
  cases h with
  | plain | slash | single | comment | star =>
    simp [Context.next, nextPlain, Context.isTop, isNewline]

theorem foldl_escape_string (hc : isNewline c = false) :
    (escape c).foldl Context.next ⟨.string '"', awaited⟩ = ⟨.string '"', awaited⟩ := by
  rcases escape_cases c with ⟨rfl | rfl, hescape⟩ | ⟨⟨hslash, hquote⟩, hescape⟩
  · rw [hescape]
    rfl
  · rw [hescape]
    rfl
  · rw [hescape]
    simp [Context.next, hc, hslash, hquote]

/-- A line break is written as it stands, and ends the string. -/
theorem foldl_escape_newline (hc : isNewline c = true) :
    (escape c).foldl Context.next ⟨.string '"', awaited⟩ = ⟨.plain, awaited⟩ := by
  rcases escape_cases c with ⟨rfl | rfl, -⟩ | ⟨-, hescape⟩
  · exact absurd hc (by decide)
  · exact absurd hc (by decide)
  · rw [hescape]
    simp [Context.next, hc]

/-- A text is in its string up to the first line break. -/
theorem foldl_escapes_string (cs : List Char) (awaited : List Char) :
    if cs.any isNewline then
      Astray ((cs.flatMap escape).foldl Context.next ⟨.string '"', awaited⟩).lexeme
    else
      (cs.flatMap escape).foldl Context.next ⟨.string '"', awaited⟩ = ⟨.string '"', awaited⟩ := by
  induction cs with
  | nil => rfl
  | cons c cs ih =>
    rw [List.any_cons, List.flatMap_cons, List.foldl_append]
    cases hc : isNewline c with
    | false =>
      rw [Bool.false_or, foldl_escape_string hc]
      exact ih
    -- A newline ends the string, and no escaped character brings it back.
    | true =>
      rw [Bool.true_or, if_pos rfl, foldl_escape_newline hc]
      exact Astray.plain.foldl_escapes cs

/-- The source of a picture is closed if it is one line. -/
theorem closes_image (source : String) :
    closes ("url(" ++ quote source ++ ")").toList = !source.toList.any isNewline := by
  have hchars : ("url(" ++ quote source ++ ")").toList =
      ['u', 'r', 'l', '(', '"'] ++ (source.toList.flatMap escape ++ ['"', ')']) := by
    simp [quote]
  have hopened : ['u', 'r', 'l', '(', '"'].foldl Context.next {} = ⟨.string '"', [')']⟩ := by decide
  have hsource := foldl_escapes_string source.toList [')']
  rw [closes, hchars, List.foldl_append, hopened, List.foldl_append]
  split at hsource
  · rename_i hbreak
    rw [hbreak]
    exact hsource.not_isTop
  · rename_i hbreak
    rw [hsource, Bool.eq_false_iff.mpr hbreak]
    decide

-- A form feed ends the string, and the quote behind it begins another one.
example : closes ("url(" ++ quote "a\x0cb" ++ ")").toList = false := by decide

/-! ## Declarations of an element -/

variable {e : PageElement}

theorem family_mem_declarations {f : String} (h : fontFamily? e = some f) :
    ⟨"font-family", f⟩ ∈ e.declarations := by
  obtain ⟨t, ht, hf⟩ := Option.bind_eq_some_iff.mp h
  have hfont : ⟨"font-family", f⟩ ∈ font t := by
    simp [font, hf, declare]
  simp [PageElement.declarations_eq, PageElement.declared_eq, ht, hfont]

theorem source_mem_declarations {source : String} (h : backgroundSource? e = some source) :
    ⟨"background-image", "url(" ++ quote source ++ ")"⟩ ∈ e.declarations := by
  have hbackground : ⟨"background-image", "url(" ++ quote source ++ ")"⟩ ∈ background e := by
    cases he : e.element with
    | image p =>
      simp only [backgroundSource?, he] at h
      simp only [background, he]
      by_cases hchildren : e.hasChildren = true
      · rw [if_pos hchildren] at h
        rw [if_pos hchildren, ← Option.some.inj h]
        exact List.mem_cons_self ..
      · rw [if_neg hchildren] at h
        cases h
    | container _ => simp [backgroundSource?, he] at h
    | text _ => simp [backgroundSource?, he] at h
    | button _ => simp [backgroundSource?, he] at h
  simp [PageElement.declarations_eq, PageElement.declared_eq, hbackground]

/-- The texts of an element that nobody but their author has chosen close what they open. -/
structure SelfContained (e : PageElement) : Prop where
  family : ∀ f ∈ fontFamily? e, closes f.toList = true
  source : ∀ source ∈ backgroundSource? e, source.toList.any isNewline = false

theorem closes_declarations_iff (h : e.element.Checked) :
    (∀ d ∈ e.declarations, closes d.value.toList = true) ↔ SelfContained e := by
  constructor
  · intro hall
    refine ⟨fun f hf => ?_, fun source hsource => ?_⟩
    · exact hall ⟨"font-family", f⟩ (family_mem_declarations hf)
    · have himage := hall _ (source_mem_declarations hsource)
      simp only [closes_image, Bool.not_eq_true'] at himage
      exact himage
  · intro hself d hd
    have hvalue := (written_declarations h d hd).value
    generalize d.value = v at hvalue
    -- of all forms of a value, only the two with a text of their author can fail to close
    cases hvalue with
    | word hword => exact closes_inert fun c hc => inert_of_isWordChar (hword c hc)
    | color hcolor => exact closes_color hcolor
    | @border width c hwidth hcolor =>
      have hlead : ∀ x ∈ (width ++ " solid ").toList, Inert x := by
        intro x hx
        rw [String.toList_append, List.mem_append] at hx
        rcases hx with hx | hx
        · exact inert_of_isWordChar (hwidth x hx)
        · exact inert_of_isWordChar (List.all_eq_true.mp (by decide) x hx)
      rw [String.toList_append, closes_append hlead]
      exact closes_color hcolor
    | family hf => exact hself.family _ hf
    | image hsource => rw [closes_image, hself.source _ hsource, Bool.not_false]

/-! ## Rules -/

theorem isDelimiter_of_inert (h : Inert c) : isDelimiter c = false := by
  have hspecial := h.1
  simp only [special, List.mem_cons, List.not_mem_nil, or_false, not_or] at hspecial
  simp [isDelimiter, hspecial]

theorem settled_inert (h : ∀ c ∈ cs, Inert c) (rest : List Char) :
    Settled {} (cs ++ rest) ↔ Settled {} rest := by
  rw [settled_append fun c hc => isDelimiter_of_inert (h c hc), foldl_inert h (List.nil_subset _)]

theorem inert_break : ∀ c ∈ ['\n'], Inert c :=
  List.forall_mem_singleton.mpr (by decide)

/-- The semicolon behind a value counts if the value closes what it opens. -/
theorem settled_declarationLine {d : Declaration} (h : Readable d) (indent : Nat)
    (rest : List Char) :
    Settled {} ((declarationLine indent d).toList ++ rest) ↔
      closes d.value.toList = true ∧ Settled {} rest := by
  have hlead : ∀ c ∈ List.replicate indent ' ' ++ d.property.toList ++ [':', ' '], Inert c := by
    intro c hc
    rw [List.mem_append, List.mem_append] at hc
    rcases hc with (hc | hc) | hc
    · rw [List.eq_of_mem_replicate hc]
      decide
    · have hproperty := isPropertyChar_of_mem h.property hc
      refine ⟨notMem_special (by decide) hproperty, ?_⟩
      rintro rfl
      exact absurd hproperty (by decide)
    · rw [List.mem_cons, List.mem_singleton] at hc
      rcases hc with rfl | rfl <;> decide
  have hline : (declarationLine indent d).toList ++ rest =
      List.replicate indent ' ' ++ d.property.toList ++ [':', ' '] ++
        (d.value.toList ++ ';' :: (['\n'] ++ rest)) := by
    simp [toList_declarationLine, declarationText]
  -- a value has no delimiter, so the next one is the semicolon behind it
  rw [hline, settled_inert hlead, settled_append h.value, settled_of_delimiter (by decide),
    settled_inert inert_break, closes]

theorem settled_lines {ds : List Declaration} (h : ∀ d ∈ ds, Readable d) (indent : Nat)
    (rest : List Char) :
    Settled {} ((String.join (ds.map (declarationLine indent))).toList ++ rest) ↔
      (∀ d ∈ ds, closes d.value.toList = true) ∧ Settled {} rest := by
  induction ds with
  | nil => simp
  | cons d ds ih =>
    obtain ⟨hd, hds⟩ := List.forall_mem_cons.mp h
    rw [List.forall_mem_cons, and_assoc, ← ih hds, ← settled_declarationLine hd indent]
    simp

theorem settled_rule (hclass : ClassName.isClassName e.className)
    (h : ∀ d ∈ e.declarations, Readable d) (indent : Nat) (rest : List Char) :
    Settled {} ((e.rule indent).toList ++ rest) ↔
      (∀ d ∈ e.declarations, closes d.value.toList = true) ∧ Settled {} rest := by
  have hselector : ∀ c ∈ '.' :: e.className.toList ++ [' '], Inert c := by
    intro c hc
    rw [List.mem_append, List.mem_cons, List.mem_singleton] at hc
    rcases hc with (rfl | hc) | rfl
    · decide
    · have hchar := hclass c hc
      refine ⟨notMem_special (by decide) hchar, ?_⟩
      rintro rfl
      exact absurd hchar (by decide)
    · decide
  have hrule : (e.rule indent).toList ++ rest = '.' :: e.className.toList ++ [' '] ++
      '\x7b' :: (['\n'] ++ ((String.join (e.declarations.map (declarationLine indent))).toList ++
        '\x7d' :: (['\n'] ++ rest))) := by
    simp [toList_rule]
  have htop : Context.isTop {} = true := by decide
  -- Only the braces and the declarations can change the context.
  rw [hrule, settled_inert hselector, settled_of_delimiter (by decide), settled_inert inert_break,
    settled_lines h, settled_of_delimiter (by decide), settled_inert inert_break]
  simp only [htop, true_and]

/-- The delimiters of a stylesheet count if all values close what they open. -/
theorem settled_stylesheet_iff {es : List PageElement}
    (hclass : ∀ e ∈ es, ClassName.isClassName e.className)
    (h : ∀ e ∈ es, ∀ d ∈ e.declarations, Readable d) (indent : Nat) :
    Settled {} (stylesheet indent es).toList ↔
      ∀ e ∈ es, ∀ d ∈ e.declarations, closes d.value.toList = true := by
  induction es with
  | nil => simp [stylesheet, Settled]
  | cons e es ih =>
    obtain ⟨hfirst, hclasses⟩ := List.forall_mem_cons.mp hclass
    obtain ⟨he, hes⟩ := List.forall_mem_cons.mp h
    rw [List.forall_mem_cons, ← ih hclasses hes, ← settled_rule hfirst he indent]
    cases es with
    | nil => simp [stylesheet]
    | cons e' es =>
      have hmore : (stylesheet indent (e :: e' :: es)).toList =
          (e.rule indent).toList ++ (['\n'] ++ (stylesheet indent (e' :: es)).toList) := by
        simp [stylesheet]
      rw [hmore, settled_rule hfirst he, settled_rule hfirst he, settled_inert inert_break]

end DesignCompiler.Stylesheet

namespace DesignCompiler

open Stylesheet

namespace PageTree

/-- A forest of the elements of a tree, one for each component, and what a browser makes of their
stylesheet: a block for each of them with all its declarations, exactly if no text runs on. -/
structure Nests (t : PageTree) (cs : List Component) (code : Code)
    (f : Forest (Nat × PageElement)) : Prop where
  lists : t.Lists f
  complete : (f.labels.map (·.2.id)).Perm (cs.map Component.id)
  blocks : readNested code.stylesheet.toList = some (f.labels.map (·.2.block)) ↔
    ∀ p ∈ f.labels, SelfContained p.2

variable {t : PageTree} {f : Forest (Nat × PageElement)}

theorem Lists.readNested_stylesheet (h : t.Lists f) (indent : Nat) :
    readNested (stylesheet indent (f.labels.map Prod.snd)).toList =
        some (f.labels.map (·.2.block)) ↔ ∀ p ∈ f.labels, SelfContained p.2 := by
  have hclass : ∀ e ∈ f.labels.map Prod.snd, ClassName.isClassName e.className := by
    intro e he
    obtain ⟨p, hp, rfl⟩ := List.mem_map.mp he
    exact h.isClassName hp
  have hchecked : ∀ e ∈ f.labels.map Prod.snd, e.element.Checked := by
    intro e he
    obtain ⟨p, hp, rfl⟩ := List.mem_map.mp he
    exact h.element_checked hp
  rw [readNested_eq_some_iff (h.read_stylesheet indent), settled_stylesheet_iff hclass
    (fun e he => readable_declarations (hchecked e he)), List.forall_mem_map]
  refine forall₂_congr fun p hp => ?_
  exact closes_declarations_iff (hchecked p.2 (List.mem_map_of_mem hp))

end PageTree

/--
**A browser finds the rules of all components if no text runs on.** Colors, numbers and keywords never
do; a font family does that does not close what it opens, and the source of a picture with a line break.
-/
theorem emit_nests {cs : List Component} {t : PageTree} {s : Settings} {code : Code}
    (hb : PageTree.build cs = .ok t) (he : t.emit s = .ok code) : ∃ f, t.Nests cs code f := by
  obtain ⟨f, es, hlists, hes, rfl⟩ := exists_lists hb he
  refine ⟨f, hlists, hlists.ids_perm hb, ?_⟩
  exact hlists.readNested_stylesheet s.indent

/-! ## Texts that run on -/

def swallowingBox : Component :=
  { id := ⟨1⟩, kind := "box" }

/-- A text whose font family opens a comment. -/
def swallowingText : Component :=
  { id := ⟨2⟩, parentId := some ⟨1⟩, kind := "text",
    appearance := [("text", .string "a"), ("fontFamily", .string "/*")] }

/-- A text whose font family closes one. -/
def swallowedText : Component :=
  { id := ⟨3⟩, parentId := some ⟨1⟩, kind := "text",
    appearance := [("text", .string "b"), ("fontFamily", .string "*/ serif")] }

def swallowingPage : List Component :=
  [swallowingBox, swallowingText, swallowedText]

def swallowingTree : PageTree where
  nodes :=
    [{ component := swallowingBox, parent := none, children := [1, 2], depth := 0 },
      { component := swallowingText, parent := some 0, children := [], depth := 1 },
      { component := swallowedText, parent := some 0, children := [], depth := 1 }]
  root := 0
  pageId := none

theorem build_swallowingPage : PageTree.build swallowingPage = .ok swallowingTree := by
  cbv

theorem stylesheet_swallowingTree : ∃ code, swallowingTree.emit {} = .ok code ∧
    code.stylesheet = ".container \x7b\n\x7d\n\n.text \x7b\n  font-family: /*;\n\x7d\n\n" ++
      ".text-2 \x7b\n  font-family: */ serif;\n\x7d\n" := by
  have hemit : (swallowingTree.emit {}).toOption.map (·.stylesheet) =
      some (".container \x7b\n\x7d\n\n.text \x7b\n  font-family: /*;\n\x7d\n\n" ++
        ".text-2 \x7b\n  font-family: */ serif;\n\x7d\n") := by decide +kernel
  cases hcode : swallowingTree.emit {} with
  | ok code =>
    rw [hcode] at hemit
    exact ⟨code, rfl, Option.some.inj hemit⟩
  | error e =>
    rw [hcode] at hemit
    exact nomatch hemit

theorem swallowingPage_nests : ∃ t s code f, PageTree.build swallowingPage = .ok t ∧
    t.emit s = .ok code ∧ t.Nests swallowingPage code f := by
  obtain ⟨code, hcode, -⟩ := stylesheet_swallowingTree
  obtain ⟨f, hnests⟩ := emit_nests build_swallowingPage hcode
  exact ⟨swallowingTree, {}, code, f, build_swallowingPage, hcode, hnests⟩

/-- Of the three components a browser finds two: the rule of the last one is in the comment. -/
theorem swallowingPage_swallows : ∃ t code, PageTree.build swallowingPage = .ok t ∧
    t.emit {} = .ok code ∧ readNested code.stylesheet.toList =
      some [⟨".container", []⟩, ⟨".text", [⟨"font-family",
        "/*;\n\x7d\n\n.text-2 \x7b\n  font-family: */ serif"⟩]⟩] := by
  obtain ⟨code, hcode, hstylesheet⟩ := stylesheet_swallowingTree
  refine ⟨swallowingTree, code, build_swallowingPage, hcode, ?_⟩
  rw [hstylesheet]
  decide +kernel

end DesignCompiler
