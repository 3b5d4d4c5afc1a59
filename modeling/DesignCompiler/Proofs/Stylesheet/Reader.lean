import DesignCompiler.Proofs.ClassName.Allocation
import DesignCompiler.Proofs.Stylesheet.Values
import DesignCompiler.Stylesheet.Writer

/-!
# DesignCompiler — reading stylesheets

A reader of stylesheets that knows no properties and no syntax of values. It cuts the text at braces
and semicolons, wherever they stand, and takes what is between them as selectors and declarations.
A value with one of these characters, in quotes or not, would be read as something else.

* `cut` — a text cut at its delimiters;
* `Block`, `read` — the blocks of a stylesheet;
* `PageElement.block` — the block that the rule of an element should be read as;
* `read_stylesheet` — the rules of elements are read as their blocks.
-/

namespace DesignCompiler

/-- A rule as it is read. -/
structure Block where
  selector : String
  declarations : List Declaration
deriving DecidableEq, Repr

/-- What the rule of an element says. -/
def PageElement.block (e : PageElement) : Block :=
  ⟨"." ++ e.className, e.declarations⟩

namespace Stylesheet

/-! ## The reader -/

/-- The texts before the delimiters, each with the delimiter that ends it, and what stands behind
the last one. -/
def cut : List Char → List (List Char × Char) × List Char
  | [] => ([], [])
  | c :: cs =>
    let (pieces, rest) := cut cs
    if isDelimiter c then (([], c) :: pieces, rest)
    else
      match pieces with
      | [] => ([], c :: rest)
      | (text, ending) :: pieces => ((c :: text, ending) :: pieces, rest)

/-- A character that may stand around selectors and before declarations. -/
def isLayout (c : Char) : Bool :=
  c == ' ' || c == '\n'

/-- A text without layout at its beginning and its end. -/
def trim (cs : List Char) : List Char :=
  ((cs.dropWhile isLayout).reverse.dropWhile isLayout).reverse

/-- A property, a colon and a blank, and the value as it stands. -/
def readDeclaration (cs : List Char) : Option Declaration :=
  let text := cs.dropWhile isLayout
  match text.dropWhile (· != ':') with
  | ':' :: ' ' :: value =>
    some ⟨String.ofList (text.takeWhile (· != ':')), String.ofList value⟩
  | _ => none

/-- The blocks of pieces. `opened` is the block that has begun, with the declarations before. -/
def readPieces : (opened : Option Block) → List (List Char × Char) → Option (List Block)
  | none, [] => some []
  | some _, [] => none
  | none, (text, ending) :: pieces =>
    if ending = '\x7b' then readPieces (some ⟨String.ofList (trim text), []⟩) pieces else none
  | some b, (text, ending) :: pieces =>
    if ending = ';' then
      (readDeclaration text).bind fun d =>
        readPieces (some { b with declarations := b.declarations ++ [d] }) pieces
    else if ending = '\x7d' ∧ text.all isLayout then
      (readPieces none pieces).map (b :: ·)
    else none

/-- The blocks of a text that is read after `opened`. -/
def readFrom (opened : Option Block) (cs : List Char) : Option (List Block) :=
  if (cut cs).2.all isLayout then readPieces opened (cut cs).1 else none

/-- The blocks of a stylesheet. -/
def read (cs : List Char) : Option (List Block) :=
  readFrom none cs

/-! ## Cutting -/

section Cutting

variable {text : List Char}

theorem cut_of_plain (h : ∀ c ∈ text, isDelimiter c = false) : cut text = ([], text) := by
  induction text with
  | nil => rfl
  | cons c cs ih =>
    rw [cut, ih fun x hx => h x (List.mem_cons_of_mem _ hx)]
    simp [h c (List.mem_cons_self ..)]

/-- A text without delimiters reaches to the one behind it. -/
theorem cut_append (h : ∀ c ∈ text, isDelimiter c = false) {ending : Char}
    (hending : isDelimiter ending = true) (cs : List Char) :
    cut (text ++ ending :: cs) = ((text, ending) :: (cut cs).1, (cut cs).2) := by
  induction text with
  | nil => simp [cut, hending]
  | cons c text ih =>
    rw [List.cons_append, cut, ih fun x hx => h x (List.mem_cons_of_mem _ hx)]
    simp [h c (List.mem_cons_self ..)]

theorem not_isDelimiter_of_isLayout {c : Char} (h : isLayout c = true) :
    isDelimiter c = false := by
  rw [isLayout, Bool.or_eq_true, beq_iff_eq, beq_iff_eq] at h
  rcases h with rfl | rfl
  · decide
  · decide

theorem plain_of_layout (h : text.all isLayout = true) : ∀ c ∈ text, isDelimiter c = false :=
  fun c hc => not_isDelimiter_of_isLayout (List.all_eq_true.mp h c hc)

/-! ## One piece after the other -/

theorem readFrom_selector (h : ∀ c ∈ text, isDelimiter c = false) (cs : List Char) :
    readFrom none (text ++ '\x7b' :: cs) =
      readFrom (some ⟨String.ofList (trim text), []⟩) cs := by
  rw [readFrom, cut_append h (by decide)]
  rfl

theorem readFrom_declaration (h : ∀ c ∈ text, isDelimiter c = false) {d : Declaration}
    (hread : readDeclaration text = some d) (b : Block) (cs : List Char) :
    readFrom (some b) (text ++ ';' :: cs) =
      readFrom (some { b with declarations := b.declarations ++ [d] }) cs := by
  rw [readFrom, cut_append h (by decide), readFrom]
  simp only [readPieces, if_true, hread, Option.bind_some]

theorem readFrom_close (h : text.all isLayout = true) (b : Block) (cs : List Char) :
    readFrom (some b) (text ++ '\x7d' :: cs) = (readFrom none cs).map (b :: ·) := by
  have hne : '\x7d' ≠ ';' := by decide
  rw [readFrom, cut_append (plain_of_layout h) (by decide), readFrom]
  simp only [readPieces, hne, if_false, h, true_and, if_true]
  split
  · rfl
  · rfl

theorem readFrom_end (h : text.all isLayout = true) : readFrom none text = some [] := by
  rw [readFrom, cut_of_plain (plain_of_layout h)]
  simp only [h, if_true]
  rfl

end Cutting

/-! ## Selectors and declarations -/

theorem dropWhile_layout {lead : List Char} (h : lead.all isLayout = true) (cs : List Char) :
    (lead ++ cs).dropWhile isLayout = cs.dropWhile isLayout :=
  List.dropWhile_append_of_pos (List.all_eq_true.mp h)

theorem dropWhile_of_first {c : Char} (h : isLayout c = false) (cs : List Char) :
    (c :: cs).dropWhile isLayout = c :: cs :=
  List.dropWhile_cons_of_neg (by simp [h])

theorem dropWhile_of_none {cs : List Char} (h : ∀ c ∈ cs, isLayout c = false) :
    cs.dropWhile isLayout = cs := by
  cases cs with
  | nil => rfl
  | cons c cs => exact dropWhile_of_first (h c (List.mem_cons_self ..)) cs

/-- A text without layout loses the layout around it. -/
theorem trim_eq {lead trail : List Char} (hlead : lead.all isLayout = true)
    (htrail : trail.all isLayout = true) {first : Char} {cs : List Char}
    (h : ∀ c ∈ first :: cs, isLayout c = false) :
    trim (lead ++ (first :: cs ++ trail)) = first :: cs := by
  have hback : trail.reverse.all isLayout = true := by rw [List.all_reverse, htrail]
  have hreverse : ∀ c ∈ (first :: cs).reverse, isLayout c = false :=
    fun c hc => h c (List.mem_reverse.mp hc)
  rw [trim, dropWhile_layout hlead, List.cons_append,
    dropWhile_of_first (h first (List.mem_cons_self ..)), ← List.cons_append, List.reverse_append,
    dropWhile_layout hback, dropWhile_of_none hreverse, List.reverse_reverse]

theorem isLayout_of_char {p : Char → Bool} (hblank : p ' ' = false) (hbreak : p '\n' = false)
    {c : Char} (h : p c = true) : isLayout c = false := by
  refine Bool.eq_false_iff.mpr fun hlayout => ?_
  rw [isLayout, Bool.or_eq_true, beq_iff_eq, beq_iff_eq] at hlayout
  rcases hlayout with rfl | rfl
  · rw [hblank] at h
    exact nomatch h
  · rw [hbreak] at h
    exact nomatch h

/-- A letter or a dash. -/
def isPropertyChar (c : Char) : Bool :=
  c.isAlpha || c == '-'

theorem isPropertyChar_of_mem {property : String} (h : property ∈ propertyOrder) {c : Char}
    (hc : c ∈ property.toList) : isPropertyChar c = true := by
  have hall : (propertyOrder.all fun p => p.toList.all isPropertyChar) = true := by decide
  exact List.all_eq_true.mp (List.all_eq_true.mp hall property h) c hc

theorem ne_colon_of_isPropertyChar {c : Char} (h : isPropertyChar c = true) :
    (c != ':') = true := by
  rw [bne_iff_ne]
  rintro rfl
  exact absurd h (by decide)

/-- What stands between the delimiters for a declaration. -/
def declarationText (d : Declaration) : List Char :=
  d.property.toList ++ ':' :: ' ' :: d.value.toList

theorem dropWhile_declarationText {d : Declaration} (h : d.property ∈ propertyOrder) :
    (declarationText d).dropWhile isLayout = declarationText d := by
  have hchars : ∀ c ∈ d.property.toList, isLayout c = false :=
    fun c hc => isLayout_of_char (by decide) (by decide) (isPropertyChar_of_mem h hc)
  unfold declarationText
  cases hproperty : d.property.toList with
  | nil => exact dropWhile_of_first (by decide) _
  | cons c cs => exact dropWhile_of_first (hchars c (hproperty ▸ List.mem_cons_self ..)) _

theorem readDeclaration_eq {d : Declaration} (h : d.property ∈ propertyOrder) {lead : List Char}
    (hlead : lead.all isLayout = true) :
    readDeclaration (lead ++ declarationText d) = some d := by
  have hchars : ∀ c ∈ d.property.toList, (c != ':') = true :=
    fun c hc => ne_colon_of_isPropertyChar (isPropertyChar_of_mem h hc)
  have hstop : ∀ c ∈ (':' :: ' ' :: d.value.toList).head?, (c != ':') = false := by simp
  have htake : (declarationText d).takeWhile (· != ':') = d.property.toList :=
    takeWhile_append_stop hchars hstop
  have hdrop : (declarationText d).dropWhile (· != ':') = ':' :: ' ' :: d.value.toList :=
    dropWhile_append_stop hchars hstop
  simp only [readDeclaration, dropWhile_layout hlead, dropWhile_declarationText h, htake, hdrop,
    String.ofList_toList]

/-- A declaration that is readable has no delimiter. -/
theorem plain_declarationText {d : Declaration} (h : Readable d) :
    ∀ c ∈ declarationText d, isDelimiter c = false := by
  intro c hc
  rw [declarationText, List.mem_append, List.mem_cons, List.mem_cons] at hc
  rcases hc with hc | rfl | rfl | hc
  · exact plain_of_chars (p := isPropertyChar) (by decide) (by decide) (by decide)
      (fun _ hc => isPropertyChar_of_mem h.property hc) c hc
  · decide
  · decide
  · exact h.value c hc

/-! ## Rules -/

variable (indent : Nat)

theorem toList_declarationLine (d : Declaration) :
    (declarationLine indent d).toList =
      List.replicate indent ' ' ++ declarationText d ++ [';', '\n'] := by
  simp [declarationLine, declarationText]

/-- The lines of declarations are read up to the brace that closes the block. -/
theorem readFrom_lines {ds : List Declaration} (h : ∀ d ∈ ds, Readable d) (b : Block)
    (cs : List Char) :
    readFrom (some b)
        ('\n' :: ((String.join (ds.map (declarationLine indent))).toList ++ '\x7d' :: cs)) =
      (readFrom none cs).map ({ b with declarations := b.declarations ++ ds } :: ·) := by
  induction ds generalizing b with
  | nil =>
    rw [List.append_nil]
    have hbreak : ['\n'].all isLayout = true := by decide
    exact readFrom_close hbreak b cs
  | cons d ds ih =>
    have hd := h d (List.mem_cons_self ..)
    have hlead : ('\n' :: List.replicate indent ' ').all isLayout = true := by
      rw [List.all_cons, List.all_replicate]
      simp [isLayout]
    have hplain : ∀ c ∈ '\n' :: List.replicate indent ' ' ++ declarationText d,
        isDelimiter c = false := by
      intro c hc
      rcases List.mem_append.mp hc with hc | hc
      · exact plain_of_layout hlead c hc
      · exact plain_declarationText hd c hc
    -- the piece before the next semicolon is the end of a line and the line of `d`
    have hnext := readFrom_declaration hplain (readDeclaration_eq hd.property hlead) b
      ('\n' :: ((String.join (ds.map (declarationLine indent))).toList ++ '\x7d' :: cs))
    rw [ih fun x hx => h x (List.mem_cons_of_mem _ hx)] at hnext
    simpa [toList_declarationLine] using hnext

theorem toList_rule (e : PageElement) :
    (e.rule indent).toList = '.' :: e.className.toList ++ [' '] ++ '\x7b' :: '\n' ::
      ((String.join (e.declarations.map (declarationLine indent))).toList ++ ['\x7d', '\n']) := by
  simp [PageElement.rule]

/-- What is behind a rule is read from the end of its last line on. -/
theorem readFrom_rule {e : PageElement} (hclass : ClassName.isClassName e.className)
    (h : ∀ d ∈ e.declarations, Readable d) {lead : List Char} (hlead : lead.all isLayout = true)
    (cs : List Char) :
    readFrom none (lead ++ ((e.rule indent).toList ++ cs)) =
      (readFrom none ('\n' :: cs)).map (e.block :: ·) := by
  have hselector : ∀ c ∈ '.' :: e.className.toList, isLayout c = false := by
    intro c hc
    rcases List.mem_cons.mp hc with rfl | hc
    · decide
    · exact isLayout_of_char (by decide) (by decide) (hclass c hc)
  -- No delimiter stands before the opening brace.
  have hplain : ∀ c ∈ lead ++ ('.' :: e.className.toList ++ [' ']), isDelimiter c = false := by
    intro c hc
    rw [List.mem_append, List.mem_append, List.mem_cons, List.mem_singleton] at hc
    rcases hc with hc | (rfl | hc) | rfl
    · exact plain_of_layout hlead c hc
    · decide
    · exact plain_of_chars (p := ClassName.isPrefixChar) (by decide) (by decide) (by decide)
        (fun c hc => hclass c hc) c hc
    · decide
  have htrail : [' '].all isLayout = true := by decide
  have hrule := readFrom_selector hplain
    ('\n' :: ((String.join (e.declarations.map (declarationLine indent))).toList ++
      '\x7d' :: '\n' :: cs))
  rw [trim_eq hlead htrail hselector, readFrom_lines indent h] at hrule
  rw [toList_rule]
  simpa [PageElement.block] using hrule

theorem readFrom_stylesheet {es : List PageElement}
    (hclass : ∀ e ∈ es, ClassName.isClassName e.className)
    (h : ∀ e ∈ es, ∀ d ∈ e.declarations, Readable d) {lead : List Char}
    (hlead : lead.all isLayout = true) :
    readFrom none (lead ++ (stylesheet indent es).toList) = some (es.map PageElement.block) := by
  induction es generalizing lead with
  | nil =>
    have hempty : (stylesheet indent []).toList = [] := by simp [stylesheet]
    rw [hempty, List.append_nil]
    exact readFrom_end hlead
  | cons e es ih =>
    have hrule := readFrom_rule indent (hclass e (List.mem_cons_self ..))
      (h e (List.mem_cons_self ..)) hlead
    cases es with
    | nil =>
      have hlast : (stylesheet indent [e]).toList = (e.rule indent).toList ++ [] := by
        simp [stylesheet]
      rw [hlast, hrule, readFrom_end (by decide)]
      rfl
    | cons e' es =>
      -- the end of the last line and the blank line stand before the next rule
      have hmore : (stylesheet indent (e :: e' :: es)).toList =
          (e.rule indent).toList ++ '\n' :: (stylesheet indent (e' :: es)).toList := by
        simp [stylesheet]
      have hblank : ['\n', '\n'].all isLayout = true := by decide
      have hrest := ih (fun x hx => hclass x (List.mem_cons_of_mem _ hx))
        (fun x hx => h x (List.mem_cons_of_mem _ hx)) hblank
      rw [List.cons_append, List.cons_append, List.nil_append] at hrest
      rw [hmore, hrule, hrest]
      rfl

/-- **The rules of elements are read as their blocks.** -/
theorem read_stylesheet {es : List PageElement}
    (hclass : ∀ e ∈ es, ClassName.isClassName e.className)
    (h : ∀ e ∈ es, ∀ d ∈ e.declarations, Readable d) :
    read (stylesheet indent es).toList = some (es.map PageElement.block) := by
  have hnothing : ([] : List Char).all isLayout = true := rfl
  exact readFrom_stylesheet indent hclass h hnothing

-- A semicolon in a value would end it, even between quotes.
example : read ".a \x7b\n  font-family: \"x;y\";\n\x7d\n".toList = none := by decide

end Stylesheet

end DesignCompiler
