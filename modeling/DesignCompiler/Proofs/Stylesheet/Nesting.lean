import DesignCompiler.Proofs.Stylesheet.Reader

/-!
# DesignCompiler — reading stylesheets as browsers do

A browser does not cut a stylesheet at every brace and semicolon: in a comment, in a string, behind a
backslash or between brackets they are characters like others. This reader knows all of these. It takes
the texts between the delimiters as they stand, so a value that is well-formed is read as it was
written.

* `Context`, `Context.next` — what a reader is in the middle of, one character after the other;
* `cutNested`, `readNested` — the delimiters that count, and the blocks between them;
* `Settled` — every delimiter of a text counts;
* `readNested_eq_some_iff` — only then are the blocks those that are read at every delimiter.
-/

namespace DesignCompiler.Stylesheet

/-! ## The reader -/

inductive Lexeme where
  | plain
  /-- A slash, with which a comment may begin. -/
  | slash
  | escape
  | string (quote : Char)
  | escapeIn (quote : Char)
  | comment
  /-- A star in a comment, with which it may end. -/
  | star
deriving DecidableEq, Repr

/-- What a reader is in the middle of. -/
structure Context where
  lexeme : Lexeme := .plain
  /-- The brackets that have to be closed, the innermost first. -/
  awaited : List Char := []
deriving DecidableEq, Repr

/-- A form feed is a line break too. -/
def isNewline (c : Char) : Bool :=
  c == '\n' || c == '\r' || c == '\x0c'

def closing? (c : Char) : Option Char :=
  if c = '(' then some ')' else if c = '[' then some ']' else if c = '\x7b' then some '\x7d' else none

/-- The context behind a character that is in no comment, no string and no escape. -/
def nextPlain (awaited : List Char) (c : Char) : Context :=
  if c = '/' then ⟨.slash, awaited⟩
  else if c = '\\' then ⟨.escape, awaited⟩
  else if c = '"' || c = '\x27' then ⟨.string c, awaited⟩
  else match closing? c with
    | some close => ⟨.plain, close :: awaited⟩
    -- A bracket that closes none of those that are open counts for nothing.
    | none => ⟨.plain, if awaited.head? = some c then awaited.tail else awaited⟩

/-- The context behind one more character. -/
def Context.next (s : Context) (c : Char) : Context :=
  match s.lexeme with
  | .plain => nextPlain s.awaited c
  | .slash => if c = '*' then ⟨.comment, s.awaited⟩ else nextPlain s.awaited c
  | .escape => ⟨.plain, s.awaited⟩
  | .string q =>
    -- A string cannot go on in the next line.
    if c = q || isNewline c then ⟨.plain, s.awaited⟩
    else if c = '\\' then ⟨.escapeIn q, s.awaited⟩
    else s
  | .escapeIn q => ⟨.string q, s.awaited⟩
  | .comment => if c = '*' then ⟨.star, s.awaited⟩ else s
  | .star =>
    if c = '/' then ⟨.plain, s.awaited⟩ else if c = '*' then s else ⟨.comment, s.awaited⟩

/-- Whether a delimiter that comes next would count. -/
def Context.isTop (s : Context) : Bool :=
  s.awaited.isEmpty && (s.lexeme == .plain || s.lexeme == .slash)

/-- Adds a character in front of the first piece, or of what stands behind the last one. -/
def inFront (c : Char) : List (List Char × Char) × List Char → List (List Char × Char) × List Char
  | ([], rest) => ([], c :: rest)
  | ((text, ending) :: pieces, rest) => ((c :: text, ending) :: pieces, rest)

/-- The texts before the delimiters that count, and what stands behind the last one. Behind a delimiter
nothing is open. -/
def cutNested (s : Context) : List Char → List (List Char × Char) × List Char
  | [] => ([], [])
  | c :: cs =>
    if s.isTop && isDelimiter c then
      let (pieces, rest) := cutNested {} cs
      (([], c) :: pieces, rest)
    else inFront c (cutNested (s.next c) cs)

/-- The blocks of a stylesheet, as they stand between the delimiters that count. -/
def readNested (cs : List Char) : Option (List Block) :=
  let (pieces, rest) := cutNested {} cs
  if rest.all isLayout then readPieces none pieces else none

/-! ## Delimiters that count -/

/-- Every delimiter of a text counts that is read in a context. -/
def Settled (s : Context) : List Char → Prop
  | [] => True
  | c :: cs => if isDelimiter c then s.isTop = true ∧ Settled {} cs else Settled (s.next c) cs

variable {s : Context} {c : Char} {cs text : List Char}

theorem settled_of_delimiter (hc : isDelimiter c = true) :
    Settled s (c :: cs) ↔ s.isTop = true ∧ Settled {} cs := by
  rw [Settled, if_pos hc]

/-- Other characters only change the context. -/
theorem settled_append (h : ∀ c ∈ text, isDelimiter c = false) :
    Settled s (text ++ cs) ↔ Settled (text.foldl Context.next s) cs := by
  induction text generalizing s with
  | nil => rfl
  | cons c text ih =>
    obtain ⟨hc, htext⟩ := List.forall_mem_cons.mp h
    rw [List.cons_append, Settled, if_neg (Bool.eq_false_iff.mp hc), List.foldl_cons, ih htext]

/-! ## Pieces -/

theorem length_inFront (c : Char) (x : List (List Char × Char) × List Char) :
    (inFront c x).1.length = x.1.length := by
  obtain ⟨_ | _, _⟩ := x <;> rfl

theorem cut_cons_of_delimiter (hc : isDelimiter c = true) :
    cut (c :: cs) = (([], c) :: (cut cs).1, (cut cs).2) := by
  simp only [cut, hc, if_true]

theorem cut_cons_of_plain (hc : isDelimiter c = false) : cut (c :: cs) = inFront c (cut cs) := by
  simp only [cut, hc, Bool.false_eq_true, if_false]
  obtain ⟨_ | _, _⟩ := cut cs <;> rfl

theorem length_cut (cs : List Char) : (cut cs).1.length = cs.countP isDelimiter := by
  induction cs with
  | nil => rfl
  | cons c cs ih =>
    cases hc : isDelimiter c with
    | true => rw [cut_cons_of_delimiter hc, List.countP_cons_of_pos hc, List.length_cons, ih]
    | false => rw [cut_cons_of_plain hc, List.countP_cons_of_neg (by simp [hc]), length_inFront, ih]

/-- If all delimiters count, the text is cut at all of them. -/
theorem cutNested_eq_cut (h : Settled s cs) : cutNested s cs = cut cs := by
  induction cs generalizing s with
  | nil => rfl
  | cons c cs ih =>
    cases hc : isDelimiter c with
    | true =>
      obtain ⟨htop, hcs⟩ := (settled_of_delimiter hc).mp h
      rw [cut_cons_of_delimiter hc, cutNested, htop, hc, ih hcs]
      rfl
    | false =>
      rw [Settled, hc] at h
      rw [cut_cons_of_plain hc, cutNested, hc, Bool.and_false, ih h]
      rfl

theorem length_cutNested_le (s : Context) (cs : List Char) :
    (cutNested s cs).1.length ≤ cs.countP isDelimiter := by
  induction cs generalizing s with
  | nil => exact Nat.le_refl 0
  | cons c cs ih =>
    rw [cutNested, List.countP_cons]
    split
    · rename_i hcut
      rw [Bool.and_eq_true] at hcut
      simp only [List.length_cons, hcut.2, if_true]
      exact Nat.succ_le_succ (ih {})
    · rw [length_inFront]
      exact Nat.le_add_right_of_le (ih _)

/-- A text that has a piece for each delimiter has none that does not count. -/
theorem settled_of_length (h : (cutNested s cs).1.length = cs.countP isDelimiter) :
    Settled s cs := by
  induction cs generalizing s with
  | nil => trivial
  | cons c cs ih =>
    cases hc : isDelimiter c with
    | true =>
      rw [settled_of_delimiter hc]
      rw [cutNested, hc, Bool.and_true, List.countP_cons_of_pos hc] at h
      cases htop : s.isTop with
      | true =>
        rw [htop] at h
        exact ⟨rfl, ih (Nat.succ.inj h)⟩
      | false =>
        -- the delimiter is part of a piece, and those behind it are not enough
        rw [htop, if_neg Bool.false_ne_true, length_inFront] at h
        have hle := length_cutNested_le (s.next c) cs
        omega
    | false =>
      rw [Settled, hc]
      rw [cutNested, hc, Bool.and_false, if_neg Bool.false_ne_true, length_inFront,
        List.countP_cons_of_neg (by simp [hc])] at h
      exact ih h

/-! ## Blocks -/

/-- How many delimiters blocks take: one for each declaration, and their braces. -/
def delimiterCount : List Block → Nat
  | [] => 0
  | b :: bs => b.declarations.length + 2 + delimiterCount bs

/-- The blocks that are read take all pieces. Of a block that is open, the brace and the declarations
before have been read. -/
theorem length_of_readPieces {opened : Option Block} {pieces : List (List Char × Char)}
    {blocks : List Block} (h : readPieces opened pieces = some blocks) :
    (opened.elim 0 fun b => b.declarations.length + 1) + pieces.length = delimiterCount blocks := by
  -- A delimiter is a brace of a block or ends one of its declarations.
  fun_induction readPieces opened pieces generalizing blocks with
  | case1 =>
    obtain rfl := Option.some.inj h
    rfl
  | case2 => exact nomatch h
  | case3 text pieces ih =>
    have hrest := ih h
    simp at hrest ⊢
    omega
  | case4 => exact nomatch h
  | case5 b text pieces ih =>
    obtain ⟨d, -, hrest⟩ := Option.bind_eq_some_iff.mp h
    have hcount := ih d hrest
    simp at hcount ⊢
    omega
  | case6 b text ending pieces hne hclose ih =>
    obtain ⟨rest, hrest, rfl⟩ := Option.map_eq_some_iff.mp h
    have hcount := ih hrest
    simp [delimiterCount] at hcount ⊢
    omega
  | case7 => exact nomatch h

theorem delimiters_of_read {blocks : List Block} (h : read cs = some blocks) :
    cs.countP isDelimiter = delimiterCount blocks := by
  rw [read, readFrom] at h
  split at h
  · have hlength := length_of_readPieces h
    rw [length_cut] at hlength
    simpa using hlength
  · cases h

/-- The blocks that are read at all delimiters are those that are read at the ones that count, exactly
if all of them count. -/
theorem readNested_eq_some_iff {blocks : List Block} (h : read cs = some blocks) :
    readNested cs = some blocks ↔ Settled {} cs := by
  constructor
  · intro hnested
    rw [readNested] at hnested
    simp only at hnested
    split at hnested
    · have hlength := length_of_readPieces hnested
      rw [← delimiters_of_read h] at hlength
      exact settled_of_length (by simpa using hlength)
    · exact nomatch hnested
  · intro hsettled
    rw [readNested, cutNested_eq_cut hsettled, ← h]
    rfl

end DesignCompiler.Stylesheet
