import DesignCompiler.Json.Source
import DesignCompiler.Yaml.Cursor

/-!
# DesignCompiler — texts over several lines

Plain and quoted texts may go on over several lines. The end of a line becomes a blank; empty lines
become line feeds.

* `Gap` — blanks and ends of lines between two words, and the text they stand for;
* `takePlain` — a text without quotes;
* `takeQuoted` — a text between single or double quotes.
-/

namespace DesignCompiler.Yaml

/-- What stands between two words. -/
structure Gap where
  /-- The blanks, if the words are on one line. -/
  blanks : List Char := []
  /-- The ends of lines. -/
  breaks : List Char := []

/-- The text that a gap stands for: the blanks of one line, one blank for the end of a line, the
further ends of lines as they are. -/
def Gap.text (g : Gap) : List Char :=
  match g.breaks with
  | [] => g.blanks
  | ['\n'] => [' ']
  -- The first line feed only ends the line; each further one is an empty line.
  | '\n' :: more => more
  -- A separator of lines or paragraphs counts even as the first.
  | others => others

/-- The gap at a place, and the place after it. Blanks count only on the first line. If `margin` is
given, tabs must not stand before that column on later lines. -/
def takeGap (margin : Option Nat) : (limit : Nat) → Gap → Cursor → Option (Gap × Cursor)
  | 0, _, _ => none
  | limit + 1, g, c =>
    match c.rest with
    | [] => some (g, c)
    | x :: _ =>
      if isBlank x then
        if g.breaks.isEmpty then
          takeGap margin limit { g with blanks := g.blanks ++ [x] } (c.skip 1)
        -- A tab would leave open how deep the line is indented.
        else if x = '\t' && margin.any (c.column < ·) then none
        else takeGap margin limit g (c.skip 1)
      else if isBreak x then
        takeGap margin limit { breaks := g.breaks ++ [Cursor.foldedBreak x] } c.skipBreak
      else some (g, c)

/-! ## Plain texts -/

/-- A character that ends a plain text in a flow collection. -/
def isFlowIndicator (c : Char) : Bool :=
  c == ',' || c == '[' || c == ']' || c == '{' || c == '}'

/-- Whether a text goes on with a character that cannot follow a colon in a flow collection. -/
def forbidsColon : List Char → Bool
  | [] => false
  | c :: _ => isFlowIndicator c || c == '?'

/-- The word at the beginning of a text. A colon ends it before a gap. -/
def takeWord (inFlow : Bool) : List Char → Option (List Char)
  | [] => some []
  | c :: cs =>
    if isGap c then some []
    -- `a:]` could be a key without a value or a word; it is refused.
    else if inFlow && c == ':' && forbidsColon cs then none
    else if c == ':' && endsWord cs then some []
    else if inFlow && isFlowIndicator c then some []
    else (takeWord inFlow cs).map (c :: ·)

/-- A plain text: words, and the text of the gaps between them. -/
structure Plain where
  text : List Char
  /-- The place after the text and the gap that follows it. -/
  next : Cursor
  /-- Whether the gap that follows has the end of a line. -/
  endsLine : Bool

/-- What is left of a plain text behind a gap; the gap belongs to the text if a word follows. In a
block the text goes on over lines that are indented to the margin. -/
def takePlain (inFlow : Bool) (margin : Nat) : (limit : Nat) → Gap → Cursor → Option Plain
  | 0, _, _ => none
  | limit + 1, gap, c =>
    if c.atDelimiter || c.rest.head? == some '#' then some ⟨[], c, !gap.breaks.isEmpty⟩
    else do
      let word ← takeWord inFlow c.rest
      -- The gap before this place belongs to no word.
      if word.isEmpty then return ⟨[], c, !gap.breaks.isEmpty⟩
      let text := gap.text ++ word
      let c := c.skip word.length
      let (gap, next) ← takeGap (some margin) (c.rest.length + 1) {} c
      -- Without a gap no other word can follow.
      if next.index = c.index then return ⟨text, c, false⟩
      -- The next line is not indented enough to go on.
      if !inFlow && next.column < margin then return ⟨text, next, !gap.breaks.isEmpty⟩
      let more ← takePlain inFlow margin limit gap next
      return { more with text := text ++ more.text }

/-! ## Quoted texts -/

/-- A character behind a backslash that stands for one other character. -/
def unescape? : Char → Option Char
  | '0' => some '\x00'
  | 'a' => some '\x07'
  | 'b' => some '\x08'
  | 't' => some '\t'
  | '\t' => some '\t'
  | 'n' => some '\n'
  | 'v' => some '\x0b'
  | 'f' => some '\x0c'
  | 'r' => some '\r'
  | 'e' => some '\x1b'
  | ' ' => some ' '
  | '"' => some '"'
  | '/' => some '/'
  | '\\' => some '\\'
  | 'N' => some '\u0085'
  | '_' => some '\u00a0'
  | 'L' => some '\u2028'
  | 'P' => some '\u2029'
  | _ => none

/-- How many digits follow a letter that gives a character by its code point. -/
def codeLength : Char → Nat
  | 'x' => 2
  | 'u' => 4
  | 'U' => 8
  | _ => 0

/-- The character with a code point of some digits. -/
def codeChar? (n : Nat) (cs : List Char) : Option Char := do
  if cs.length < n then none
  let ds ← (cs.take n).mapM Json.hexValue?
  let code := ds.foldl (fun k d => 16 * k + d) 0
  -- Surrogates are no characters.
  if (0xD800 ≤ code && code ≤ 0xDFFF) || 0x10FFFF < code then none else some (Char.ofNat code)

/-- What one step in a quoted text finds. -/
inductive Step where
  /-- A character, written with so many characters. -/
  | char (c : Char) (length : Nat)
  /-- The end of a line that does not count, behind a backslash. -/
  | join
  /-- A gap, the closing quote, or the end of the text. -/
  | stop
  /-- Something that cannot be. -/
  | bad

/-- The next step. Between single quotes the quote is written twice; between double quotes the
backslash has its meanings. -/
def quotedStep (double : Bool) : List Char → Step
  | [] => .stop
  | c :: cs =>
    if isGap c then .stop
    else if !double && c = '\'' then
      -- A quote that is written twice stands for one.
      if cs.head? = some '\'' then .char '\'' 2 else .stop
    else if double && c = '"' then .stop
    else if double && c = '\\' then
      match cs with
      | [] => .bad
      | e :: rest =>
        -- A backslash at the end of a line joins it to the next one.
        if isBreak e then .join
        else match unescape? e with
          | some x => .char x 2
          | none =>
            if codeLength e = 0 then .bad
            else match codeChar? (codeLength e) rest with
              | some x => .char x (2 + codeLength e)
              | none => .bad
    else .char c 1

/-- The characters up to the next gap or the closing quote. The flag says that they end with a line
whose end does not count. -/
def takeQuotedRun (double : Bool) : (limit : Nat) → Cursor → Option (List Char × Bool × Cursor)
  | 0, _ => none
  | limit + 1, c =>
    match quotedStep double c.rest with
    | .char x n => do
      let (xs, joined, c) ← takeQuotedRun double limit (c.skip n)
      return (x :: xs, joined, c)
    | .join => some ([], true, (c.skip 1).skipBreak)
    | .stop => some ([], false, c)
    | .bad => none

/-- The text of a gap, and the place after it. Behind a line whose end does not count only empty
lines do. -/
def takeQuotedGap (joined : Bool) (c : Cursor) : Option (List Char × Cursor) := do
  if joined then
    -- The end of the line is put in front and taken off again, so that blanks do not count.
    let (gap, next) ← takeGap none (c.rest.length + 1) { breaks := ['\n'] } c
    return (gap.breaks.drop 1, next)
  else
    let (gap, next) ← takeGap none (c.rest.length + 1) {} c
    return (gap.text, next)

/-- A quoted text from behind its opening quote on, and the place after its closing quote. -/
def takeQuoted (double : Bool) : (limit : Nat) → Cursor → Option (List Char × Cursor)
  | 0, _ => none
  | limit + 1, c => do
    -- A document cannot end inside quotes.
    if c.atDelimiter then none
    let (run, joined, c) ← takeQuotedRun double (c.rest.length + 1) c
    if c.rest.head? = some (if double then '"' else '\'') then return (run, c.skip 1)
    if c.rest.isEmpty then none
    let (gap, c) ← takeQuotedGap joined c
    let (text, c) ← takeQuoted double limit c
    return (run ++ gap ++ text, c)

end DesignCompiler.Yaml
