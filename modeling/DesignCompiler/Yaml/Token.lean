import DesignCompiler.Yaml.Flowing

/-!
# DesignCompiler — tokens of YAML texts

A text falls into tokens: indicators, texts, and the beginnings and ends of blocks that only the
indentation shows. A key is recognized as such only at the colon behind it, so the tokens that
announce it are inserted in front of it then.

* `Token` — the tokens;
* `Scanner` — the tokens so far, and what the indentation and the open brackets allow next;
* `Token.scan?` — the tokens of a text, if it has no fault.

Anchors, aliases, tags, directives and block texts are not read.
-/

namespace DesignCompiler.Yaml

/-- The tokens of a text. -/
inductive Token where
  /-- Three dashes. -/
  | documentStart
  /-- Three dots. -/
  | documentEnd
  | blockSequenceStart
  | blockMappingStart
  | blockEnd
  | flowSequenceStart
  | flowSequenceEnd
  | flowMappingStart
  | flowMappingEnd
  /-- A dash. -/
  | blockEntry
  /-- A comma. -/
  | flowEntry
  /-- In front of a key. -/
  | key
  /-- A colon. -/
  | value
  | scalar (text : String) (plain : Bool)
deriving DecidableEq, Repr

/-- A token that turns out to begin a key if a colon follows soon. -/
structure PossibleKey where
  /-- How many tokens stand before it. -/
  position : Nat
  /-- Whether nothing else can stand here. -/
  required : Bool
  index : Nat
  line : Nat
  column : Nat

def maxKeyLength : Nat := 1024

/-- Whether a key that began there may end here: on the same line and not too far away. -/
def PossibleKey.isCurrent (k : PossibleKey) (c : Cursor) : Bool :=
  c.line ≤ k.line && c.index ≤ k.index + maxKeyLength

/-- How far a text has been read. -/
structure Scanner where
  cursor : Cursor
  /-- The latest first. -/
  tokens : List Token := []
  /-- The column of the innermost block; blocks that are not there have column -1. -/
  indent : Int := -1
  /-- The columns of the blocks around it. -/
  outerIndents : List Int := []
  /-- The possible key inside the innermost brackets. -/
  possible : Option PossibleKey := none
  /-- The possible keys outside of these brackets, one for each pair of brackets. -/
  outerKeys : List (Option PossibleKey) := []
  /-- Whether a key may begin here. -/
  keyAllowed : Bool := true

namespace Scanner

/-- Whether the place is inside brackets. -/
def inFlow (s : Scanner) : Bool :=
  !s.outerKeys.isEmpty

def emit (s : Scanner) (t : Token) : Scanner :=
  { s with tokens := t :: s.tokens }

/-- Inserts a token in front of the token at a position. -/
def insertAt (s : Scanner) (position : Nat) (t : Token) : Scanner :=
  -- The latest token is the first of the list.
  let later := s.tokens.length - position
  { s with tokens := s.tokens.take later ++ t :: s.tokens.drop later }

/-- Moves past some characters of the line. -/
def skip (s : Scanner) (n : Nat) : Scanner :=
  { s with cursor := s.cursor.skip n }

/-! ## Blanks, comments and indentation -/

/-- Moves to the next token. Tabs are no indentation, so they are passed over only where no key may
begin; a new line allows one. -/
def toNext (s : Scanner) : (limit : Nat) → Scanner
  | 0 => s
  | limit + 1 =>
    match s.cursor.rest with
    | [] => s
    | c :: cs =>
      if c = ' ' || (c = '\t' && (s.inFlow || !s.keyAllowed)) then (s.skip 1).toNext limit
      -- A comment goes on to the end of its line.
      else if c = '#' then
        (s.skip (1 + (cs.takeWhile (!isBreak ·)).length)).toNext limit
      else if isBreak c then
        ({ s with cursor := s.cursor.skipBreak, keyAllowed := s.keyAllowed || !s.inFlow } :
          Scanner).toNext limit
      else s

/-- Ends the blocks that are indented deeper than a column. -/
def closeBlocks (s : Scanner) (column : Int) : (outer : List Int) → Scanner
  | [] => s
  | i :: is =>
    if column < s.indent then
      ({ s.emit .blockEnd with indent := i, outerIndents := is } : Scanner).closeBlocks column is
    else s

/-- Ends the blocks that a token at a column is not in. Inside brackets there are none. -/
def unroll (s : Scanner) (column : Int) : Scanner :=
  if s.inFlow then s else s.closeBlocks column s.outerIndents

/-- Begins a block at a column deeper than the block around it. -/
def roll (s : Scanner) (column position : Nat) (start : Token) : Scanner :=
  if !s.inFlow && s.indent < column then
    { s.insertAt position start with
      indent := column, outerIndents := s.indent :: s.outerIndents }
  else s

/-- Begins a block here. -/
def rollHere (s : Scanner) (start : Token) : Scanner :=
  s.roll s.cursor.column s.tokens.length start

/-! ## Keys -/

/-- Gives up the possible key, unless nothing else can stand there. -/
def dropKey (s : Scanner) : Option Scanner :=
  match s.possible with
  | some k => if k.required then none else some { s with possible := none }
  | none => some s

def noteKey (s : Scanner) : Option Scanner :=
  if s.keyAllowed then do
    let s ← s.dropKey
    let c := s.cursor
    return { s with possible := some {
      position := s.tokens.length
      -- A token in the column of the block has to be its next key.
      required := !s.inFlow && s.indent == (c.column : Int)
      index := c.index, line := c.line, column := c.column } }
  else some s

/-- The possible key, if it can still be one. -/
def currentKey (s : Scanner) : Option (Option PossibleKey) :=
  match s.possible with
  | none => some none
  | some k =>
    if k.isCurrent s.cursor then some (some k) else if k.required then none else some none

/-! ## Tokens -/

/-- A bracket or a brace that opens. -/
def openFlow (s : Scanner) (t : Token) : Option Scanner := do
  let s ← s.noteKey
  return { (s.skip 1).emit t with
    outerKeys := s.possible :: s.outerKeys, possible := none, keyAllowed := true }

/-- A bracket or a brace that closes. -/
def closeFlow (s : Scanner) (t : Token) : Option Scanner := do
  let s ← s.dropKey
  let s := { (s.skip 1).emit t with keyAllowed := false }
  -- The collection in the brackets may be a key itself.
  match s.outerKeys with
  | [] => return s
  | k :: ks => return { s with possible := k, outerKeys := ks }

/-- A comma. -/
def takeFlowEntry (s : Scanner) : Option Scanner := do
  let s ← s.dropKey
  return { (s.skip 1).emit .flowEntry with keyAllowed := true }

/-- A dash in front of an entry. -/
def takeBlockEntry (s : Scanner) : Option Scanner := do
  -- Behind another token of the line no block can begin.
  if !s.inFlow && !s.keyAllowed then none
  let s ← (s.rollHere .blockSequenceStart).dropKey
  return { (s.skip 1).emit .blockEntry with keyAllowed := true }

/-- A question mark in front of a key. -/
def takeKey (s : Scanner) : Option Scanner := do
  if !s.inFlow && !s.keyAllowed then none
  let s ← (s.rollHere .blockMappingStart).dropKey
  return { (s.skip 1).emit .key with keyAllowed := !s.inFlow }

/-- A colon in front of a value. If a key can end here, it began at the token noted last. -/
def takeValue (s : Scanner) : Option Scanner := do
  match ← s.currentKey with
  | some k =>
    -- The block, if one begins here, begins before the key.
    let s := (s.insertAt k.position .key).roll k.column k.position .blockMappingStart
    return { (s.skip 1).emit .value with possible := none, keyAllowed := false }
  | none =>
    -- The key is left out, or was announced by a question mark.
    if !s.inFlow && !s.keyAllowed then none
    let s := s.rollHere .blockMappingStart
    return { (s.skip 1).emit .value with possible := none, keyAllowed := !s.inFlow }

/-- Three dashes or dots. -/
def takeDelimiter (s : Scanner) (t : Token) : Option Scanner := do
  -- A delimiter ends all blocks.
  let s ← (s.unroll (-1)).dropKey
  return { (s.skip 3).emit t with keyAllowed := false }

def takeQuotedScalar (s : Scanner) (double : Bool) : Option Scanner := do
  let s ← s.noteKey
  let start := s.cursor.skip 1
  let (text, next) ← takeQuoted double (start.rest.length + 1) start
  return { s.emit (.scalar (String.ofList text) false) with cursor := next, keyAllowed := false }

/-- A plain text. Behind the end of its line a key may begin. -/
def takePlainScalar (s : Scanner) : Option Scanner := do
  let s ← s.noteKey
  -- The lines of the text are indented deeper than the block around it.
  let p ← takePlain s.inFlow (s.indent + 1).toNat (s.cursor.rest.length + 1) {} s.cursor
  return { s.emit (.scalar (String.ofList p.text) true) with
    cursor := p.next, keyAllowed := p.endsLine }

/-- The characters that have a meaning at the beginning of a token. -/
def isIndicator (c : Char) : Bool :=
  ['-', '?', ':', ',', '[', ']', '{', '}', '#', '&', '*', '!', '|', '>', '\'', '"', '%', '@',
    '\u0060'].contains c

/-- Whether a plain text can begin here. A dash, a question mark or a colon may begin one if no
blank follows. -/
def beginsPlain (inFlow : Bool) : List Char → Bool
  | [] => false
  | '-' :: cs => !(cs.head?.any isBlank)
  | '?' :: cs => !inFlow && !endsWord cs
  | ':' :: cs => !inFlow && !endsWord cs
  | c :: _ => !isGap c && !isIndicator c

/-- The token at the cursor; none if no token can stand there. -/
def takeToken (s : Scanner) : Option Scanner :=
  let c := s.cursor
  if c.atDelimiter then
    s.takeDelimiter (if c.rest.head? = some '-' then .documentStart else .documentEnd)
  else match c.rest with
    | [] => none
    | x :: rest =>
      -- Directives are not read.
      if x = '%' && c.column = 0 then none
      else if x = '[' then s.openFlow .flowSequenceStart
      else if x = '{' then s.openFlow .flowMappingStart
      else if x = ']' then s.closeFlow .flowSequenceEnd
      else if x = '}' then s.closeFlow .flowMappingEnd
      else if x = ',' then s.takeFlowEntry
      else if x = '-' && endsWord rest then s.takeBlockEntry
      else if x = '?' && (s.inFlow || endsWord rest) then s.takeKey
      else if x = ':' && (s.inFlow || endsWord rest) then s.takeValue
      else if x = '\'' then s.takeQuotedScalar false
      else if x = '"' then s.takeQuotedScalar true
      else if beginsPlain s.inFlow c.rest then s.takePlainScalar
      else none

/-- The end of the text ends all blocks. -/
def finish (s : Scanner) : Option Scanner :=
  (s.unroll (-1)).dropKey

def takeTokens (s : Scanner) : (limit : Nat) → Option Scanner
  | 0 => none
  | limit + 1 =>
    let s := s.toNext (s.cursor.rest.length + 1)
    if s.cursor.rest.isEmpty then s.finish
    else do
      let s ← (s.unroll s.cursor.column).takeToken
      s.takeTokens limit

end Scanner

/-- A text without the mark of its encoding. -/
def dropMark : List Char → List Char
  | '\ufeff' :: cs => cs
  | cs => cs

def Token.scan? (text : String) : Option (List Token) := do
  -- The mark may be there twice: once for the encoding, once as the first character.
  let cs := dropMark (dropMark text.toList)
  if !cs.all isAllowed then none
  let s ← ({ cursor := { rest := cs } } : Scanner).takeTokens (cs.length + 1)
  return s.tokens.reverse

end DesignCompiler.Yaml
