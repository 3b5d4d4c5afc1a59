import DesignCompiler.Json.Numeral

/-!
# DesignCompiler — JSON texts

A text is read as far as it goes. What is wrong with it stays in its place as a leaf, because a
reader of records looks at values one after the other and may find another fault before it comes
there, or may pass over the value.

Passing over is more lenient than reading: it does not look at the magnitude of numbers, at
surrogates in strings, or at the depth of nesting.

* `Fault`, `Breach` — a fault, and what it is to a reader and to one who passes over it;
* `Source` — the values of a text;
* `Source.ofText` — the value of a text;
* `Source.skip`, `Source.json` — passing over a value, and reading a free-form one.
-/

namespace DesignCompiler.Json

/-- What can be wrong with a text. -/
inductive Fault where
  /-- It does not have the form of JSON, or goes past a limit. -/
  | malformed
  /-- It ends too early. -/
  | truncated
deriving DecidableEq, Repr

/-- A place where a text cannot be read on. -/
structure Breach where
  /-- The fault for one who reads the value. -/
  read : Fault
  /-- The fault for one who passes over it. -/
  skip : Fault
deriving DecidableEq, Repr

/-- The same fault for both. -/
def Breach.of (f : Fault) : Breach := ⟨f, f⟩

/-- The values of a text. -/
inductive Source where
  | null
  | bool (value : Bool)
  /-- A number, none if it is too large. -/
  | number (value : Option Number)
  /-- A string, none if it has a surrogate without its partner. -/
  | string (value : Option String)
  /-- Items, and why the array is not closed after them. -/
  | array (items : List Source) (breach : Option Breach)
  /-- Members, and why the object is not closed after them. The name of a member is none if it has a
  surrogate without its partner. -/
  | object (members : List (Option String × Source)) (breach : Option Breach)
  /-- An array or an object that is nested too deep. -/
  | deep (container : Source)
  /-- No value. -/
  | broken (breach : Breach)
deriving Inhabited

/-! ## Blanks and literals -/

/-- A character that may stand between two tokens. -/
def isSpace (c : Char) : Bool :=
  c == ' ' || c == '\n' || c == '\t' || c == '\r'

/-- The text after its leading blanks. -/
def skipSpace (cs : List Char) : List Char :=
  cs.dropWhile isSpace

def afterWord : (word cs : List Char) → Except Fault (List Char)
  | [], cs => pure cs
  | _ :: _, [] => .error .truncated
  | e :: es, c :: cs => if e = c then afterWord es cs else .error .malformed

/-! ## Numbers -/

/-- One digit at least, and what follows the digits. -/
def takeDigits (cs : List Char) : Except Breach (List Char × List Char) :=
  match cs.takeWhile Char.isDigit, cs with
  -- The text ends where a digit has to be.
  | [], [] => .error ⟨.truncated, .malformed⟩
  | [], _ => .error (.of .malformed)
  | ds, _ => pure (ds, cs.dropWhile Char.isDigit)

/-- The digits behind a point, if there is one. -/
def takeFraction : List Char → Except Breach (Option (List Char) × List Char)
  | '.' :: cs => (takeDigits cs).map fun (ds, rest) => (some ds, rest)
  | cs => pure (none, cs)

/-- Sign and digits of an exponent, if there is one. -/
def takeExponent : List Char → Except Breach (Option (Bool × List Char) × List Char)
  | [] => pure (none, [])
  | c :: cs =>
    if c = 'e' || c = 'E' then
      -- The sign is optional, and a plus sign says nothing.
      let (negative, cs) := match cs with
        | '-' :: cs => (true, cs)
        | '+' :: cs => (false, cs)
        | cs => (false, cs)
      (takeDigits cs).map fun (ds, rest) => (some (negative, ds), rest)
    else pure (none, c :: cs)

/-- A number from its first digit on. A zero in front of other digits is an error. -/
def takeNumeral (negative : Bool) (cs : List Char) : Except Breach (Numeral × List Char) := do
  let (whole, cs) ← takeDigits cs
  -- `0` may stand alone or before a point, but `01` is no number.
  if whole.head? = some '0' && whole.length ≠ 1 then .error (.of .malformed)
  let (fraction, cs) ← takeFraction cs
  let (exponent, cs) ← takeExponent cs
  return ({ negative, whole, fraction, exponent }, cs)

/-! ## Strings -/

/-- A piece of a string: a character, or a unit of 16 bits that was written with its digits. -/
inductive Piece where
  | char (c : Char)
  | unit (n : Nat)

/-- A unit that is the first of two. -/
def isHighSurrogate (n : Nat) : Bool := 0xD800 ≤ n && n < 0xDC00

/-- A unit that is the second of two. -/
def isLowSurrogate (n : Nat) : Bool := 0xDC00 ≤ n && n < 0xE000

/-- The characters of some pieces, if every surrogate has its partner. -/
def joinPieces : List Piece → Option (List Char)
  | [] => some []
  | .char c :: ps => (joinPieces ps).map (c :: ·)
  | .unit n :: .unit m :: ps =>
    if isHighSurrogate n then
      if isLowSurrogate m then
        -- Each of the two units carries ten bits of the code point.
        (joinPieces ps).map (Char.ofNat (0x10000 + (n - 0xD800) * 0x400 + (m - 0xDC00)) :: ·)
      else none
    -- A second surrogate cannot come first.
    else if isLowSurrogate n then none
    else (joinPieces (.unit m :: ps)).map (Char.ofNat n :: ·)
  | .unit n :: ps =>
    if isHighSurrogate n || isLowSurrogate n then none
    else (joinPieces ps).map (Char.ofNat n :: ·)

/-- Pieces without a first surrogate at their end, which may still find its partner. -/
def dropOpenSurrogate (ps : List Piece) : List Piece :=
  match ps.getLast? with
  | some (.unit n) => if isHighSurrogate n then ps.dropLast else ps
  | _ => ps

/-- The character that a letter behind a backslash stands for. -/
def unescape? : Char → Option Char
  | '"' => some '"'
  | '\\' => some '\\'
  | '/' => some '/'
  | 'b' => some '\x08'
  | 'f' => some '\x0c'
  | 'n' => some '\n'
  | 'r' => some '\r'
  | 't' => some '\t'
  | _ => none

/-- The value of a hexadecimal digit of either case. -/
def hexValue? (c : Char) : Option Nat :=
  if c.isDigit then some (c.toNat - '0'.toNat)
  else if 'a' ≤ c && c ≤ 'f' then some (c.toNat - 'a'.toNat + 10)
  else if 'A' ≤ c && c ≤ 'F' then some (c.toNat - 'A'.toNat + 10)
  else none

/-- The number that four hexadecimal digits spell. -/
def hexUnit? (a b c d : Char) : Option Nat := do
  return (((← hexValue? a) * 16 + (← hexValue? b)) * 16 + (← hexValue? c)) * 16 + (← hexValue? d)

/-- Fewer than four characters where four digits have to stand: the text ends too early, unless
their bytes are at least four. -/
def shortUnit (cs : List Char) : Fault :=
  if (String.ofList cs).utf8ByteSize < 4 then .truncated else .malformed

/-- The pieces of a string up to its closing quote, and what follows it. -/
def takePieces : List Char → List Piece × Except Fault (List Char)
  | [] => ([], .error .truncated)
  | '"' :: cs => ([], pure cs)
  | '\\' :: 'u' :: a :: b :: c :: d :: cs =>
    match hexUnit? a b c d with
    | some n =>
      let (ps, rest) := takePieces cs
      (.unit n :: ps, rest)
    | none => ([], .error .malformed)
  -- Fewer than four characters are left.
  | '\\' :: 'u' :: cs => ([], .error (shortUnit cs))
  | ['\\'] => ([], .error .truncated)
  | '\\' :: e :: cs =>
    match unescape? e with
    | some c =>
      let (ps, rest) := takePieces cs
      (.char c :: ps, rest)
    | none => ([], .error .malformed)
  | c :: cs =>
    -- A control character has to be written behind a backslash.
    if c.toNat < 32 then ([], .error .malformed)
    else
      let (ps, rest) := takePieces cs
      (.char c :: ps, rest)

/-- A string from behind its opening quote on: its text, and what follows it. -/
def takeString (cs : List Char) : Except Breach (Option String × List Char) :=
  match takePieces cs with
  | (ps, .ok rest) => pure ((joinPieces ps).map String.ofList, rest)
  | (ps, .error f) =>
    -- A surrogate without its partner is found before a fault that comes after it, but only by one
    -- who reads the string.
    .error ⟨if (joinPieces (dropOpenSurrogate ps)).isSome then f else .malformed, f⟩

/-! ## Values -/

def leaf (make : α → Source) : Except Breach (α × List Char) → Source × Option (List Char)
  | .ok (a, rest) => (make a, some rest)
  | .error b => (.broken b, none)

def literal (value : Source) : Except Fault (List Char) → Source × Option (List Char)
  | .ok rest => (value, some rest)
  | .error f => (.broken (.of f), none)

/-- A container within the allowed depth, or one below it. -/
def nested (levels : Nat) (container : Source) : Source :=
  if levels = 0 then .deep container else container

mutual

/-- A value at the beginning of a text, and what follows it; nothing can follow a breach. Containers
may be nested `levels` deep. Three steps take a character at least, which bounds their number. -/
def takeValue (levels : Nat) : (limit : Nat) → List Char → Source × Option (List Char)
  | 0, _ => (.broken (.of .truncated), none)
  | limit + 1, cs =>
    match skipSpace cs with
    | [] => (.broken (.of .truncated), none)
    | 'n' :: cs => literal .null (afterWord ['u', 'l', 'l'] cs)
    | 't' :: cs => literal (.bool true) (afterWord ['r', 'u', 'e'] cs)
    | 'f' :: cs => literal (.bool false) (afterWord ['a', 'l', 's', 'e'] cs)
    | '"' :: cs => leaf .string (takeString cs)
    | '-' :: cs => leaf (fun n => .number n.value?) (takeNumeral true cs)
    | '[' :: cs =>
      let (items, breach, rest) := takeItems (levels - 1) limit cs
      (nested levels (.array items breach), rest)
    | '{' :: cs =>
      let (members, breach, rest) := takeMembers (levels - 1) limit cs
      (nested levels (.object members breach), rest)
    | c :: cs =>
      if c.isDigit then leaf (fun n => .number n.value?) (takeNumeral false (c :: cs))
      else (.broken (.of .malformed), none)

/-- The items of an array from behind its opening bracket on. -/
def takeItems (levels : Nat) : (limit : Nat) → List Char →
    List Source × Option Breach × Option (List Char)
  | 0, _ => ([], some (.of .truncated), none)
  | limit + 1, cs =>
    match skipSpace cs with
    | [] => ([], some (.of .truncated), none)
    -- Only here, in front of the first item, may the bracket close at once.
    | ']' :: cs => ([], none, some cs)
    | cs => takeMoreItems levels limit cs

def takeMoreItems (levels : Nat) : (limit : Nat) → List Char →
    List Source × Option Breach × Option (List Char)
  | 0, _ => ([], some (.of .truncated), none)
  | limit + 1, cs =>
    match takeValue levels limit cs with
    -- The fault is inside the item, so the array itself has none.
    | (v, none) => ([v], none, none)
    | (v, some cs) =>
      match skipSpace cs with
      | [] => ([v], some (.of .truncated), none)
      | ']' :: cs => ([v], none, some cs)
      | ',' :: cs =>
        let (vs, breach, rest) := takeMoreItems levels limit cs
        (v :: vs, breach, rest)
      | _ => ([v], some (.of .malformed), none)

/-- The members of an object from behind its opening brace on. -/
def takeMembers (levels : Nat) : (limit : Nat) → List Char →
    List (Option String × Source) × Option Breach × Option (List Char)
  | 0, _ => ([], some (.of .truncated), none)
  | limit + 1, cs =>
    match skipSpace cs with
    | '}' :: cs => ([], none, some cs)
    | cs => takeMoreMembers levels limit cs

/-- The members of an object from a name on. -/
def takeMoreMembers (levels : Nat) : (limit : Nat) → List Char →
    List (Option String × Source) × Option Breach × Option (List Char)
  | 0, _ => ([], some (.of .truncated), none)
  | limit + 1, cs =>
    match skipSpace cs with
    | [] => ([], some (.of .truncated), none)
    | '"' :: cs =>
      match takeString cs with
      | .error b => ([], some b, none)
      | .ok (name, cs) =>
        match skipSpace cs with
        -- The name is there, so what is missing is its value.
        | [] => ([(name, .broken (.of .truncated))], none, none)
        | ':' :: cs =>
          match takeValue levels limit cs with
          | (v, none) => ([(name, v)], none, none)
          | (v, some cs) =>
            match skipSpace cs with
            | [] => ([(name, v)], some (.of .truncated), none)
            | '}' :: cs => ([(name, v)], none, some cs)
            | ',' :: cs =>
              let (ms, breach, rest) := takeMoreMembers levels limit cs
              ((name, v) :: ms, breach, rest)
            | _ => ([(name, v)], some (.of .malformed), none)
        | _ => ([(name, .broken (.of .malformed))], none, none)
    | _ => ([], some (.of .malformed), none)

end

namespace Source

/-- How deep the containers of a text may be nested. -/
def maxDepth : Nat := 127

/-- The value of a text, and whether nothing but blanks follows it. -/
def ofText (levels : Nat) (text : String) : Source × Except Fault Unit :=
  let cs := text.toList
  match takeValue levels (3 * cs.length + 3) cs with
  | (v, none) => (v, pure ())
  | (v, some rest) => (v, if (skipSpace rest).isEmpty then pure () else .error .malformed)

/-! ## Passing over values -/

def endSkip : Option Breach → Except Fault Unit
  | none => pure ()
  | some b => .error b.skip

mutual

/-- Passes over a value. -/
def skip : Source → Except Fault Unit
  | .null => pure ()
  | .bool _ => pure ()
  | .number _ => pure ()
  | .string _ => pure ()
  | .array items breach => do
    skipItems items
    endSkip breach
  | .object members breach => do
    skipMembers members
    endSkip breach
  | .deep v => skip v
  | .broken b => .error b.skip

/-- Passes over items. -/
def skipItems : List Source → Except Fault Unit
  | [] => pure ()
  | v :: vs => do
    skip v
    skipItems vs

/-- Passes over members. -/
def skipMembers : List (Option String × Source) → Except Fault Unit
  | [] => pure ()
  | (_, v) :: ms => do
    skip v
    skipMembers ms

end

/-! ## Free-form values -/

def endRead : Option Breach → Except Fault Unit
  | none => pure ()
  | some b => .error b.read

/-- A value that is there, or a fault. -/
def orMalformed : Option α → Except Fault α
  | some a => pure a
  | none => .error .malformed

mutual

/-- The free-form value that a text spells. A repeated name keeps its last value. -/
def json : Source → Except Fault Json
  | .null => pure .null
  | .bool b => pure (.bool b)
  | .number n => (orMalformed n).map .number
  | .string s => (orMalformed s).map .string
  | .array items breach => do
    -- A fault in an item comes before the one that leaves the array open.
    let vs ← jsonItems items
    endRead breach
    return .array vs
  | .object members breach => do
    let ms ← jsonMembers members
    endRead breach
    return .object (Object.ofMembers ms)
  | .deep _ => .error .malformed
  | .broken b => .error b.read

def jsonItems : List Source → Except Fault (List Json)
  | [] => pure []
  | v :: vs => do
    let a ← json v
    let as ← jsonItems vs
    return a :: as

/-- The names and values of members. -/
def jsonMembers : List (Option String × Source) → Except Fault (List (String × Json))
  | [] => pure []
  | (name, v) :: ms => do
    let k ← orMalformed name
    let a ← json v
    let as ← jsonMembers ms
    return (k, a) :: as

end

end Source

end DesignCompiler.Json
