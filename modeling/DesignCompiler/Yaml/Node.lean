import DesignCompiler.Yaml.Token

/-!
# DesignCompiler — nodes of YAML texts

A text holds one document, which is one node: a text, a sequence or a mapping. A node that is left
out is an empty plain text.

* `Node` — the nodes;
* `Node.ofTokens?` — the node of a text's tokens, if they have the form of a document;
* `Node.ofText?` — the node of a text.
-/

namespace DesignCompiler.Yaml

/-- The nodes of a document. -/
inductive Node where
  | scalar (text : String) (plain : Bool)
  | sequence (items : List Node)
  | mapping (pairs : List (Node × Node))
  /-- A collection that is nested too deep. -/
  | deep
deriving Repr, Inhabited

namespace Node

/-- The node that is left out. -/
def empty : Node := .scalar "" true

/-- A collection within the allowed depth, or one below it. -/
def nested (levels : Nat) (n : Node) : Node :=
  if levels = 0 then .deep else n

/-- Tokens that cannot begin a node: the node before them is left out. -/
def isLeftOut (stops : List Token) : List Token → Bool
  | [] => false
  | t :: _ => stops.contains t

mutual

/-- A node, and the tokens after it. Inside brackets no block can begin; behind a key a sequence
needs no indentation of its own. Every step but few takes a token, which bounds their number. -/
def take (levels : Nat) (inBlock behindKey : Bool) : (limit : Nat) → List Token →
    Option (Node × List Token)
  | 0, _ => none
  | limit + 1, ts =>
    match ts with
    | .scalar text plain :: ts => some (.scalar text plain, ts)
    | .flowSequenceStart :: ts => do
      let (ns, ts) ← takeFlowItems (levels - 1) true limit ts
      return (nested levels (.sequence ns), ts)
    | .flowMappingStart :: ts => do
      let (ps, ts) ← takeFlowPairs (levels - 1) true limit ts
      return (nested levels (.mapping ps), ts)
    | .blockSequenceStart :: ts =>
      if inBlock then do
        let (ns, ts) ← takeBlockItems (levels - 1) limit ts
        return (nested levels (.sequence ns), ts)
      else none
    | .blockMappingStart :: ts =>
      if inBlock then do
        let (ps, ts) ← takeBlockPairs (levels - 1) limit ts
        return (nested levels (.mapping ps), ts)
      else none
    -- The dash is given back: it begins the first of the items.
    | .blockEntry :: ts =>
      if behindKey then do
        let (ns, ts) ← takeOpenItems (levels - 1) limit (.blockEntry :: ts)
        return (nested levels (.sequence ns), ts)
      else none
    | _ => none
termination_by structural limit => limit

/-- A node, unless one of some tokens shows that it is left out. -/
def takeUnless (stops : List Token) (levels : Nat) (inBlock behindKey : Bool) : (limit : Nat) →
    List Token → Option (Node × List Token)
  | 0, _ => none
  | limit + 1, ts =>
    if isLeftOut stops ts then some (empty, ts) else take levels inBlock behindKey limit ts
termination_by structural limit => limit

/-- The items of a sequence that is a block of its own. -/
def takeBlockItems (levels : Nat) : (limit : Nat) → List Token → Option (List Node × List Token)
  | 0, _ => none
  | limit + 1, ts =>
    match ts with
    | .blockEntry :: ts => do
      let (n, ts) ← takeUnless [.blockEntry, .blockEnd] levels true false limit ts
      let (ns, ts) ← takeBlockItems levels limit ts
      return (n :: ns, ts)
    | .blockEnd :: ts => some ([], ts)
    | _ => none
termination_by structural limit => limit

/-- The items of a sequence without indentation of its own. -/
def takeOpenItems (levels : Nat) : (limit : Nat) → List Token → Option (List Node × List Token)
  | 0, _ => none
  | limit + 1, ts =>
    match ts with
    | .blockEntry :: ts => do
      let (n, ts) ← takeUnless [.blockEntry, .key, .value, .blockEnd] levels true false limit ts
      let (ns, ts) ← takeOpenItems levels limit ts
      return (n :: ns, ts)
    | ts => some ([], ts)
termination_by structural limit => limit

def takeBlockPairs (levels : Nat) : (limit : Nat) → List Token →
    Option (List (Node × Node) × List Token)
  | 0, _ => none
  | limit + 1, ts =>
    match ts with
    | .key :: ts => do
      let (k, ts) ← takeUnless [.key, .value, .blockEnd] levels true true limit ts
      let (v, ts) ← takeBlockValue levels limit ts
      let (ps, ts) ← takeBlockPairs levels limit ts
      return ((k, v) :: ps, ts)
    | .blockEnd :: ts => some ([], ts)
    | _ => none
termination_by structural limit => limit

def takeBlockValue (levels : Nat) : (limit : Nat) → List Token → Option (Node × List Token)
  | 0, _ => none
  | limit + 1, ts =>
    match ts with
    | .value :: ts => takeUnless [.key, .value, .blockEnd] levels true true limit ts
    | ts => some (empty, ts)
termination_by structural limit => limit

/-- The items between brackets. An item may be a single pair. -/
def takeFlowItems (levels : Nat) (first : Bool) : (limit : Nat) → List Token →
    Option (List Node × List Token)
  | 0, _ => none
  | limit + 1, ts =>
    match ts with
    | .flowSequenceEnd :: ts => some ([], ts)
    | ts => do
      -- A comma stands before every item but the first.
      let ts ← if first then some ts else match ts with
        | .flowEntry :: ts => some ts
        | _ => none
      match ts with
      -- A comma may stand behind the last item too.
      | .flowSequenceEnd :: ts => return ([], ts)
      | .key :: ts => do
        let (p, ts) ← takeFlowPair (levels - 1) limit ts
        let (ns, ts) ← takeFlowItems levels false limit ts
        return (nested levels (.mapping [p]) :: ns, ts)
      | ts => do
        let (n, ts) ← take levels false false limit ts
        let (ns, ts) ← takeFlowItems levels false limit ts
        return (n :: ns, ts)
termination_by structural limit => limit

/-- A single pair between brackets, from its key on. -/
def takeFlowPair (levels : Nat) : (limit : Nat) → List Token → Option ((Node × Node) × List Token)
  | 0, _ => none
  | limit + 1, ts => do
    let (k, ts) ←
      if isLeftOut [.value, .flowEntry, .flowSequenceEnd] ts then some (empty, ts.drop 1)
      else take levels false false limit ts
    match ts with
    | .value :: ts =>
      let (v, ts) ← takeUnless [.flowEntry, .flowSequenceEnd] levels false false limit ts
      return ((k, v), ts)
    | ts => return ((k, empty), ts)
termination_by structural limit => limit

/-- The pairs between braces. A key without a colon has no value. -/
def takeFlowPairs (levels : Nat) (first : Bool) : (limit : Nat) → List Token →
    Option (List (Node × Node) × List Token)
  | 0, _ => none
  | limit + 1, ts =>
    match ts with
    | .flowMappingEnd :: ts => some ([], ts)
    | ts => do
      -- Commas stand as they do between items.
      let ts ← if first then some ts else match ts with
        | .flowEntry :: ts => some ts
        | _ => none
      match ts with
      | .flowMappingEnd :: ts => return ([], ts)
      | .key :: ts => do
        let (k, ts) ← takeUnless [.value, .flowEntry, .flowMappingEnd] levels false false limit ts
        let (v, ts) ← takeFlowValue levels limit ts
        let (ps, ts) ← takeFlowPairs levels false limit ts
        return ((k, v) :: ps, ts)
      | ts => do
        let (k, ts) ← take levels false false limit ts
        let (ps, ts) ← takeFlowPairs levels false limit ts
        return ((k, empty) :: ps, ts)
termination_by structural limit => limit

/-- The value behind a key between braces. -/
def takeFlowValue (levels : Nat) : (limit : Nat) → List Token → Option (Node × List Token)
  | 0, _ => none
  | limit + 1, ts =>
    match ts with
    | .value :: ts => takeUnless [.flowEntry, .flowMappingEnd] levels false false limit ts
    | ts => some (empty, ts)
termination_by structural limit => limit

end

/-- How deep collections may be nested. -/
def maxDepth : Nat := 128

/-- The node of a document's tokens. Three dashes may stand before it and three dots after it, but
no second document. -/
def ofTokens? (ts : List Token) : Option Node := do
  let limit := 4 * ts.length + 4
  let (n, rest) ← match ts with
    | [] => some (empty, [])
    | [.documentStart] => some (empty, [])
    | .documentStart :: .documentEnd :: ts => some (empty, .documentEnd :: ts)
    | .documentStart :: ts => take maxDepth true false limit ts
    | ts => take maxDepth true false limit ts
  if rest.all (· == .documentEnd) then some n else none

def ofText? (text : String) : Option Node :=
  (Token.scan? text).bind ofTokens?

end Node

end DesignCompiler.Yaml
