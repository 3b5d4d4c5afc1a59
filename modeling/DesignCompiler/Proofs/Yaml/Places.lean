import DesignCompiler.Yaml.Token
import Mathlib.Tactic.SplitIfs

/-!
# DesignCompiler — where a text is read

How far a text has been read says only how far apart two places are: a scanner goes on in the same
way whatever stands before its place.

* `Cursor.moved`, `Scanner.moved` — the same place, with more before it;
* `takePlain_moved`, `takeQuoted_moved` — texts;
* `Scanner.takeToken_moved`, `Scanner.takeTokens_moved` — tokens;
* `Scanner.takeTokens_mono` — the bound on the number of tokens does not matter.
-/

namespace DesignCompiler.Yaml

variable {c : Cursor} {s s' : Scanner} {i : Nat}

/-! ## Places -/

namespace Cursor

/-- The place with `i` more characters before it, on other lines. -/
def moved (c : Cursor) (i : Nat) : Cursor :=
  { c with index := c.index + i }

@[simp] theorem moved_rest : (c.moved i).rest = c.rest := rfl

@[simp] theorem moved_line : (c.moved i).line = c.line := rfl

@[simp] theorem moved_column : (c.moved i).column = c.column := rfl

@[simp] theorem moved_index : (c.moved i).index = c.index + i := rfl

@[simp] theorem moved_atDelimiter : (c.moved i).atDelimiter = c.atDelimiter := rfl

@[simp] theorem moved_skip (n : Nat) : (c.moved i).skip n = (c.skip n).moved i := by
  simp [moved, skip, Nat.add_right_comm]

@[simp] theorem moved_skipBreak : (c.moved i).skipBreak = c.skipBreak.moved i := by
  rw [skipBreak, skipBreak, moved_rest]
  split <;> simp [moved, Nat.add_right_comm]

end Cursor

def PossibleKey.moved (k : PossibleKey) (i : Nat) : PossibleKey :=
  { k with index := k.index + i }

theorem PossibleKey.moved_isCurrent (k : PossibleKey) :
    (k.moved i).isCurrent (c.moved i) = k.isCurrent c := by
  simp only [isCurrent, moved, Cursor.moved_line, Cursor.moved_index]
  congr 2
  rw [Nat.add_right_comm, Nat.add_le_add_iff_right]

/-! ## Texts -/

theorem takeGap_moved (margin : Option Nat) (limit : Nat) (g : Gap) (c : Cursor) :
    takeGap margin limit g (c.moved i) =
      (takeGap margin limit g c).map fun (g, c) => (g, c.moved i) := by
  induction limit generalizing g c with
  | zero => rfl
  | succ limit ih =>
    simp only [takeGap, Cursor.moved_rest, Cursor.moved_column, Cursor.moved_skip,
      Cursor.moved_skipBreak, ih]
    split
    · rfl
    · split_ifs <;> first | rfl | contradiction

def Plain.moved (p : Plain) (i : Nat) : Plain :=
  { p with next := p.next.moved i }

theorem takePlain_moved (inFlow : Bool) (margin limit : Nat) (gap : Gap) (c : Cursor) :
    takePlain inFlow margin limit gap (c.moved i) =
      (takePlain inFlow margin limit gap c).map (·.moved i) := by
  induction limit generalizing gap c with
  | zero => rfl
  | succ limit ih =>
    simp only [takePlain, Cursor.moved_rest, Cursor.moved_atDelimiter, Cursor.moved_skip,
      takeGap_moved]
    split
    · rfl
    · cases takeWord inFlow c.rest with
      | none => rfl
      | some word =>
        simp only [Option.bind_eq_bind, Option.bind_some]
        split
        · rfl
        · cases takeGap (some margin) ((c.skip word.length).rest.length + 1) {}
              (c.skip word.length) with
          | none => rfl
          | some found =>
            -- Both cursors are moved by the same, so they meet as before.
            simp only [Option.map_some, Option.bind_some, Cursor.moved_index, Cursor.moved_column,
              Nat.add_right_cancel_iff, ih]
            cases takePlain inFlow margin limit found.1 found.2 <;>
              split_ifs <;> first | rfl | contradiction

theorem takeQuotedRun_moved (double : Bool) (limit : Nat) (c : Cursor) :
    takeQuotedRun double limit (c.moved i) =
      (takeQuotedRun double limit c).map fun (xs, joined, c) => (xs, joined, c.moved i) := by
  induction limit generalizing c with
  | zero => rfl
  | succ limit ih =>
    simp only [takeQuotedRun, Cursor.moved_rest, Cursor.moved_skip, Cursor.moved_skipBreak, ih]
    cases quotedStep double c.rest with
    | char x n =>
      dsimp only
      cases takeQuotedRun double limit (c.skip n) <;> rfl
    | join => rfl
    | stop => rfl
    | bad => rfl

theorem takeQuotedGap_moved (joined : Bool) (c : Cursor) :
    takeQuotedGap joined (c.moved i) =
      (takeQuotedGap joined c).map fun (text, c) => (text, c.moved i) := by
  simp only [takeQuotedGap, Cursor.moved_rest, takeGap_moved]
  cases joined with
  | true => cases takeGap none (c.rest.length + 1) { breaks := ['\n'] } c <;> rfl
  | false => cases takeGap none (c.rest.length + 1) {} c <;> rfl

theorem takeQuoted_moved (double : Bool) (limit : Nat) (c : Cursor) :
    takeQuoted double limit (c.moved i) =
      (takeQuoted double limit c).map fun (text, c) => (text, c.moved i) := by
  induction limit generalizing c with
  | zero => rfl
  | succ limit ih =>
    simp only [takeQuoted, Cursor.moved_rest, Cursor.moved_atDelimiter, takeQuotedRun_moved]
    split
    · rfl
    · cases takeQuotedRun double (c.rest.length + 1) c with
      | none => rfl
      | some run =>
        obtain ⟨run, joined, c⟩ := run
        simp only [Option.map_some, Option.bind_eq_bind, Option.bind_some, Cursor.moved_rest,
          Cursor.moved_skip, takeQuotedGap_moved]
        generalize (if double = true then '"' else '\'') = quote
        split
        · rfl
        · split
          · rfl
          · cases takeQuotedGap joined c with
            | none => rfl
            | some gap =>
              simp only [Option.map_some, Option.bind_some, ih]
              cases takeQuoted double limit gap.2 <;> rfl

/-! ## Tokens -/

namespace Scanner

/-- The scanner with `i` more characters before its place. -/
def moved (s : Scanner) (i : Nat) : Scanner :=
  { s with
    cursor := s.cursor.moved i
    possible := s.possible.map (·.moved i)
    outerKeys := s.outerKeys.map (Option.map (·.moved i)) }

@[simp] theorem moved_cursor : (s.moved i).cursor = s.cursor.moved i := rfl

@[simp] theorem moved_tokens : (s.moved i).tokens = s.tokens := rfl

@[simp] theorem moved_outerIndents : (s.moved i).outerIndents = s.outerIndents := rfl

@[simp] theorem moved_keyAllowed : (s.moved i).keyAllowed = s.keyAllowed := rfl

@[simp] theorem moved_indent : (s.moved i).indent = s.indent := rfl

@[simp] theorem moved_inFlow : (s.moved i).inFlow = s.inFlow := by
  simp [inFlow, moved]

@[simp] theorem moved_insertAt (n : Nat) (t : Token) :
    (s.moved i).insertAt n t = (s.insertAt n t).moved i := rfl

@[simp] theorem moved_skip (n : Nat) : (s.moved i).skip n = (s.skip n).moved i := by
  simp [skip, moved]

theorem ite_moved {p : Prop} [Decidable p] {x y x' y' : Option Scanner}
    (hx : x' = x.map (·.moved i)) (hy : y' = y.map (·.moved i)) :
    (if p then x' else y') = (if p then x else y).map (·.moved i) := by
  split <;> assumption

theorem bind_moved {x x' : Option Scanner} {f : Scanner → Option Scanner}
    (hx : x' = x.map (·.moved i)) (hf : ∀ s, f (s.moved i) = (f s).map (·.moved i)) :
    x'.bind f = (x.bind f).map (·.moved i) := by
  rw [hx]
  cases x with
  | none => rfl
  | some s => exact hf s

theorem toNext_moved (limit : Nat) (s : Scanner) :
    (s.moved i).toNext limit = (s.toNext limit).moved i := by
  induction limit generalizing s with
  | zero => rfl
  | succ limit ih =>
    have hbreak : ∀ allowed : Bool, ({ s.moved i with
        cursor := s.cursor.skipBreak.moved i, keyAllowed := allowed } : Scanner) =
          ({ s with cursor := s.cursor.skipBreak, keyAllowed := allowed } : Scanner).moved i :=
      fun _ => rfl
    simp only [toNext, moved_cursor, Cursor.moved_rest, moved_inFlow, moved_keyAllowed, moved_skip,
      Cursor.moved_skipBreak, hbreak, ih]
    split
    · rfl
    · split_ifs <;> rfl

theorem closeBlocks_moved (column : Int) (outer : List Int) (s : Scanner) :
    (s.moved i).closeBlocks column outer = (s.closeBlocks column outer).moved i := by
  induction outer generalizing s with
  | nil => rfl
  | cons n ns ih =>
    rw [closeBlocks, closeBlocks, moved_indent]
    split
    · exact ih { s.emit .blockEnd with indent := n, outerIndents := ns }
    · rfl

theorem unroll_moved (column : Int) : (s.moved i).unroll column = (s.unroll column).moved i := by
  rw [unroll, unroll, moved_inFlow, moved_outerIndents, closeBlocks_moved]
  split <;> rfl

theorem roll_moved (column position : Nat) (start : Token) :
    (s.moved i).roll column position start = (s.roll column position start).moved i := by
  rw [roll, roll, moved_inFlow, moved_indent, moved_insertAt]
  split <;> rfl

theorem rollHere_moved (start : Token) :
    (s.moved i).rollHere start = (s.rollHere start).moved i :=
  roll_moved _ _ _

theorem dropKey_moved : (s.moved i).dropKey = s.dropKey.map (·.moved i) := by
  obtain ⟨cursor, tokens, indent, outerIndents, possible, outerKeys, keyAllowed⟩ := s
  cases possible with
  | none => rfl
  | some k =>
    simp only [dropKey, moved, Option.map_some, PossibleKey.moved]
    split <;> rfl

theorem noteKey_moved : (s.moved i).noteKey = s.noteKey.map (·.moved i) := by
  rw [noteKey, noteKey, moved_keyAllowed]
  split
  · rw [dropKey_moved]
    cases s.dropKey with
    | none => rfl
    | some s => simp [moved, inFlow, PossibleKey.moved]
  · rfl

theorem currentKey_moved :
    (s.moved i).currentKey = s.currentKey.map (Option.map (·.moved i)) := by
  obtain ⟨cursor, tokens, indent, outerIndents, possible, outerKeys, keyAllowed⟩ := s
  cases possible with
  | none => rfl
  | some k =>
    simp only [currentKey, moved, Option.map_some, PossibleKey.moved_isCurrent]
    split_ifs <;> first | rfl | contradiction

theorem openFlow_moved (t : Token) : (s.moved i).openFlow t = (s.openFlow t).map (·.moved i) :=
  bind_moved noteKey_moved fun s => by simp [moved, emit, skip]

theorem closeFlow_moved (t : Token) :
    (s.moved i).closeFlow t = (s.closeFlow t).map (·.moved i) := by
  refine bind_moved dropKey_moved fun s => ?_
  obtain ⟨cursor, tokens, indent, outerIndents, possible, outerKeys, keyAllowed⟩ := s
  cases outerKeys <;> simp [moved, emit, skip]

theorem takeFlowEntry_moved : (s.moved i).takeFlowEntry = s.takeFlowEntry.map (·.moved i) :=
  bind_moved dropKey_moved fun s => by simp [moved, emit, skip]

theorem takeBlockEntry_moved :
    (s.moved i).takeBlockEntry = s.takeBlockEntry.map (·.moved i) := by
  rw [takeBlockEntry, takeBlockEntry, moved_inFlow, moved_keyAllowed, rollHere_moved]
  refine ite_moved rfl (bind_moved dropKey_moved fun s => ?_)
  simp [moved, emit, skip]

theorem takeKey_moved : (s.moved i).takeKey = s.takeKey.map (·.moved i) := by
  rw [takeKey, takeKey, moved_inFlow, moved_keyAllowed, rollHere_moved]
  refine ite_moved rfl (bind_moved dropKey_moved fun s => ?_)
  simp [moved, emit, skip, inFlow]

theorem takeValue_moved : (s.moved i).takeValue = s.takeValue.map (·.moved i) := by
  rw [takeValue, takeValue, currentKey_moved]
  cases s.currentKey with
  | none => rfl
  | some k =>
    cases k with
    | none =>
      simp only [Option.map_some, Option.map_none, Option.bind_eq_bind, Option.bind_some,
        moved_inFlow, moved_keyAllowed, rollHere_moved]
      split
      · rfl
      · simp [moved, emit, skip, inFlow]
    | some k =>
      simp only [Option.map_some, Option.bind_eq_bind, Option.bind_some, moved_insertAt,
        PossibleKey.moved, roll_moved]
      simp [moved, emit, skip]

theorem takeDelimiter_moved (t : Token) :
    (s.moved i).takeDelimiter t = (s.takeDelimiter t).map (·.moved i) := by
  rw [takeDelimiter, takeDelimiter, unroll_moved]
  refine bind_moved dropKey_moved fun s => ?_
  simp [moved, emit, skip]

theorem takeQuotedScalar_moved (double : Bool) :
    (s.moved i).takeQuotedScalar double = (s.takeQuotedScalar double).map (·.moved i) := by
  refine bind_moved noteKey_moved fun s => ?_
  simp only [moved_cursor, Cursor.moved_skip, Cursor.moved_rest, takeQuoted_moved]
  cases takeQuoted double ((s.cursor.skip 1).rest.length + 1) (s.cursor.skip 1) <;> rfl

theorem takePlainScalar_moved :
    (s.moved i).takePlainScalar = s.takePlainScalar.map (·.moved i) := by
  refine bind_moved noteKey_moved fun s => ?_
  simp only [moved_cursor, moved_inFlow, moved_indent, Cursor.moved_rest, takePlain_moved]
  cases takePlain s.inFlow (s.indent + 1).toNat (s.cursor.rest.length + 1) {} s.cursor <;> rfl

/-- One token. -/
theorem takeToken_moved : (s.moved i).takeToken = s.takeToken.map (·.moved i) := by
  rw [takeToken, takeToken, moved_inFlow]
  refine ite_moved (takeDelimiter_moved _) ?_
  cases hrest : s.cursor.rest with
  | nil => simp only [moved_cursor, Cursor.moved_rest, hrest, Option.map_none]
  | cons x rest =>
    simp only [moved_cursor, Cursor.moved_rest, Cursor.moved_column, hrest]
    refine ite_moved rfl ?_
    refine ite_moved (openFlow_moved _) <| ite_moved (openFlow_moved _) ?_
    refine ite_moved (closeFlow_moved _) <| ite_moved (closeFlow_moved _) ?_
    refine ite_moved takeFlowEntry_moved <| ite_moved takeBlockEntry_moved ?_
    refine ite_moved takeKey_moved <| ite_moved takeValue_moved ?_
    refine ite_moved (takeQuotedScalar_moved _) <| ite_moved (takeQuotedScalar_moved _) ?_
    exact ite_moved takePlainScalar_moved rfl

theorem finish_moved : (s.moved i).finish = s.finish.map (·.moved i) := by
  rw [finish, finish, unroll_moved, dropKey_moved]

/-- All tokens. -/
theorem takeTokens_moved (limit : Nat) (s : Scanner) :
    (s.moved i).takeTokens limit = (s.takeTokens limit).map (·.moved i) := by
  induction limit generalizing s with
  | zero => rfl
  | succ limit ih =>
    simp only [takeTokens, moved_cursor, Cursor.moved_rest, toNext_moved, unroll_moved,
      Cursor.moved_column]
    exact ite_moved finish_moved (bind_moved takeToken_moved ih)

/-- More steps than are needed change nothing. -/
theorem takeTokens_mono {limit limit' : Nat} (h : s.takeTokens limit = some s')
    (hlimit : limit ≤ limit') : s.takeTokens limit' = some s' := by
  induction limit generalizing s limit' with
  | zero => cases h
  | succ limit ih =>
    obtain ⟨more, rfl⟩ := Nat.exists_eq_add_of_le' (Nat.one_le_of_lt hlimit)
    rw [takeTokens] at h ⊢
    split
    · rename_i hempty
      rwa [if_pos hempty] at h
    · rename_i hempty
      rw [if_neg hempty] at h
      obtain ⟨s₁, hs₁, hrest⟩ := Option.bind_eq_some_iff.mp h
      rw [hs₁]
      exact ih hrest (Nat.le_of_succ_le_succ hlimit)

end Scanner

end DesignCompiler.Yaml
