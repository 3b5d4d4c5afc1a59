import DesignCompiler.Json.Source

/-!
# DesignCompiler — strings of JSON, read back

A string is written with some characters behind a backslash, and each of them is read as the
character that it was.

* `Piece.ofChar` — a character as the reader finds it;
* `takePieces_escapeChar` — one character, whatever follows it;
* `takeString_escaped` — a string from behind its opening quote on.
-/

namespace DesignCompiler.Json

/-- The piece that an escaped character is read as. Control characters without a letter are
written with their code point. -/
def Piece.ofChar (c : Char) : Piece :=
  if c.toNat < 32 ∧ c ∉ ['\x08', '\t', '\n', '\x0c', '\r'] then .unit c.toNat else .char c

/-- The last two of the four digits of a control character. -/
def unitDigits (n : Nat) : List Char :=
  if n < 16 then '0' :: Text.hexDigits n else Text.hexDigits n

/-- The digits of a control character spell its code point. -/
theorem exists_unitDigits {n : Nat} (h : n < 32) :
    ∃ a b, unitDigits n = [a, b] ∧ hexUnit? '0' '0' a b = some n := by
  have hall : ∀ n < 32, unitDigits n = [(unitDigits n).getD 0 '0', (unitDigits n).getD 1 '0'] ∧
      hexUnit? '0' '0' ((unitDigits n).getD 0 '0') ((unitDigits n).getD 1 '0') = some n := by decide
  exact ⟨_, _, hall n h⟩

theorem takePieces_unit {n : Nat} (h : n < 32) (rest : List Char) :
    takePieces (['\\', 'u', '0', '0'] ++ unitDigits n ++ rest) =
      (.unit n :: (takePieces rest).1, (takePieces rest).2) := by
  obtain ⟨a, b, hdigits, hunit⟩ := exists_unitDigits h
  rw [hdigits]
  simp only [List.cons_append, List.nil_append, takePieces, hunit]

theorem takePieces_char {c : Char} (hquote : c ≠ '"') (hslash : c ≠ '\\') (hc : ¬c.toNat < 32)
    (rest : List Char) :
    takePieces (c :: rest) = (.char c :: (takePieces rest).1, (takePieces rest).2) := by
  rw [takePieces, if_neg hc]
  · exact hquote
  -- the other patterns begin with a backslash
  all_goals
    intros
    exact hslash ‹_›

/-- An escaped character is one piece. -/
theorem takePieces_escapeChar (c : Char) (rest : List Char) :
    takePieces (escapeChar c ++ rest) =
      (Piece.ofChar c :: (takePieces rest).1, (takePieces rest).2) := by
  unfold escapeChar
  split
  case h_8 _ hquote hslash h8 h9 h10 h12 h13 =>
    have hletter : c ∉ ['\x08', '\t', '\n', '\x0c', '\r'] := by
      simp only [List.mem_cons, List.not_mem_nil, or_false, not_or]
      exact ⟨h8, h9, h10, h12, h13⟩
    by_cases hcontrol : c.toNat < 32
    · have hpiece : Piece.ofChar c = .unit c.toNat := if_pos ⟨hcontrol, hletter⟩
      rw [hpiece, ← takePieces_unit hcontrol rest, unitDigits]
      split <;> rfl
    · have hpiece : Piece.ofChar c = .char c := if_neg fun h => hcontrol h.1
      rw [if_neg (by omega), if_neg hcontrol, hpiece]
      exact takePieces_char hquote hslash hcontrol rest
  -- the others are written with a letter
  all_goals rfl

theorem joinPieces_ofChar (c : Char) (ps : List Piece) :
    joinPieces (Piece.ofChar c :: ps) = (joinPieces ps).map (c :: ·) := by
  unfold Piece.ofChar
  split
  · rename_i h
    have hhigh : isHighSurrogate c.toNat = false := by simp [isHighSurrogate]; omega
    have hlow : isLowSurrogate c.toNat = false := by simp [isLowSurrogate]; omega
    cases ps with
    | nil => simp [joinPieces, hhigh, hlow]
    | cons p ps => cases p <;> simp [joinPieces, hhigh, hlow]
  · rfl

theorem takePieces_escaped (cs rest : List Char) :
    takePieces (cs.flatMap escapeChar ++ '"' :: rest) = (cs.map Piece.ofChar, .ok rest) := by
  induction cs with
  | nil => rfl
  | cons c cs ih => rw [List.flatMap_cons, List.append_assoc, takePieces_escapeChar, ih, List.map_cons]

theorem joinPieces_map_ofChar (cs : List Char) : joinPieces (cs.map Piece.ofChar) = some cs := by
  induction cs with
  | nil => rfl
  | cons c cs ih => rw [List.map_cons, joinPieces_ofChar, ih, Option.map_some]

/-- **Strings read back**, whatever follows them. -/
theorem takeString_escaped (s : String) (rest : List Char) :
    takeString (s.toList.flatMap escapeChar ++ '"' :: rest) = .ok (some s, rest) := by
  simp only [takeString, takePieces_escaped, joinPieces_map_ofChar, Option.map_some,
    String.ofList_toList]
  rfl

end DesignCompiler.Json
