import DesignCompiler.Text.Hidden

/-!
# DesignCompiler — quoted text in messages

A message that names a text of the user shows it between double quotes, with everything escaped
that could not be told apart on a terminal.

* `quoted` — the text between quotes;
* `escapeShown` — one character of it.
-/

namespace DesignCompiler.Text

/-- A number's hexadecimal digits in lower case. -/
def hexDigits (n : Nat) : List Char :=
  Nat.toDigits 16 n

/-- One character as a message shows it: control characters by name where they have one, characters
that leave no mark by their code point, the quote and the backslash behind a backslash. -/
def escapeShown (c : Char) : List Char :=
  match c with
  | '\x00' => ['\\', '0']
  | '\t' => ['\\', 't']
  | '\r' => ['\\', 'r']
  | '\n' => ['\\', 'n']
  | '\\' => ['\\', '\\']
  | '"' => ['\\', '"']
  | c => if isHidden c then ['\\', 'u', '\x7b'] ++ hexDigits c.toNat ++ ['\x7d'] else [c]

/-- A text between double quotes, its characters escaped where they have to be. -/
def quoted (s : String) : String :=
  String.ofList (['"'] ++ s.toList.flatMap escapeShown ++ ['"'])

end DesignCompiler.Text
