/-!
# DesignCompiler — decimal digits

Identifiers, the numbers of class names and the numerals of both file formats are digits of natural
numbers.

* `isDigit_of_mem_toDigits`, `head?_toDigits` — the digits of a number;
* `digitChar_spec` — a single one.
-/

namespace DesignCompiler

variable {k : Nat}

theorem isDigit_of_mem_toDigits {c : Char} (h : c ∈ Nat.toDigits 10 k) : c.isDigit = true :=
  Nat.isDigit_of_mem_toDigits (by decide) (by decide) h

/-- The digits of a number do not begin with a zero, unless it is zero. -/
theorem head?_toDigits (hk : 0 < k) : (Nat.toDigits 10 k).head? ≠ some '0' := by
  induction k using Nat.strongRecOn with
  | _ k ih =>
    rw [Nat.toDigits_eq_if (by decide)]
    split
    · rename_i hlt
      have hall : ∀ d < 10, 0 < d → d.digitChar ≠ '0' := by decide
      simpa using hall k hlt hk
    · rename_i hge
      -- The first digit is that of the number without its last one.
      have hhead := ih (k / 10) (by omega) (by omega)
      rw [List.head?_append]
      cases hdigits : (Nat.toDigits 10 (k / 10)).head? with
      | none =>
        rw [List.head?_eq_none_iff] at hdigits
        exact absurd hdigits Nat.toDigits_ne_nil
      | some c => exact fun heq => hhead (hdigits.trans heq)

theorem digitChar_spec (hk : k < 10) :
    k.digitChar.isDigit = true ∧ k.digitChar.toNat - '0'.toNat = k ∧ (k.digitChar = '0' ↔ k = 0) := by
  revert k
  decide

end DesignCompiler
