/-!
Hexadecimal digits: written in lower case, and read in either.
-/

namespace FieldQuery.Text

def hexDigit (n : Nat) : Char := (Nat.toDigits 16 n).headD '0'

def hexValue? (c : Char) : Option Nat :=
  if c.isDigit then some (c.toNat - '0'.toNat)
  else if 'a' ≤ c ∧ c ≤ 'f' then some (c.toNat - 'a'.toNat + 10)
  else if 'A' ≤ c ∧ c ≤ 'F' then some (c.toNat - 'A'.toNat + 10)
  else none

theorem hexValue?_hexDigit : ∀ n < 16, hexValue? (hexDigit n) = some n := by decide

end FieldQuery.Text
