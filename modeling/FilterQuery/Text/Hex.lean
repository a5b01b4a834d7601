/-!
# Hexadecimal digits

The digits `0` to `9` and `a` to `f`. `hexDigit` writes them in lower case, `hexValue?` reads them
in both cases; main statement `hexValue?_hexDigit`: reading undoes writing.
-/

set_option autoImplicit false

namespace FilterQuery.Text

/-- The lower case hexadecimal digit of a number below 16. -/
def hexDigit (n : Nat) : Char := if n < 10 then Char.ofNat (48 + n) else Char.ofNat (87 + n)

/-- The value of a hexadecimal digit. -/
def hexValue? (c : Char) : Option Nat :=
  let n := c.toNat
  if 48 ≤ n ∧ n < 58 then some (n - 48)
  else if 97 ≤ n ∧ n < 103 then some (n - 87)
  else if 65 ≤ n ∧ n < 71 then some (n - 55)
  else none

theorem hexValue?_hexDigit : ∀ n < 16, hexValue? (hexDigit n) = some n := by
  decide

end FilterQuery.Text
