import TermText.Text.Basic

/-!
# Hexadecimal digits

Fixed-width hexadecimal numerals in lower case, and the value of a digit in either case.
-/

namespace TermText

namespace Hexadecimal

/-- The lower-case digit of a number below sixteen. -/
def digit (n : Nat) : CodePoint :=
  CodePoint.ofNat (if n < 10 then 0x30 + n else 0x57 + n)

/-- The numeral of a given width; digits beyond the width are dropped. -/
def ofNat : (width n : Nat) → Text
  | 0, _ => []
  | width + 1, n => ofNat width (n / 16) ++ [digit (n % 16)]

/-- The value of a digit in either case. -/
def value? (c : CodePoint) : Option Nat :=
  let n := c.val
  if 0x30 ≤ n ∧ n ≤ 0x39 then some (n - 0x30)
  else if 0x41 ≤ n ∧ n ≤ 0x46 then some (n - 0x37)
  else if 0x61 ≤ n ∧ n ≤ 0x66 then some (n - 0x57)
  else none

end Hexadecimal

end TermText
