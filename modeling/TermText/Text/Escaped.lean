import TermText.Text.Hexadecimal

/-!
# String tokens

A string token writes any text in ASCII between double quotes. The seven short escapes are used
where they exist; every other code point outside U+0020 to U+007E is written by its 16-bit units.
-/

namespace TermText.Text

/-- The 16-bit units of a code point; above U+FFFF these are two surrogates. -/
def units16 (c : CodePoint) : List Nat :=
  if c.val < 0x10000 then [c.val]
  else [0xD800 + (c.val - 0x10000) / 0x400, 0xDC00 + (c.val - 0x10000) % 0x400]

/-- One 16-bit unit written by its number. -/
def escapeUnit (unit : Nat) : Text :=
  "\\u" ++ Hexadecimal.ofNat 4 unit

/-- One code point within a string token. -/
def escapeCodePoint (c : CodePoint) : Text :=
  if c = CodePoint.ofChar '"' then "\\\""
  else if c = CodePoint.ofChar '\\' then "\\\\"
  else if c = CodePoint.ofChar '\n' then "\\n"
  else if c = CodePoint.ofChar '\r' then "\\r"
  else if c = CodePoint.ofChar '\t' then "\\t"
  else if c.val = 0x08 then "\\b"
  else if c.val = 0x0C then "\\f"
  else if 0x20 ≤ c.val ∧ c.val ≤ 0x7E then [c]
  else (units16 c).flatMap escapeUnit

/-- The string token of a text. -/
def escaped (t : Text) : Text :=
  [CodePoint.ofChar '"'] ++ t.flatMap escapeCodePoint ++ [CodePoint.ofChar '"']

end TermText.Text
