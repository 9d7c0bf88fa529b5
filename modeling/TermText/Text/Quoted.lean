import TermText.Text.Hexadecimal
import TermText.Text.Printable

/-!
# Quoted texts in messages

A text in a message stands between single quotes, or between double quotes if it holds a single
quote and no double quote. The quote in use, the backslash and all that does not print are escaped.
-/

namespace TermText.Text

/-- The quote that goes around a text. -/
def quoteMark (t : Text) : CodePoint :=
  if t.contains (CodePoint.ofChar '\'') && !t.contains (CodePoint.ofChar '"') then
    CodePoint.ofChar '"'
  else CodePoint.ofChar '\''

/-- One code point of a text between the given quotes. -/
def quoteCodePoint (mark c : CodePoint) : Text :=
  if c = mark ∨ c = CodePoint.ofChar '\\' then [CodePoint.ofChar '\\', c]
  else if c = CodePoint.ofChar '\n' then "\\n"
  else if c = CodePoint.ofChar '\r' then "\\r"
  else if c = CodePoint.ofChar '\t' then "\\t"
  else if c.isPrintable then [c]
  else if c.val < 0x100 then "\\x" ++ Hexadecimal.ofNat 2 c.val
  else if c.val < 0x10000 then "\\u" ++ Hexadecimal.ofNat 4 c.val
  else "\\U" ++ Hexadecimal.ofNat 8 c.val

/-- The text as it stands in a message. -/
def quoted (t : Text) : Text :=
  let mark := t.quoteMark
  [mark] ++ t.flatMap (quoteCodePoint mark) ++ [mark]

end TermText.Text
