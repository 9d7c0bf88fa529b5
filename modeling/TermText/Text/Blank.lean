import TermText.Text.Basic

/-!
# Blank code points

The code points that separate words: the Unicode property White_Space together with the four
information separators U+001C to U+001F.
-/

namespace TermText

/-- A code point that is blank. -/
def CodePoint.isBlank (c : CodePoint) : Bool :=
  let n := c.val
  (0x09 ≤ n && n ≤ 0x0D) || (0x1C ≤ n && n ≤ 0x20) || n == 0x85 || n == 0xA0 || n == 0x1680 ||
    (0x2000 ≤ n && n ≤ 0x200A) || n == 0x2028 || n == 0x2029 || n == 0x202F || n == 0x205F ||
    n == 0x3000

namespace Text

/-- The text without the blanks at its two ends. -/
def strip (t : Text) : Text :=
  ((t.dropWhile CodePoint.isBlank).reverse.dropWhile CodePoint.isBlank).reverse

/-- A text of blanks only. -/
def isBlank (t : Text) : Bool :=
  t.all CodePoint.isBlank

end Text

end TermText
