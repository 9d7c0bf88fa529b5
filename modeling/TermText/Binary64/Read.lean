import TermText.Binary64.Basic

/-!
# Reading a double

A double is read from a decimal with an optional point and an optional exponent, or from one of the
words for the values that are not finite, whose letters may be of either case. As in an integer,
there may be blanks around it, the digits may be of any script, and single low lines may stand
between digits. The result is the double nearest to the decimal.
-/

namespace TermText.Binary64

/-- A decimal digit of ASCII. -/
def isDecimalDigit (c : CodePoint) : Bool :=
  0x30 ≤ c.val && c.val ≤ 0x39

/-- The digit values at the start of a text, of which there may be none, and what follows them. -/
def readDigits? (t : Text) : Option (List Nat × Text) :=
  let run := t.takeWhile Numeral.isInRun
  let rest := t.dropWhile Numeral.isInRun
  if run.isEmpty then some ([], rest)
  else (Numeral.digitValues? run).map fun values => (values, rest)

/-- The digit values after a decimal point and what follows them; there may be no point. -/
def readFraction? : Text → Option (List Nat × Text)
  | [] => some ([], [])
  | c :: rest => if c = CodePoint.ofChar '.' then readDigits? rest else some ([], c :: rest)

/-- The exponent at the end of a decimal; no exponent is zero. -/
def readExponent? : Text → Option Int
  | [] => some 0
  | c :: rest =>
    if c = CodePoint.ofChar 'e' ∨ c = CodePoint.ofChar 'E' then
      let (negative, digits) := Numeral.splitSign rest
      (Numeral.digitValues? digits).map fun values =>
        if negative then -(Numeral.ofDigits values : Int) else Numeral.ofDigits values
    else none

/-- The double that a decimal without a sign denotes. -/
def readDecimal? (negative : Bool) (t : Text) : Option Binary64 := do
  let (whole, afterWhole) ← readDigits? t
  let (fraction, afterFraction) ← readFraction? afterWhole
  let exponent ← readExponent? afterFraction
  if whole.isEmpty && fraction.isEmpty then none
  else
    some (ofDecimal negative (Numeral.ofDigits (whole ++ fraction)) (exponent - fraction.length))

/-- The small letter of a capital one of ASCII; any other code point stays. -/
def smallLetter (c : CodePoint) : CodePoint :=
  if 0x41 ≤ c.val ∧ c.val ≤ 0x5A then CodePoint.ofNat (c.val + 0x20) else c

/-- The double that a text denotes. -/
def read? (t : Text) : Option Binary64 :=
  let (negative, body) := Numeral.splitSign (Numeral.trimMargins t)
  let word := body.map smallLetter
  if word = ("nan" : Text) then some .nan
  else if word = ("inf" : Text) ∨ word = ("infinity" : Text) then some (.infinite negative)
  else readDecimal? negative body

end TermText.Binary64
