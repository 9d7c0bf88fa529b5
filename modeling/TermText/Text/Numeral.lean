import TermText.Text.Blank
import TermText.Text.Digit
import TermText.Text.Quoted

/-!
# Decimal numerals

Numerals of naturals and integers, and the reading of an integer from a text. A numeral that is read
may have blanks around it, a sign, digits of any script and single low lines between digits; it has
at most `Numeral.digitLimit` digits. The same limit holds for a numeral that is written: every
integer has one here, and an integer that `Fits` has one within the limit.
-/

namespace TermText.Numeral

/-- The decimal digit of a number below ten. -/
def digit (n : Nat) : CodePoint :=
  CodePoint.ofNat (0x30 + n)

/-- The digits of a number in front of a text. -/
def digitsOnto (n : Nat) (rest : Text) : Text :=
  if n < 10 then digit n :: rest else digitsOnto (n / 10) (digit (n % 10) :: rest)

/-- The numeral of a natural number. -/
def ofNat (n : Nat) : Text :=
  digitsOnto n []

/-- The digits in front of a text are decimal digits. -/
theorem mem_digitsOnto {c : CodePoint} {n : Nat} {rest : Text} (h : c ∈ digitsOnto n rest) :
    (∃ d, d < 10 ∧ c = digit d) ∨ c ∈ rest := by
  fun_induction digitsOnto n rest with
  | case1 n rest small =>
    rcases List.mem_cons.1 h with h | h
    · exact .inl ⟨n, small, h⟩
    · exact .inr h
  | case2 n rest large ih =>
    rcases ih h with h | h
    · exact .inl h
    · rcases List.mem_cons.1 h with h | h
      · exact .inl ⟨n % 10, Nat.mod_lt _ (by decide), h⟩
      · exact .inr h

/-- A numeral consists of decimal digits. -/
theorem mem_ofNat {c : CodePoint} {n : Nat} (h : c ∈ ofNat n) : ∃ d, d < 10 ∧ c = digit d := by
  rcases mem_digitsOnto h with h | h
  · exact h
  · cases h

/-- The numeral of an integer. -/
def ofInt : Int → Text
  | .ofNat n => ofNat n
  | .negSucc n => CodePoint.ofChar '-' :: ofNat (n + 1)

/-- The most digits that a numeral may have when it is read or written. -/
def digitLimit : Nat := 4300

/-- The least number whose numeral has more than a number of digits. -/
def boundOf (digits : Nat) : Nat :=
  Nat.pow 10 digits

/-- An integer whose numeral is within the limit. -/
def Fits (n : Int) : Prop :=
  n.natAbs < boundOf digitLimit

/-- Whether an integer is within the limit is decided by comparing. -/
instance (n : Int) : Decidable (Fits n) :=
  Nat.decLt n.natAbs (boundOf digitLimit)

/-- The most code points that a message shows of a text, quotes included. -/
def shownLimit : Nat := 200

/-- Why a text was not read as an integer, or an integer was not written. -/
inductive Error where
  | notANumeral (given : Text)
  | tooManyDigits (count : Nat)
  | tooLong
  deriving DecidableEq, Repr

/-- The wording of a failure to read or to write an integer. -/
def Error.message : Error → Text
  | .notANumeral given =>
    "invalid literal for int() with base 10: " ++ given.quoted.take shownLimit
  | .tooManyDigits count =>
    "Exceeds the limit (4300 digits) for integer string conversion: value has " ++ ofNat count ++
      " digits; use sys.set_int_max_str_digits() to increase the limit"
  | .tooLong =>
    "Exceeds the limit (4300 digits) for integer string conversion; " ++
      "use sys.set_int_max_str_digits() to increase the limit"

/-- The blanks that may surround a numeral: all but the information separators. -/
def isMargin (c : CodePoint) : Bool :=
  c.isBlank && !(0x1C ≤ c.val && c.val ≤ 0x1F)

/-- The text without the blanks around it. -/
def trimMargins (t : Text) : Text :=
  ((t.dropWhile isMargin).reverse.dropWhile isMargin).reverse

/-- The low line, which may stand between two digits. -/
def lowLine : CodePoint := CodePoint.ofChar '_'

/-- A code point that a run of digits may hold: a digit of any script or a low line. -/
def isInRun (c : CodePoint) : Bool :=
  c.decimalValue?.isSome || c = lowLine

/-- The digit values of digits with single low lines between them. -/
def digitValues? : Text → Option (List Nat)
  | [] => none
  | [c] => c.decimalValue?.map fun v => [v]
  | c :: d :: rest =>
    match c.decimalValue?,
      (if d = lowLine then digitValues? rest else digitValues? (d :: rest)) with
    | some v, some values => some (v :: values)
    | _, _ => none

/-- The number that digit values denote, most significant first. -/
def ofDigits (values : List Nat) : Nat :=
  values.foldl (fun n v => 10 * n + v) 0

/-- Whether a text starts with a minus sign, and what follows its sign. -/
def splitSign : Text → Bool × Text
  | [] => (false, [])
  | c :: rest =>
    if c = CodePoint.ofChar '-' then (true, rest)
    else if c = CodePoint.ofChar '+' then (false, rest)
    else (false, c :: rest)

/-- The integer that a text denotes. The digits are counted before the text after them is looked
at. -/
def readInt (t : Text) : Except Error Int :=
  let (negative, body) := splitSign (t.dropWhile isMargin)
  match digitValues? (body.takeWhile isInRun) with
  | none => .error (.notANumeral t)
  | some values =>
    if digitLimit < values.length then .error (.tooManyDigits values.length)
    else if (body.dropWhile isInRun).all isMargin then
      .ok (if negative then -(ofDigits values : Int) else ofDigits values)
    else .error (.notANumeral t)

end TermText.Numeral
