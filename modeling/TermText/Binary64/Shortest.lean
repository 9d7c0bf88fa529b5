import TermText.Binary64.Basic

/-!
# The text of a double

A double is written with the fewest digits that read back as the same double, and of those with the
digits nearest to it. It is written positionally if its decimal exponent is at least -4 and less
than 16, with an exponent otherwise.
-/

namespace TermText

/-- A decimal number: `digits * 10 ^ exponent`. -/
structure Decimal where
  digits : Nat
  exponent : Int
  deriving DecidableEq, Repr

namespace Finite64

/-- The exponent of the leading decimal digit of a double that is not zero. -/
def decimalExponent (x : Finite64) : Int :=
  ((Numeral.ofNat (x.magnitude * Nat.pow 10 400 / unitsPerOne)).length : Int) - 401

/-- Whether the decimal `digits * 10 ^ exponent` is read back as the magnitude of a double: it lies
between the midpoints to the two neighbours, which are included if the mantissa is even. Below a
power of two the neighbour is nearer by half. All is measured in quarters of a unit. -/
def readsBack (x : Finite64) (d : Decimal) : Bool :=
  let denominator := Nat.pow 10 (-d.exponent).toNat
  let position := 4 * (d.digits * Nat.pow 10 d.exponent.toNat * unitsPerOne)
  let below := if x.mantissa = Nat.pow 2 52 ∧ 0 < x.exponent then 1 else 2
  let low := (4 * x.mantissa - below) * Nat.pow 2 x.exponent * denominator
  let high := (4 * x.mantissa + 2) * Nat.pow 2 x.exponent * denominator
  if x.mantissa % 2 = 0 then low ≤ position && position ≤ high
  else low < position && position < high

/-- The two decimals with a given exponent next to the magnitude of a double, and whether the lower
one is preferred: it is nearer, or equally near and even. -/
def neighbours (x : Finite64) (exponent : Int) : Decimal × Decimal × Bool :=
  let numerator := x.magnitude * Nat.pow 10 (-exponent).toNat
  let denominator := unitsPerOne * Nat.pow 10 exponent.toNat
  let q := numerator / denominator
  let r := numerator % denominator
  (⟨q, exponent⟩, ⟨q + 1, exponent⟩, 2 * r < denominator || (2 * r = denominator && q % 2 = 0))

/-- The decimal with a given exponent that reads back as a double and is nearest to it. -/
def shortestWith? (x : Finite64) (exponent : Int) : Option Decimal :=
  let (lower, upper, preferLower) := x.neighbours exponent
  match x.readsBack lower, x.readsBack upper with
  | true, true => some (if preferLower then lower else upper)
  | true, false => some lower
  | false, true => some upper
  | false, false => none

/-- The decimal of fewest digits that reads back as the magnitude of a double that is not zero. -/
def shortest (x : Finite64) : Decimal :=
  let top := x.decimalExponent
  ((List.range 17).findSome? fun n => x.shortestWith? (top - (n : Nat))).getD
    (x.neighbours (top - 16)).1

/-- A number of zeros. -/
def zeros (n : Nat) : Text :=
  List.replicate n (Numeral.digit 0)

/-- A numeral without the zeros at its end. -/
def trimZeros (t : Text) : Text :=
  (t.reverse.dropWhile (· = Numeral.digit 0)).reverse

/-- The text with the digits `t` (no zero at its end) whose point stands after `point` digits. -/
def positional (t : Text) (point : Int) : Text :=
  if point ≤ 0 then "0." ++ zeros (-point).toNat ++ t
  else if t.length ≤ point.toNat then t ++ zeros (point.toNat - t.length) ++ ".0"
  else t.take point.toNat ++ "." ++ t.drop point.toNat

/-- The text with the digits `t` and an exponent of two digits at least. -/
def scientific (t : Text) (exponent : Int) : Text :=
  let fraction : Text := if t.length ≤ 1 then [] else "." ++ t.drop 1
  let sign : Text := if exponent < 0 then "-" else "+"
  let numeral := Numeral.ofNat exponent.natAbs
  t.take 1 ++ fraction ++ "e" ++ sign ++ zeros (2 - numeral.length) ++ numeral

/-- The text of the magnitude of a double. -/
def magnitudeText (x : Finite64) : Text :=
  if x.mantissa = 0 then "0.0"
  else
    let d := x.shortest
    let numeral := Numeral.ofNat d.digits
    let point : Int := numeral.length + d.exponent
    let digits := trimZeros numeral
    if -4 ≤ point - 1 ∧ point - 1 < 16 then positional digits point
    else scientific digits (point - 1)

/-- The text of a finite double. -/
def toText (x : Finite64) : Text :=
  if x.negative then "-" ++ x.magnitudeText else x.magnitudeText

end Finite64

namespace Binary64

/-- The text of a double. -/
def toText : Binary64 → Text
  | .nan => "nan"
  | .infinite true => "-inf"
  | .infinite false => "inf"
  | .finite x => x.toText

end Binary64

end TermText
