import TermText.Text.Numeral

/-!
# Double-precision numbers

A finite double is a whole number of units, the unit being 2^-1074: its mantissa times a power of
two. All arithmetic on doubles is arithmetic on units, exact and in integers. The mantissa is as
large as the format allows, so two finite doubles of one value differ in the sign of zero at most.
-/

namespace TermText

/-- A finite double: `mantissa * 2 ^ exponent` units with a sign. -/
structure Finite64 where
  negative : Bool
  mantissa : Nat
  exponent : Nat
  bounded : mantissa < Nat.pow 2 53 ∧ exponent ≤ 2045 ∧ (exponent = 0 ∨ Nat.pow 2 52 ≤ mantissa)
  deriving DecidableEq, Repr

namespace Finite64

/-- This many units make one. -/
def unitsPerOne : Nat := Nat.pow 2 1074

/-- The number of units, without the sign. -/
def magnitude (x : Finite64) : Nat :=
  x.mantissa * Nat.pow 2 x.exponent

/-- The number of units. -/
def units (x : Finite64) : Int :=
  if x.negative then -(x.magnitude : Int) else x.magnitude

/-- Zero of either sign. -/
def zero (negative : Bool) : Finite64 :=
  ⟨negative, 0, 0, by decide⟩

/-- The finite double with given parts, if these are in range. -/
def ofParts? (negative : Bool) (mantissa exponent : Nat) : Option Finite64 :=
  if h : mantissa < Nat.pow 2 53 ∧ exponent ≤ 2045 ∧ (exponent = 0 ∨ Nat.pow 2 52 ≤ mantissa) then
    some ⟨negative, mantissa, exponent, h⟩
  else none

/-- The quotient of two naturals rounded to the nearest natural, a half going to the even one. -/
def roundQuotient (numerator denominator : Nat) : Nat :=
  let q := numerator / denominator
  let r := numerator % denominator
  if 2 * r < denominator ∨ (2 * r = denominator ∧ q % 2 = 0) then q else q + 1

/-- The double nearest to `numerator / denominator` units, a half going to the even mantissa;
`none` if that lies beyond the largest finite double. -/
def nearest? (negative : Bool) (numerator denominator : Nat) : Option Finite64 :=
  let exponent := (numerator / denominator).log2 - 52
  let mantissa := roundQuotient numerator (denominator * Nat.pow 2 exponent)
  if mantissa = Nat.pow 2 53 then ofParts? negative (Nat.pow 2 52) (exponent + 1)
  else ofParts? negative mantissa exponent

/-- The double nearest to an integer, unless it is too large. -/
def ofInt? (n : Int) : Option Finite64 :=
  nearest? (decide (n < 0)) (n.natAbs * unitsPerOne) 1

/-- The integer part, rounded toward zero. -/
def truncate (x : Finite64) : Int :=
  let whole : Int := (x.magnitude / unitsPerOne : Nat)
  if x.negative then -whole else whole

/-- Equality of value: the two zeros are equal. -/
def sameValue (x y : Finite64) : Bool :=
  x.units == y.units

/-- Equality with an integer. -/
def isInt (x : Finite64) (n : Int) : Bool :=
  x.units == n * (unitsPerOne : Int)

end Finite64

/-- A double-precision number. -/
inductive Binary64 where
  | nan
  | infinite (negative : Bool)
  | finite (value : Finite64)
  deriving DecidableEq, Repr

namespace Binary64

/-- Equality of value: the two zeros are equal, and a NaN equals nothing. -/
def sameValue : Binary64 → Binary64 → Bool
  | .infinite s, .infinite t => s == t
  | .finite x, .finite y => x.sameValue y
  | _, _ => false

/-- Equality with an integer. -/
def isInt : Binary64 → Int → Bool
  | .finite x, n => x.isInt n
  | _, _ => false

/-- Whether a double lies below zero; neither a zero nor a NaN does. -/
def isBelowZero : Binary64 → Bool
  | .nan => false
  | .infinite negative => negative
  | .finite x => x.units < 0

/-- Why a double has no integer part. -/
inductive TruncationError where
  | nan
  | infinite
  deriving DecidableEq, Repr

/-- The wording of a failure to take an integer part. -/
def TruncationError.message : TruncationError → Text
  | .nan => "cannot convert float NaN to integer"
  | .infinite => "cannot convert float infinity to integer"

/-- The integer part, rounded toward zero. -/
def truncate : Binary64 → Except TruncationError Int
  | .nan => .error .nan
  | .infinite _ => .error .infinite
  | .finite x => .ok x.truncate

/-- The double nearest to `digits * 10 ^ exponent`; infinite beyond the largest finite one. -/
def ofDecimal (negative : Bool) (digits : Nat) (exponent : Int) : Binary64 :=
  let order : Int := (Numeral.ofNat digits).length + exponent
  if digits = 0 ∨ order < -400 then .finite (.zero negative)
  else if 400 < order then .infinite negative
  else
    match Finite64.nearest? negative (digits * Nat.pow 10 exponent.toNat * Finite64.unitsPerOne)
      (Nat.pow 10 (-exponent).toNat) with
    | some x => .finite x
    | none => .infinite negative

end Binary64

end TermText
