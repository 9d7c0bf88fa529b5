import TermText.Binary64.Read
import TermText.Json.Describe

/-!
# Numbers that document values give

What a document value gives where an integer or a double is due, and whether it lies below zero.
Truth values count as zero and one, and a text gives the number that it spells.
-/

namespace TermText.Json

/-- Why a value gives no integer. -/
inductive IntegerError where
  | notANumber (kindName : Text)
  | numeral (error : Numeral.Error)
  | truncation (error : Binary64.TruncationError)
  deriving DecidableEq, Repr

/-- The wording of a failure to give an integer. -/
def IntegerError.message : IntegerError → Text
  | .notANumber kindName =>
    "int() argument must be a string, a bytes-like object or a real number, not '" ++ kindName ++
      "'"
  | .numeral error => error.message
  | .truncation error => error.message

/-- The integer that a value gives: the integer part of a number, or what a text spells. -/
def integer : Json → Except IntegerError Int
  | .bool b => .ok b.toNat
  | .int n => .ok n
  | .float x => x.truncate.mapError .truncation
  | .text t => (Numeral.readInt t).mapError .numeral
  | value => .error (.notANumber value.kindName)

/-- Why a value gives no double. -/
inductive DoubleError where
  | notANumber (kindName : Text)
  | tooLarge
  | notADecimal (given : Text)
  deriving DecidableEq, Repr

/-- The wording of a failure to give a double. -/
def DoubleError.message : DoubleError → Text
  | .notANumber kindName =>
    "float() argument must be a string or a real number, not '" ++ kindName ++ "'"
  | .tooLarge => "int too large to convert to float"
  | .notADecimal given => "could not convert string to float: " ++ given.quoted

/-- The double nearest to an integer. -/
def doubleOfInt (n : Int) : Except DoubleError Binary64 :=
  match Finite64.ofInt? n with
  | some x => .ok (.finite x)
  | none => .error .tooLarge

/-- The double that a value gives: the one nearest to a number, or what a text spells. -/
def double : Json → Except DoubleError Binary64
  | .bool b => doubleOfInt b.toNat
  | .int n => doubleOfInt n
  | .float x => .ok x
  | .text t =>
    match Binary64.read? t with
    | some x => .ok x
    | none => .error (.notADecimal t)
  | value => .error (.notANumber value.kindName)

/-- A kind whose values are not compared with numbers. -/
structure OrderError where
  kindName : Text
  deriving DecidableEq, Repr

/-- The wording of a failure to compare. -/
def OrderError.message (e : OrderError) : Text :=
  "'<' not supported between instances of '" ++ e.kindName ++ "' and 'int'"

/-- Whether a number lies below zero; no other value is compared. -/
def isBelowZero : Json → Except OrderError Bool
  | .bool _ => .ok false
  | .int n => .ok (decide (n < 0))
  | .float x => .ok x.isBelowZero
  | value => .error ⟨value.kindName⟩

end TermText.Json
