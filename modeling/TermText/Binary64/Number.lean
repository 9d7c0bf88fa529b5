import TermText.Binary64.Basic

/-!
# Numbers of either kind

An integer of any size or a double. Numbers are compared exactly by what they denote, whatever their
kind.
-/

namespace TermText

/-- A number of either kind. -/
inductive Number where
  | int (n : Int)
  | double (x : Binary64)
  deriving DecidableEq, Repr

namespace Number

/-- Equality of value, exact across the two kinds. -/
def sameValue : Number → Number → Bool
  | .int m, .int n => m == n
  | .int m, .double y => y.isInt m
  | .double x, .int n => x.isInt n
  | .double x, .double y => x.sameValue y

end Number

end TermText
