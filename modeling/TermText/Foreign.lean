import TermText.Text.Basic

/-!
# Foreign objects

A host may hand over an object that is none of the variants of the model. All that is asked of it is
how its class is shown, whether it can be looked up in a table, and which objects it equals.
-/

namespace TermText

/-- An object outside the model. Objects of one class that carry the same number are equal. -/
structure Foreign where
  /-- The name of its class with the module that declares it, as a class is shown. -/
  className : Text
  /-- The name of its class by itself. -/
  kindName : Text
  hashable : Bool
  identity : Nat
  deriving DecidableEq, Repr

namespace Foreign

/-- An object of a class of the host's own, which is shown without a module. -/
def builtin (kindName : Text) (hashable : Bool) (identity : Nat) : Foreign :=
  ⟨kindName, kindName, hashable, identity⟩

end Foreign

/-- A class as it is shown in a message. -/
def describeClass (className : Text) : Text :=
  "<class '" ++ className ++ "'>"

end TermText
