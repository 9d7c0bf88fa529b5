import TermText.Term.Basic

/-!
# Terms with given values

Bound variables, literals and projections are made from document values. A number below zero is
refused where none may stand; a number is kept by its integer part, and one that has none makes a
node that cannot be written. A value in the place of a text is kept as it is.
-/

namespace TermText.Term

/-- Why no node holds a value. -/
inductive NumberError where
  | negativeIndex
  | notNatural (given : Json)
  | notOrdered (error : Json.OrderError)

/-- The wording of the refusal of a value. -/
def NumberError.message : NumberError → Text
  | .negativeIndex => "De Bruijn indices must be non-negative"
  | .notNatural given =>
    Json.messageWith "natural literal must be non-negative, got " given.describe
  | .notOrdered error => error.message

/-- The node that `make` gives for the integer part of a value that does not lie below zero;
`refusal` if it does. -/
def ofMagnitude (id : NodeId) (make : Nat → Term) (refusal : NumberError) (given : Json) :
    Except NumberError Term :=
  match given.isBelowZero with
  | .error e => .error (.notOrdered e)
  | .ok true => .error refusal
  | .ok false =>
    match given.integer with
    | .ok n => .ok (make n.toNat)
    | .error e => .ok (.unwritable id e)

/-- The bound variable whose index a value gives. -/
def boundVarOf (id : NodeId) (given : Json) : Except NumberError Term :=
  ofMagnitude id (.boundVar id) .negativeIndex given

/-- The literal of the natural number that a value gives. A truth value gives none. -/
def naturalOf (id : NodeId) : Json → Except NumberError Term
  | .bool b => .error (.notNatural (.bool b))
  | given => ofMagnitude id (.natural id) (.notNatural given) given

/-- The projection whose index a value gives. -/
def projOf (id : NodeId) (typeName : Name) (given : Json) (struct : Term) : Term :=
  match given.integer with
  | .ok index => .proj id typeName index struct
  | .error e => .unwritableProj id typeName e struct

/-- The literal of the text that a value is. -/
def textOf (id : NodeId) : Json → Term
  | .text t => .text id t
  | value => .document id value

end TermText.Term
