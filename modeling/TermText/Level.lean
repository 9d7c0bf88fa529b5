import TermText.Name.Encode

/-!
# Universe levels

Universe levels and their encoding. Parameters and metavariables of one name are encoded alike.
-/

namespace TermText

/-- A universe level. `imax u v` is zero whenever `v` is, and `max u v` otherwise. -/
inductive Level where
  | zero
  | succ (level : Level)
  | max (lhs rhs : Level)
  | imax (lhs rhs : Level)
  | param (name : Name)
  | metaVar (name : Name)
  | foreign (f : Foreign)
  deriving Repr

namespace Level

/-- Equality of two levels. -/
def same : Level → Level → Bool
  | .zero, .zero => true
  | .succ l, .succ l' => l.same l'
  | .max a b, .max a' b' => a.same a' && b.same b'
  | .imax a b, .imax a' b' => a.same a' && b.same b'
  | .param name, .param name' => name.same name'
  | .metaVar name, .metaVar name' => name.same name'
  | .foreign f, .foreign f' => f == f'
  | _, _ => false

/-- Why a value gives no level: it lies below zero, is not compared with zero, or counts nothing. -/
inductive NumberError where
  | negative (given : Json)
  | notOrdered (error : Json.OrderError)
  | notCounting (kindName : Text)

/-- The wording of the refusal of a value. -/
def NumberError.message : NumberError → Text
  | .negative given => Json.messageWith "level must be non-negative, got " given.label
  | .notOrdered error => error.message
  | .notCounting kindName => "'" ++ kindName ++ "' object cannot be interpreted as an integer"

/-- The `n`-fold successor of zero. -/
def ofNat : Nat → Level
  | 0 => .zero
  | n + 1 => .succ (ofNat n)

/-- The level that a value gives. A double counts nothing, even a whole one. -/
def ofJson (given : Json) : Except NumberError Level :=
  match given.isBelowZero, given with
  | .error e, _ => .error (.notOrdered e)
  | .ok true, _ => .error (.negative given)
  | .ok false, .int n => .ok (ofNat n.toNat)
  | .ok false, .bool b => .ok (ofNat b.toNat)
  | .ok false, _ => .error (.notCounting given.kindName)

/-- The encoding of a level within another one. -/
def encodeBody : Level → Except EncodeError Value
  | .zero => .ok (.tagged .zero [])
  | .succ l => do
    let v ← l.encodeBody
    .ok (.tagged .succ [v])
  | .max a b => do
    let (x, y) ← Encoding.pair a.encodeBody b.encodeBody
    .ok (.tagged .max [x, y])
  | .imax a b => do
    let (x, y) ← Encoding.pair a.encodeBody b.encodeBody
    .ok (.tagged .imax [x, y])
  | .param name => name.encode
  | .metaVar name => name.encode
  | .foreign f => .error (.level f)

/-- The encoding of a level by itself. -/
def encode (l : Level) : Except EncodeError Value := do
  let v ← l.encodeBody
  .ok (.tagged .level [v])

end Level

end TermText
