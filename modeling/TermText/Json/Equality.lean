import TermText.Binary64.Number
import TermText.Json.Basic

/-!
# Equality of document values

Numbers are equal if they denote the same, whatever their kinds, truth values being zero and one.
The NaN of documents is one value and equals itself. Lists are equal item by item, objects key by
key in any order.
-/

namespace TermText.Json

/-- The number that a value is. -/
def number? : Json → Option Number
  | .bool b => some (.int b.toNat)
  | .int n => some (.int n)
  | .float x => some (.double x)
  | _ => none

mutual

/-- Equality of two values. -/
def same : Json → Json → Bool
  | .null, .null => true
  | .text s, .text t => s == t
  | .float .nan, .float .nan => true
  | .list xs, .list ys => sameItems xs ys
  | .object xs, .object ys => xs.length == ys.length && sameFields xs ys
  | v, w =>
    match v.number?, w.number? with
    | some m, some n => m.sameValue n
    | _, _ => false

/-- Equality item by item. -/
def sameItems : List Json → List Json → Bool
  | [], [] => true
  | x :: xs, y :: ys => same x y && sameItems xs ys
  | _, _ => false

/-- Whether each field has its equal among others. -/
def sameFields : List (Text × Json) → Fields → Bool
  | [], _ => true
  | (key, x) :: rest, others =>
    (match others.get? key with
    | some y => same x y
    | none => false) && sameFields rest others

end

/-- Whether a value can be a key. -/
def isKey : Json → Bool
  | .list _ | .object _ => false
  | _ => true

end TermText.Json
