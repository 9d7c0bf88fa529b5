import TermText.Json.Describe

/-!
# Reaching into document values

A value is asked for a field, for its entries or for what it lists without knowing its kind. If the
kind does not fit or the field is missing, the failure says so.
-/

namespace TermText.Json

/-- Why a value was not reached. -/
inductive AccessError where
  | missing (key : Text)
  | notSubscriptable (kindName : Text)
  | textPosition
  | listPosition
  | noMember (kindName member : Text)
  | notListed (kindName : Text)
  deriving DecidableEq, Repr

/-- The wording of a failure to reach a value. -/
def AccessError.message : AccessError → Text
  | .missing key => key.quoted
  | .notSubscriptable kindName => "'" ++ kindName ++ "' object is not subscriptable"
  | .textPosition => "string indices must be integers, not 'str'"
  | .listPosition => "list indices must be integers or slices, not str"
  | .noMember kindName member => "'" ++ kindName ++ "' object has no attribute '" ++ member ++ "'"
  | .notListed kindName => "'" ++ kindName ++ "' object is not iterable"

/-- The value of a field that must be there. -/
def field (key : Text) : Json → Except AccessError Json
  | .object fields =>
    match Fields.get? fields key with
    | some value => .ok value
    | none => .error (.missing key)
  | .text _ => .error .textPosition
  | .list _ => .error .listPosition
  | value => .error (.notSubscriptable value.kindName)

/-- The fields of a value that must be an object; `member` is what it is asked for. -/
def fieldsFor (member : Text) : Json → Except AccessError Fields
  | .object fields => .ok fields
  | value => .error (.noMember value.kindName member)

/-- What a value lists. -/
def listed (value : Json) : Except AccessError (List Json) :=
  match value.listed? with
  | some items => .ok items
  | none => .error (.notListed value.kindName)

end TermText.Json
