import TermText.Foreign
import TermText.Name.Basic

/-!
# Names from document values

Names are made from dotted texts and from document values. A value of a kind that does not fit is
refused, and the refusal says which kind or value was found.
-/

namespace TermText.Name

/-- Why a value was not read as a name or a segment. -/
inductive Error where
  | notText (kindName : Text)
  | notNatural (given : Json)
  | notDotted (kindName : Text)
  | notListed (kindName : Text)
  | numeral (error : Numeral.Error)
  | unencodable (error : Utf8.EncodeError)

/-- The wording of a refusal. -/
def Error.message : Error → Text
  | .notText kindName => "string segment expected, got " ++ describeClass kindName
  | .notNatural given =>
    Json.messageWith "numeric segment must be a non-negative int, got " given.describe
  | .notDotted kindName => "'" ++ kindName ++ "' object has no attribute 'split'"
  | .notListed kindName => "'" ++ kindName ++ "' object is not iterable"
  | .numeral error => error.message
  | .unencodable error => error.message

/-- That a segment has no default hash, as a refusal. -/
def Error.ofHash : Segment.HashError → Error
  | .numeral error => .numeral error
  | .unencodable error => .unencodable error

/-- The text segment that a value stands for. -/
def textSegment : Json → Except Error Segment
  | .text t => .ok (.text t)
  | value => .error (.notText value.kindName)

/-- The number segment that a value stands for. -/
def numberSegment : Json → Except Error Segment
  | .int (.ofNat n) => .ok (.number n)
  | value => .error (.notNatural value)

/-- The segment that a component stands for: an integer or a truth value is taken for a number, all
else for a text. -/
def componentSegment : Json → Except Error Segment
  | .int n => numberSegment (.int n)
  | .bool b => numberSegment (.bool b)
  | value => textSegment value

/-- The name one segment longer with a given hash; null stands for the default one. -/
def childOrError (parent : Name) (segment : Segment) (hash : Json) : Except Error Name :=
  (parent.child segment hash).mapError .ofHash

/-- The name below another one whose components are given in order. -/
def extendByComponents (parent : Name) : List Json → Except Error Name
  | [] => .ok parent
  | component :: rest => do
    let segment ← componentSegment component
    let name ← childOrError parent segment .null
    extendByComponents name rest

/-- The name whose components a value lists. -/
def ofComponents (value : Json) : Except Error Name :=
  match value.listed? with
  | some components => extendByComponents .anonymous components
  | none => .error (.notListed value.kindName)

/-- The name that a dotted text spells; the empty text spells the anonymous name. -/
def parse (dotted : Text) : Except Error Name :=
  if dotted.isEmpty then .ok .anonymous
  else do
    let segments ← ((dotted.splitOn (CodePoint.ofChar '.')).mapM Segment.ofPart).mapError .numeral
    (extendAll .anonymous segments).mapError .ofHash

/-- The name that a value spells: a text is read as a dotted name, and a value that is nothing
is the anonymous name. -/
def ofDotted : Json → Except Error Name
  | .text dotted => parse dotted
  | value => if value.isVoid then .ok .anonymous else .error (.notDotted value.kindName)

end TermText.Name
