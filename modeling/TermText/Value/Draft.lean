import TermText.Foreign
import TermText.Json.Equality
import TermText.Json.Number
import TermText.Value.Basic

/-!
# Draft values

A host may put anything where a text or an integer literal stands and an integer where a double
stands, or hand over an object that is no value at all. Such a draft is settled into a value when it
is rendered: a text literal of another kind is a document, an integer literal becomes the integer
that it gives, a double literal the double nearest to its number. Drafts are compared by what they
hold, numbers by what they denote whatever their kind.
-/

namespace TermText

/-- A value as a host hands it over. The NaN of documents is one value; `ownNaN` is an integer
literal with a NaN that was made for it alone. -/
inductive Draft where
  | atom (a : Atom)
  | text (given : Json)
  | int (given : Json)
  | ownNaN
  | float (n : Number)
  | list (items : List Draft)
  | foreign (f : Foreign)

namespace Draft

/-- Why a draft was not made or not settled. -/
inductive Error where
  | atom (error : Atom.Error)
  | notText (kindName : Text)
  | notJoined (kindName : Text)
  | notFinite (x : Binary64)
  | tooLarge
  | notReal (kindName : Text)
  | integer (error : Json.IntegerError)
  | unsupported (f : Foreign)

/-- The wording of a failure to make or settle a draft. -/
def Error.message : Error → Text
  | .atom e => e.message
  | .notText kindName => "expected string or bytes-like object, got '" ++ kindName ++ "'"
  | .notJoined kindName => "can only concatenate str (not \"" ++ kindName ++ "\") to str"
  | .notFinite x => "float literal must be finite, got " ++ x.toText
  | .tooLarge => "int too large to convert to float"
  | .notReal kindName => "must be real number, not " ++ kindName
  | .integer e => e.message
  | .unsupported f => "Unsupported value for rendering: " ++ describeClass f.className

/-- The double nearest to a number that is finite. -/
def toFinite : Number → Except Error Finite64
  | .int n =>
    match Finite64.ofInt? n with
    | some x => .ok x
    | none => .error .tooLarge
  | .double (.finite x) => .ok x
  | .double x => .error (.notFinite x)

/-- The atom that a value spells. -/
def ofAtom : Json → Except Error Draft
  | .text t =>
    match Atom.ofText t with
    | .ok a => .ok (.atom a)
    | .error e => .error (.atom e)
  | given => if given.isVoid then .error (.atom ⟨given⟩) else .error (.notText given.kindName)

/-- An integer literal with the double that a value gives. -/
def ofDouble : Json → Except Json.DoubleError Draft
  | .float x => .ok (.int (.float x))
  | given => do
    match ← given.double with
    | .nan => .ok .ownNaN
    | x => .ok (.int (.float x))

/-- A double literal, which must hold a finite number. -/
def ofFloat (given : Json) : Except Error Draft :=
  match given.number? with
  | some n => do
    let _ ← toFinite n
    .ok (.float n)
  | none => .error (.notReal given.kindName)

/-- A list headed by the keyword that a value spells. -/
def ofTagged (head : Json) (fields : List Draft) : Except Error Draft :=
  match head with
  | .text word => do
    let keyword ← ofAtom (.text (":" ++ word))
    .ok (.list (keyword :: fields))
  | given => .error (.notJoined given.kindName)

mutual

/-- The value that a draft stands for. -/
def settle : Draft → Except Error Value
  | .atom a => .ok (.atom a)
  | .text (.text t) => .ok (.text t)
  | .text given => .ok (.document given)
  | .ownNaN => .error (.integer (.truncation .nan))
  | .int given => do .ok (.int (← given.integer.mapError .integer))
  | .float n => do .ok (.float (← toFinite n))
  | .list items => do .ok (.list (← settleItems items))
  | .foreign f => .error (.unsupported f)

/-- The values of the items of a list, settled in order. -/
def settleItems : List Draft → Except Error (List Value)
  | [] => .ok []
  | item :: rest => do
    let value ← settle item
    let values ← settleItems rest
    .ok (value :: values)

end

mutual

/-- Equality of two drafts that are not the same object. -/
def equal : Draft → Draft → Bool
  | .atom a, .atom b => a == b
  | .text v, .text w => v.same w
  | .int v, .int w => v.same w
  | .float m, .float n => m.sameValue n
  | .list xs, .list ys => equalItems xs ys
  | .foreign f, .foreign g => f == g
  | _, _ => false

/-- Equality item by item. -/
def equalItems : List Draft → List Draft → Bool
  | [], [] => true
  | x :: xs, y :: ys => equal x y && equalItems xs ys
  | _, _ => false

end

/-- Which of several objects are equal, row by row; an object equals itself whatever it holds. -/
def equalities (drafts : List Draft) : List (List Bool) :=
  drafts.mapIdx fun i x => drafts.mapIdx fun j y => i == j || equal x y

end Draft

end TermText
