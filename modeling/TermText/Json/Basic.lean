import TermText.Binary64.Basic

/-!
# Document values

The values of a JSON document. Numbers without point and exponent are integers of any size, all
others are doubles, the three that are not finite included. The fields of an object stand in the
order in which their keys first appeared.
-/

namespace TermText

/-- A value of a document. -/
inductive Json where
  | null
  | bool (b : Bool)
  | int (n : Int)
  | float (x : Binary64)
  | text (t : Text)
  | list (items : List Json)
  | object (fields : List (Text × Json))
  deriving Repr, Inhabited

namespace Json

/-- The values that a value lists: the items of a list, the code points of a text, the keys of an
object. -/
def listed? : Json → Option (List Json)
  | .list items => some items
  | .text t => some (t.map fun c => .text [c])
  | .object fields => some (fields.map fun (key, _) => .text key)
  | _ => none

/-- A value that is nothing: null, false, a zero, or what is empty. -/
def isVoid : Json → Bool
  | .null | .bool false | .int 0 | .text [] | .list [] | .object [] => true
  | .float x => x.isInt 0
  | _ => false

/-- The fields of an object in order. -/
abbrev Fields := List (Text × Json)

/-- The fields of a value; only an object has any. -/
def fields : Json → Fields
  | .object fields => fields
  | _ => []

/-- The value of a key. -/
def Fields.get? (fields : Fields) (key : Text) : Option Json :=
  (fields.find? fun field => field.1 = key).map Prod.snd

/-- Gives a key a value: in its place if the key is there, at the end if not. -/
def Fields.insert : Fields → Text → Json → Fields
  | [], key, value => [(key, value)]
  | (k, v) :: rest, key, value =>
    if k = key then (key, value) :: rest else (k, v) :: Fields.insert rest key value

/-- Fields added one after another to others; a later value of a key wins. -/
def Fields.insertAll (fields more : Fields) : Fields :=
  more.foldl (fun fields (key, value) => fields.insert key value) fields

/-- An item placed before the first item that it precedes in the order of the keys. -/
def Fields.insertSorted (key : Text) (value : Json) : Fields → Fields
  | [] => [(key, value)]
  | (k, v) :: rest =>
    if key.precedes k then (key, value) :: (k, v) :: rest
    else (k, v) :: Fields.insertSorted key value rest

/-- The fields in the order of their keys. -/
def Fields.sort (fields : Fields) : Fields :=
  fields.foldl (fun sorted (key, value) => Fields.insertSorted key value sorted) []

mutual

/-- The value with the fields of all its objects in the order of their keys. -/
def sortKeys : Json → Json
  | .list items => .list (sortKeysItems items)
  | .object fields => .object (Fields.sort (sortKeysFields fields))
  | value => value

/-- Sorts the keys within each item. -/
def sortKeysItems : List Json → List Json
  | [] => []
  | item :: rest => sortKeys item :: sortKeysItems rest

/-- Sorts the keys within the value of each field. -/
def sortKeysFields : List (Text × Json) → List (Text × Json)
  | [] => []
  | (key, value) :: rest => (key, sortKeys value) :: sortKeysFields rest

end

mutual

/-- How deep lists and objects are nested in a value. -/
def depth : Json → Nat
  | .list items => depthItems items + 1
  | .object fields => depthFields fields + 1
  | _ => 0

/-- The greatest depth of several values. -/
def depthItems : List Json → Nat
  | [] => 0
  | item :: rest => max (depth item) (depthItems rest)

/-- The greatest depth of the values of several fields. -/
def depthFields : List (Text × Json) → Nat
  | [] => 0
  | (_, value) :: rest => max (depth value) (depthFields rest)

end

end Json

end TermText
