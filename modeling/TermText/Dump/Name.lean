import TermText.Dump.Kind
import TermText.Dump.Session

/-!
# Names and levels of a dump

Builds names and levels from their records. A reference is any value and stands for the record whose
id is its label; only a name may be left out. A reference without a label is a fault of the record
that it stands in. The depth of nesting is bounded by the number of records, as a record that is being
built is not entered again.
-/

namespace TermText.Dump

/-- The hash that a name record gives; null if it gives none. -/
def recordedHash (fields : Json.Fields) : Load Json :=
  match fields.get? "hash" with
  | none | some .null => pure .null
  | some value => Json.int <$> Load.integer value

/-- The name one segment longer, where the segment was read from a record. -/
def childName (parent : Name) (segment : Except Name.Error Segment) (hash : Json) :
    Load Name :=
  match segment.bind fun s => Name.childOrError parent s hash with
  | .ok name => pure name
  | .error e => throw (.fault (.segment e))

/-- The name of a record whose parent is found by `resolve`. -/
def buildName (resolve : Json → Load Name) (id : Text) (record : Json) : Load Name := do
  let fields ← Load.ofAccess (record.fieldsFor "get")
  let parent ← resolve ((fields.get? "parent").getD .null)
  let hash ← recordedHash fields
  match fields.get? "str", fields.get? "num" with
  | some value, _ => childName parent (Name.textSegment value) hash
  | none, some value =>
    Load.blaming (.blameNumber .names id) do
      let n ← Load.integer value
      childName parent (Name.numberSegment (.int n)) hash
  | none, none =>
    if (fields.get? "parent").isSome then throw (.noSegment id) else pure .anonymous

/-- The name that a reference stands for, its parent being found by `resolve`. -/
def nameStep (tables : Tables) (resolve : Json → Load Name) : Json → Load Name
  | .null => pure .anonymous
  | ref => do
    let id ← Load.written ref.label
    Load.resolve tables.nameShelf (buildName resolve) id

/-- The name that a reference stands for, within a bound on the nesting. -/
def nameWithin (tables : Tables) : Nat → Json → Load Name
  | 0, _ => throw .unfinished
  | bound + 1, ref => nameStep tables (nameWithin tables bound) ref

/-- The name that a reference stands for. -/
def name (tables : Tables) (ref : Json) : Load Name :=
  nameWithin tables (tables.names.length + 1) ref

/-- The field of a record that must be there. -/
def Load.field (key : Text) (record : Json) : Load Json :=
  Load.ofAccess (record.field key)

/-- The level of a record whose operands are found by `resolve`. -/
def buildLevel (tables : Tables) (resolve : Json → Load Level) (id : Text) (record : Json) :
    Load Level := do
  let kind ← Load.field "kind" record
  let operand (key : Text) : Load Level := do resolve (← Load.field key record)
  let named : Load Name := do name tables (← Load.field "name" record)
  match LevelKind.ofJson? kind with
  | some .zero => pure .zero
  | some .succ => do
    let l ← operand "of"
    pure (.succ l)
  | some .max => do
    let lhs ← operand "lhs"
    let rhs ← operand "rhs"
    pure (.max lhs rhs)
  | some .imax => do
    let lhs ← operand "lhs"
    let rhs ← operand "rhs"
    pure (.imax lhs rhs)
  | some .param => do
    let n ← named
    pure (.param n)
  | some .metaVar => do
    let n ← named
    pure (.metaVar n)
  | none => do
    let shown ← Load.written kind.describe
    throw (.unknownKind .levels id shown)

/-- The level that a reference stands for, its operands being found by `resolve`. -/
def levelStep (tables : Tables) (resolve : Json → Load Level) (ref : Json) : Load Level := do
  let id ← Load.written ref.label
  Load.resolve tables.levelShelf (buildLevel tables resolve) id

/-- The level that a reference stands for, within a bound on the nesting. -/
def levelWithin (tables : Tables) : Nat → Json → Load Level
  | 0, _ => throw .unfinished
  | bound + 1, ref => levelStep tables (levelWithin tables bound) ref

/-- The level that a reference stands for. -/
def level (tables : Tables) (ref : Json) : Load Level :=
  levelWithin tables (tables.levels.length + 1) ref

end TermText.Dump
