import TermText.Json.Access
import TermText.Json.Equality
import TermText.Json.Parser
import TermText.Text.Blank

/-!
# Histories

A trace is read back into the records of declarations by module, the modules in the order in which
they first appear. Any value that can be a key names a module; numbers that are equal are one key,
truth values being numbers.
-/

namespace TermText

/-- The records of each module, in the order in which the modules first appear. -/
abbrev History := List (Json × List Json)

namespace History

/-- Why a trace was not read. -/
inductive Error where
  | parse (error : Json.ParseError)
  | access (error : Json.AccessError)
  | unhashable (kindName : Text)
  deriving DecidableEq, Repr

/-- The wording of a failure to read a trace. -/
def Error.message : Error → Text
  | .parse error => error.message
  | .access error => error.message
  | .unhashable kindName => "unhashable type: '" ++ kindName ++ "'"

/-- Adds records to a module, which is entered at the end if it is new. -/
def add (key : Json) (records : List Json) : History → History
  | [] => [(key, records)]
  | (k, present) :: rest =>
    if k.same key then (k, present ++ records) :: rest else (k, present) :: add key records rest

/-- The history after a record: a declaration is added to its module, the begin of a module enters
it, anything else is passed over. -/
def addRecord (h : History) (record : Json) : Except Error History := do
  let event ← (record.field "event").mapError .access
  let records? : Option (List Json) :=
    match event with
    | .text t =>
      if t = ("module-begin" : Text) then some []
      else if t = ("declaration" : Text) then some [record]
      else none
    | _ => none
  match records? with
  | none => .ok h
  | some records => do
    let key ← (record.field "module").mapError .access
    if key.isKey then .ok (h.add key records) else .error (.unhashable key.kindName)

/-- The history after a line; blank lines are passed over. -/
def addLine (h : History) (line : Text) : Except Error History :=
  if line.isBlank then .ok h
  else do
    let record ← (Json.parse line).mapError .parse
    h.addRecord record

/-- The history after a value that is given for a line. -/
def addGiven (h : History) : Json → Except Error History
  | .text line => h.addLine line
  | value => .error (.access (.noMember value.kindName "strip"))

/-- The history that lines tell. -/
def ofLines (lines : List Text) : Except Error History :=
  lines.foldlM addLine []

/-- The history that the lines tell that a value lists. -/
def ofGiven (lines : Json) : Except Error History := do
  let lines ← lines.listed.mapError .access
  lines.foldlM addGiven []

end History

end TermText
