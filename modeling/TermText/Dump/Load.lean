import TermText.Declaration.Basic
import TermText.Dump.Expr

/-!
# Loading a dump

Builds declarations and whole modules from a dump: an object with the three tables of records, the
name of the module and the list of its declarations.
-/

namespace TermText.Dump

/-- The payload of a declaration record whose constructors are built by `declare`. -/
def buildPayload (tables : Tables) (declare : Json → Load Declaration) (record : Json) :
    Load Payload := do
  let kind ← Load.field "kind" record
  let value : Load Term := do expr tables (← Load.field "value" record)
  match Json.kindNamed? DeclarationKind.all DeclarationKind.word kind with
  | some .assumption => pure .assumption
  | some .definition => do
    let v ← value
    pure (.definition v)
  | some .proof => do
    let v ← value
    pure (.proof v)
  | some .sealed => do
    let v ← value
    pure (.sealed v)
  | some .quotient => do
    let given ← Load.field "quot_kind" record
    match QuotientKind.ofJson? given with
    | none => do
      let shown ← Load.written given.describe
      throw (.unknownQuotientKind shown)
    | some quotient => do
      let typeName ← name tables (← Load.field "type_name" record)
      pure (.quotient quotient typeName)
  | some .family => do
    let given := (Json.Fields.get? record.fields "constructors").getD (.list [])
    let records ← Load.ofAccess given.listed
    let constructors ← Load.each declare records
    pure (.family constructors)
  | some .constructor => do
    let owner ← name tables (← Load.field "induct" record)
    pure (.constructor owner)
  | some .eliminator => pure .eliminator
  | none => do
    let shown ← Load.written kind.describe
    throw (.unknownDeclarationKind shown)

/-- The declaration of a record whose constructors are built by `declare`. -/
def declarationStep (tables : Tables) (declare : Json → Load Declaration) (record : Json) :
    Load Declaration :=
  Load.blaming .blameDeclaration do
    let declared ← name tables (← Load.field "name" record)
    let type ← expr tables (← Load.field "type" record)
    let payload ← buildPayload tables declare record
    pure (.mk declared type payload)

/-- The declaration of a record, within a bound on the nesting. -/
def declarationWithin (tables : Tables) : Nat → Json → Load Declaration
  | 0, _ => throw .unfinished
  | bound + 1, record => declarationStep tables (declarationWithin tables bound) record

/-- The declaration of a record. -/
def declaration (tables : Tables) (record : Json) : Load Declaration :=
  declarationWithin tables (record.depth + 1) record

/-- The records of one table of a dump; a dump may lack it. -/
def tableOf (dump : Json.Fields) (table : Table) : Except Error Json.Fields :=
  match dump.get? table.label with
  | none => .ok []
  | some (.object records) => .ok records
  | some _ => .error (.tableNotAnObject table)

/-- The tables of a dump. -/
def tablesOf (dump : Json.Fields) : Except Error Tables := do
  let names ← tableOf dump .names
  let levels ← tableOf dump .levels
  let exprs ← tableOf dump .exprs
  .ok ⟨names, levels, exprs⟩

/-- The list of declaration records of a dump; a dump may lack it. -/
def recordsOf (dump : Json.Fields) : Except Error (List Json) :=
  match dump.get? "declarations" with
  | none => .ok []
  | some (.list records) => .ok records
  | some _ => .error .declarationsNotAList

/-- The module of a dump whose tables were found. -/
def moduleOf (tables : Tables) (dump : Json.Fields) : Load Module := do
  let declared ← name tables ((dump.get? "module").getD .null)
  match recordsOf dump with
  | .error e => throw e
  | .ok records => do
    let declarations ← Load.each (declaration tables) records
    pure ⟨declared, declarations⟩

/-- Loads a module from a dump. -/
def load : Json → Except Error Module
  | .object dump => do
    let tables ← tablesOf dump
    match moduleOf tables dump Session.empty with
    | .ok m _ => .ok m
    | .error e _ => .error e
  | _ => .error .notAnObject

/-- The tables of any value, which must be an object. -/
def tables (dump : Json) : Except Error Tables :=
  match dump.fieldsFor "get" with
  | .ok fields => tablesOf fields
  | .error e => .error (.fault (.access e))

end TermText.Dump
