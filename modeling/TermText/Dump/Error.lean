import TermText.Json.Access
import TermText.Name.Read
import TermText.Term.Given

/-!
# Faults of a dump

A dump has three tables of records. A fault lies in one record and is found without following
references; an error says which record is at fault, or which reference leads nowhere or back to
itself.
-/

namespace TermText.Dump

/-- The tables of records. -/
inductive Table where
  | names
  | levels
  | exprs
  deriving DecidableEq, Repr

/-- The name of a table. -/
def Table.label : Table → Text
  | .names => "names"
  | .levels => "levels"
  | .exprs => "exprs"

/-- What is wrong within one record. -/
inductive Fault where
  | access (error : Json.AccessError)
  | segment (error : Name.Error)
  | integer (error : Json.IntegerError)
  | number (error : Term.NumberError)
  | numeral (error : Numeral.Error)

namespace Fault

/-- The wording of a fault. -/
def message : Fault → Text
  | .access error => error.message
  | .segment error => error.message
  | .integer error => error.message
  | .number error => error.message
  | .numeral error => error.message

/-- Whether a number is at fault that is of a kind that would do. -/
def isBadNumber : Fault → Bool
  | .access _ => false
  | .segment (.notNatural _) | .segment (.numeral _) => true
  | .segment _ => false
  | .integer (.notANumber _) => false
  | .integer _ => true
  | .number (.notOrdered _) => false
  | .number _ => true
  | .numeral _ => true

end Fault

/-- Why a dump was not loaded. A fault outside of all records stands for itself. Where a kind is unknown,
the error holds the text that shows it. -/
inductive Error where
  | notAnObject
  | tableNotAnObject (table : Table)
  | declarationsNotAList
  | unknown (table : Table) (id : Text)
  | cyclic (table : Table) (id : Text)
  | malformed (table : Table) (id : Text) (fault : Fault)
  | badNumber (table : Table) (id : Text) (fault : Fault)
  | noSegment (id : Text)
  | unknownKind (table : Table) (id shown : Text)
  | unknownDeclarationKind (shown : Text)
  | unknownQuotientKind (shown : Text)
  | missingField (key : Text)
  | fault (fault : Fault)
  | infinite
  | unfinished

namespace Error

/-- A record of a table as it is named in a message. -/
def recordText (table : Table) (id : Text) : Text :=
  table.label ++ " record " ++ id.quoted

/-- The wording of an error. -/
def message : Error → Text
  | .notAnObject => "module dump must be a JSON object"
  | .tableNotAnObject table => "'" ++ table.label ++ "' must be an object keyed by record id"
  | .declarationsNotAList => "'declarations' must be a list"
  | .unknown table id => "unknown " ++ table.label ++ " id " ++ id.quoted
  | .cyclic table id => "cyclic " ++ recordText table id
  | .malformed table id f => "malformed " ++ recordText table id ++ ": " ++ f.message
  | .badNumber table id f => recordText table id ++ ": " ++ f.message
  | .noSegment id => recordText .names id ++ " has a parent but no segment"
  | .unknownKind table id shown => recordText table id ++ " has unknown kind " ++ shown
  | .unknownDeclarationKind shown => "unknown declaration kind " ++ shown
  | .unknownQuotientKind shown => "unknown quotient kind " ++ shown
  | .missingField key => "declaration missing field " ++ key.quoted
  | .fault f => f.message
  | .infinite => Binary64.TruncationError.infinite.message
  | .unfinished => "nesting without end"

/-- A fault met while a record is built is a fault of that record. -/
def blameRecord (table : Table) (id : Text) : Error → Error
  | .fault f => .malformed table id f
  | e => e

/-- A bad number met in a record is reported as such; other faults are left. -/
def blameNumber (table : Table) (id : Text) : Error → Error
  | .fault f => if f.isBadNumber then .badNumber table id f else .fault f
  | e => e

/-- A field that a declaration lacks is reported as such; other faults are left. -/
def blameDeclaration : Error → Error
  | .fault (.access (.missing key)) => .missingField key
  | e => e

end Error

end TermText.Dump
