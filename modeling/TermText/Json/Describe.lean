import TermText.Binary64.Shortest
import TermText.Json.Basic

/-!
# Document values in messages

How a document value is shown in a message, which label it gives when it stands where a text is
expected, and the name of its kind. A value with an integer above the limit for numerals is neither
shown nor gives a label.
-/

namespace TermText.Json

/-- The name of the kind of a value. -/
def kindName : Json → Text
  | .null => "NoneType"
  | .bool _ => "bool"
  | .int _ => "int"
  | .float _ => "float"
  | .text _ => "str"
  | .list _ => "list"
  | .object _ => "dict"

mutual

/-- A value as it is shown in a message, however long its integers are. -/
def shown : Json → Text
  | .null => "None"
  | .bool true => "True"
  | .bool false => "False"
  | .int n => Numeral.ofInt n
  | .float x => x.toText
  | .text t => t.quoted
  | .list items => "[" ++ shownItems items ++ "]"
  | .object fields => "\x7b" ++ shownFields fields ++ "\x7d"

/-- The items of a list with commas between them. -/
def shownItems : List Json → Text
  | [] => []
  | [item] => shown item
  | item :: rest => shown item ++ ", " ++ shownItems rest

/-- The fields of an object with commas between them. -/
def shownFields : List (Text × Json) → Text
  | [] => []
  | [(key, value)] => key.quoted ++ ": " ++ shown value
  | (key, value) :: rest => key.quoted ++ ": " ++ shown value ++ ", " ++ shownFields rest

end

mutual

/-- Whether no integer in a value exceeds the limit for numerals. -/
def isWritable : Json → Bool
  | .int n => Numeral.Fits n
  | .list items => areWritable items
  | .object fields => haveWritable fields
  | _ => true

/-- Whether no integer in any of several values exceeds the limit. -/
def areWritable : List Json → Bool
  | [] => true
  | item :: rest => isWritable item && areWritable rest

/-- Whether no integer in the value of any field exceeds the limit. -/
def haveWritable : List (Text × Json) → Bool
  | [] => true
  | (_, value) :: rest => isWritable value && haveWritable rest

end

/-- The text that a value spells: a text spells itself, anything else is spelled as it is shown. -/
def spelled : Json → Text
  | .text t => t
  | value => value.shown

/-- A value as a message shows it. An integer above the limit is not written. -/
def describe (value : Json) : Except Numeral.Error Text :=
  if value.isWritable then .ok value.shown else .error .tooLong

/-- The label that a value stands for where a text is expected. -/
def label (value : Json) : Except Numeral.Error Text :=
  if value.isWritable then .ok value.spelled else .error .tooLong

/-- A message that ends with a value. If the value is not written, that is what is reported. -/
def messageWith (opening : Text) (text : Except Numeral.Error Text) : Text :=
  match text with
  | .ok t => opening ++ t
  | .error e => e.message

end TermText.Json
