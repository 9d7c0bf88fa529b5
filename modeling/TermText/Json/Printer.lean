import TermText.Binary64.Shortest
import TermText.Json.Basic
import TermText.Text.Escaped

/-!
# Writing documents

A document is written in ASCII, either on one line or with each item on a line of its own. The three
doubles that are not finite are written as bare words.
-/

namespace TermText.Json

/-- The text of a double in a document. -/
def floatText : Binary64 → Text
  | .nan => "NaN"
  | .infinite true => "-Infinity"
  | .infinite false => "Infinity"
  | .finite x => x.toText

mutual

/-- A document on one line. -/
def compact : Json → Text
  | .null => "null"
  | .bool true => "true"
  | .bool false => "false"
  | .int n => Numeral.ofInt n
  | .float x => floatText x
  | .text t => t.escaped
  | .list items => "[" ++ compactItems items ++ "]"
  | .object fields => "\x7b" ++ compactFields fields ++ "\x7d"

/-- Items on one line. -/
def compactItems : List Json → Text
  | [] => []
  | [item] => compact item
  | item :: rest => compact item ++ ", " ++ compactItems rest

/-- Fields on one line. -/
def compactFields : List (Text × Json) → Text
  | [] => []
  | [(key, value)] => key.escaped ++ ": " ++ compact value
  | (key, value) :: rest => key.escaped ++ ": " ++ compact value ++ ", " ++ compactFields rest

end

/-- A line break and the indentation of a nesting depth, two spaces for each level. -/
def lineBreak (depth : Nat) : Text :=
  Text.newline :: List.replicate (2 * depth) (CodePoint.ofChar ' ')

mutual

/-- A document at a nesting depth with each item on a line of its own. -/
def indented (depth : Nat) : Json → Text
  | .list [] => "[]"
  | .list (item :: rest) =>
    "[" ++ lineBreak (depth + 1) ++ indentedItems (depth + 1) (item :: rest) ++ lineBreak depth ++
      "]"
  | .object [] => "\x7b\x7d"
  | .object (field :: rest) =>
    "\x7b" ++ lineBreak (depth + 1) ++ indentedFields (depth + 1) (field :: rest) ++
      lineBreak depth ++ "\x7d"
  | value => compact value

/-- Items, each on a line of its own. -/
def indentedItems (depth : Nat) : List Json → Text
  | [] => []
  | [item] => indented depth item
  | item :: rest => indented depth item ++ "," ++ lineBreak depth ++ indentedItems depth rest

/-- Fields, each on a line of its own. -/
def indentedFields (depth : Nat) : List (Text × Json) → Text
  | [] => []
  | [(key, value)] => key.escaped ++ ": " ++ indented depth value
  | (key, value) :: rest =>
    key.escaped ++ ": " ++ indented depth value ++ "," ++ lineBreak depth ++
      indentedFields depth rest

end

end TermText.Json
