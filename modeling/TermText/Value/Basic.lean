import TermText.Json.Describe
import TermText.Json.Printer
import TermText.Text.Blank

/-!
# Values and their rendering

The values that encodings are made of: atoms, texts, integers, finite doubles, lists, and documents
that stand in the place of a text. A value is rendered on one line, lists between parentheses with
single spaces between their items. An atom is printed verbatim and therefore holds nothing that
could end it. Every value has a rendering here; it is what is printed if the integers in the value
are within the limit for numerals.
-/

namespace TermText

namespace Atom

/-- A code point that ends an atom. -/
def isForbidden (c : CodePoint) : Bool :=
  c.isBlank || c.val == 0x28 || c.val == 0x29 || c.val == 0x22

/-- A text that may be an atom. -/
def isValid (t : Text) : Bool :=
  !t.isEmpty && !t.any isForbidden

end Atom

/-- A bare symbol. -/
structure Atom where
  text : Text
  valid : Atom.isValid text = true
  deriving DecidableEq

namespace Atom

/-- Why a value is no atom: it is empty or holds what would end an atom. -/
structure Error where
  given : Json

/-- The wording of a failure to make an atom. -/
def Error.message (e : Error) : Text :=
  Json.messageWith "atom must be non-empty without spaces, quotes or parens: " e.given.describe

/-- The atom that a text spells. -/
def ofText (t : Text) : Except Error Atom :=
  if h : isValid t = true then .ok ⟨t, h⟩ else .error ⟨.text t⟩

end Atom

/-- A value of the encoding. -/
inductive Value where
  | atom (a : Atom)
  | text (t : Text)
  | int (n : Int)
  | float (x : Finite64)
  | list (items : List Value)
  | document (given : Json)

namespace Value

mutual

/-- A value on one line. -/
def render : Value → Text
  | .atom a => a.text
  | .text t => t.escaped
  | .int n => Numeral.ofInt n
  | .float x => x.toText
  | .list items => "(" ++ renderItems items ++ ")"
  | .document given => given.compact

/-- Items with single spaces between them. -/
def renderItems : List Value → Text
  | [] => []
  | [item] => render item
  | item :: rest => render item ++ " " ++ renderItems rest

end

/-- The keyword that heads a list: the atom after its colon. -/
def head? : Value → Option Text
  | .list (.atom a :: _) => Text.dropLeading? ":" a.text
  | _ => none

/-- The items of a list after the keyword that heads it. -/
def fields : Value → List Value
  | .list items => if (Value.list items).head?.isSome then items.drop 1 else items
  | _ => []

end Value

end TermText
