import TermText.Value.Basic

/-!
# Tags

The keywords that head the lists of an encoding, one for each kind of thing that is encoded.
-/

namespace TermText

/-- The kind of thing that a tagged list encodes. -/
inductive Tag where
  | anonymous
  | name
  | zero
  | succ
  | max
  | imax
  | level
  | boundVar
  | metaVar
  | sort
  | const
  | apply
  | lambda
  | pi
  | letIn
  | literal
  | proj
  | definition
  | assumption
  | function
  | sealed
  | quotient
  | data
  | constructor
  | eliminator
  | module
  | moduleName
  deriving DecidableEq, Repr

namespace Tag

/-- The keyword of a tag. -/
def keyword : Tag → Text
  | .anonymous => ":anonymous"
  | .name => ":name"
  | .zero => ":lzero"
  | .succ => ":lsucc"
  | .max => ":max"
  | .imax => ":imax"
  | .level => ":level"
  | .boundVar => ":var"
  | .metaVar => ":meta"
  | .sort => ":sort"
  | .const => ":const"
  | .apply => ":apply"
  | .lambda => ":lambda"
  | .pi => ":pi"
  | .letIn => ":let"
  | .literal => ":literal"
  | .proj => ":proj"
  | .definition => ":definition"
  | .assumption => ":axiom"
  | .function => ":function"
  | .sealed => ":abstract"
  | .quotient => ":quot-info"
  | .data => ":data"
  | .constructor => ":constructor"
  | .eliminator => ":recursor"
  | .module => ":module"
  | .moduleName => ":module-name"

/-- Every keyword is an atom. -/
theorem keyword_valid (tag : Tag) : Atom.isValid tag.keyword = true := by
  cases tag <;> decide

/-- The keyword of a tag as an atom. -/
def atom (tag : Tag) : Atom :=
  ⟨tag.keyword, tag.keyword_valid⟩

end Tag

/-- A list headed by the keyword of a tag. -/
def Value.tagged (tag : Tag) (fields : List Value) : Value :=
  .list (.atom tag.atom :: fields)

end TermText
