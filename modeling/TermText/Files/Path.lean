import TermText.Text.Basic

/-!
# Paths

A path as it is written: where it starts and its components. Writing it back leaves out empty
components and single points, so two spellings of one path agree.
-/

namespace TermText

/-- Where a path starts: at the working directory or at a root. -/
inductive PathStart where
  | working
  | root
  | doubleRoot
  deriving DecidableEq, Repr

/-- A path without empty components and single points. -/
structure Path where
  start : PathStart
  parts : List Text
  deriving DecidableEq

namespace Path

/-- The separator of components. -/
def slash : CodePoint := CodePoint.ofChar '/'

/-- Where a written path starts. -/
def startOf (t : Text) : PathStart :=
  match (t.takeWhile (· = slash)).length with
  | 0 => .working
  | 2 => .doubleRoot
  | _ => .root

/-- The components between the separators of a written path. -/
def componentsOf (t : Text) : List Text :=
  (t.splitOn slash).filter fun part => !part.isEmpty

/-- The path that a text writes. -/
def ofText (t : Text) : Path :=
  ⟨startOf t, (componentsOf t).filter (· ≠ (".": Text))⟩

/-- How a start is written. -/
def startText : PathStart → Text
  | .working => []
  | .root => "/"
  | .doubleRoot => "//"

/-- The text of a path; the working directory itself is a point. -/
def toText (p : Path) : Text :=
  match p.start, p.parts with
  | .working, [] => "."
  | start, parts => startText start ++ Text.join "/" parts

/-- The path without its last component. -/
def parent (p : Path) : Path :=
  ⟨p.start, p.parts.dropLast⟩

end Path

end TermText
