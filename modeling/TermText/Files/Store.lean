import TermText.Files.Entry
import TermText.Files.Path
import TermText.Text.Quoted
import TermText.Text.Utf8

/-!
# File stores

A store has a tree of files at the working directory, one at the root and one at each directory
above the working one; how these hang together is left open. A path is resolved component by
component from where it starts. Operations fail with the conditions of the operating system, which
name the path as it was given.
-/

namespace TermText

/-- A condition under which an operation on files fails. -/
inductive FileCondition where
  | notFound
  | fileExists
  | notADirectory
  | isADirectory
  | nameTooLong
  | nullByte
  | noSpace
  | other (code : Nat) (wording : Text)
  deriving DecidableEq, Repr

/-- A failure of an operation on files at a path. -/
structure FileError where
  condition : FileCondition
  path : Text
  deriving DecidableEq, Repr

/-- The number and the wording of a condition, if it has a number. -/
def FileCondition.numbered? : FileCondition → Option (Nat × Text)
  | .notFound => some (2, "No such file or directory")
  | .fileExists => some (17, "File exists")
  | .notADirectory => some (20, "Not a directory")
  | .isADirectory => some (21, "Is a directory")
  | .nameTooLong => some (36, "File name too long")
  | .nullByte => none
  | .noSpace => some (28, "No space left on device")
  | .other code wording => some (code, wording)

/-- Whether a condition is reported with the path. One that is found when octets are written, not when
the path is followed, is not. -/
def FileCondition.namesPath : FileCondition → Bool
  | .noSpace => false
  | _ => true

/-- The wording of a failure. -/
def FileError.message (e : FileError) : Text :=
  match e.condition.numbered? with
  | some (number, wording) =>
    "[Errno " ++ Numeral.ofNat number ++ "] " ++ wording ++
      if e.condition.namesPath then ": " ++ e.path.quoted else []
  | none => "embedded null byte"

/-- Where the components of a place start: some levels above the working directory, or at the
root. -/
inductive Base where
  | working (above : Nat)
  | root
  deriving DecidableEq

/-- A place in a store: where it starts and the components from there. -/
structure Location where
  base : Base
  parts : List Text
  deriving DecidableEq

/-- The trees of a store by where they stand: what the directory at each base holds. One that is not
listed is empty. -/
structure Store where
  trees : List (Base × List (Text × Entry))

/-- What a path leads to: a directory, a file with its contents, or a free place in a directory. -/
inductive Spot where
  | directory (place : Location)
  | file (place : Location) (octets : List UInt8)
  | vacant (place : Location)

namespace Store

/-- The most octets that a component of a path may have. -/
def nameLimit : Nat := 255

/-- The most octets that a whole path may have. -/
def pathLimit : Nat := 4095

/-- The number of octets that a text takes. -/
def octetCount (t : Text) : Nat :=
  (t.flatMap Utf8.encodeCodePoint).length

/-- The store without any files. -/
def empty : Store :=
  ⟨[]⟩

/-- The tree that stands at a base. -/
def tree (s : Store) (base : Base) : Entry :=
  .directory (((s.trees.find? fun item => item.1 = base).map Prod.snd).getD [])

/-- What there is at a place. -/
def find? (s : Store) (place : Location) : Option Entry :=
  (s.tree place.base).find? place.parts

/-- The store with a new entry at a place. At a base there is always a directory. -/
def put (s : Store) (place : Location) (e : Entry) : Store :=
  match (s.tree place.base).put place.parts e with
  | .directory held =>
    ⟨(place.base, held) :: s.trees.filter fun item => item.1 ≠ place.base⟩
  | .file _ => s

/-- The directory that holds a directory; the root holds itself. -/
def above (place : Location) : Location :=
  match place.parts, place.base with
  | [], .working levels => ⟨.working (levels + 1), []⟩
  | [], .root => ⟨.root, []⟩
  | parts, base => ⟨base, parts.dropLast⟩

/-- What one component leads to from a directory. -/
def enter (s : Store) (place : Location) (part : Text) : Except FileCondition Spot :=
  if part = (".": Text) then .ok (.directory place)
  else if part = ("..": Text) then .ok (.directory (above place))
  else if nameLimit < octetCount part then .error .nameTooLong
  else
    let inner : Location := ⟨place.base, place.parts ++ [part]⟩
    match s.find? inner with
    | some (.file octets) => .ok (.file inner octets)
    | some (.directory _) => .ok (.directory inner)
    | none => .ok (.vacant inner)

/-- What components lead to from a directory. -/
def walk (s : Store) (place : Location) : List Text → Except FileCondition Spot
  | [] => .ok (.directory place)
  | [part] => s.enter place part
  | part :: rest =>
    match s.enter place part with
    | .ok (.directory inner) => s.walk inner rest
    | .ok (.file _ _) => .error .notADirectory
    | .ok (.vacant _) => .error .notFound
    | .error e => .error e

/-- Whether a written path ends in a separator, which demands a directory. -/
def demandsDirectory (path : Text) : Bool :=
  path.getLast? = some Path.slash

/-- What components lead to from where a written path starts. -/
def resolveParts (s : Store) (path : Text) (parts : List Text) : Except FileCondition Spot :=
  if path.any (·.val = 0) then .error .nullByte
  else if path.isEmpty then .error .notFound
  else if pathLimit < octetCount path then .error .nameTooLong
  else
    let base : Base := if path.head? = some Path.slash then .root else .working 0
    s.walk ⟨base, []⟩ parts

/-- What a written path leads to, a separator at its end being left out of account. -/
def resolve (s : Store) (path : Text) : Except FileCondition Spot :=
  s.resolveParts path (Path.componentsOf path)

/-- What a written path leads to without its last component. -/
def resolveAbove (s : Store) (path : Text) : Except FileCondition Spot :=
  s.resolveParts path (Path.componentsOf path).dropLast

end Store

end TermText
