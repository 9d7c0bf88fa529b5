import TermText.Text.Basic

/-!
# Trees of files

A directory holds files and directories under names. Names one after another lead from a directory
to what it holds; a new entry is put where names lead, which changes nothing elsewhere.
-/

namespace TermText

/-- A file with its contents, or a directory with what it holds. -/
inductive Entry where
  | file (octets : List UInt8)
  | directory (held : List (Text × Entry))
  deriving Inhabited

namespace Entry

/-- What a directory holds under a name. -/
def heldAt? (held : List (Text × Entry)) (name : Text) : Option Entry :=
  (held.find? fun item => item.1 = name).map Prod.snd

/-- What a directory holds, with a given entry under a name. -/
def hold (name : Text) (e : Entry) : List (Text × Entry) → List (Text × Entry)
  | [] => [(name, e)]
  | (other, old) :: rest =>
    if other = name then (name, e) :: rest else (other, old) :: hold name e rest

/-- What names lead to. -/
def find? : Entry → List Text → Option Entry
  | e, [] => some e
  | .directory held, name :: rest =>
    match heldAt? held name with
    | some inner => inner.find? rest
    | none => none
  | .file _, _ :: _ => none

/-- The entry with a new one where names lead. Directories that are missing on the way are made;
nothing is put below a file. -/
def put : Entry → List Text → Entry → Entry
  | _, [], new => new
  | .directory held, name :: rest, new =>
    .directory (hold name (((heldAt? held name).getD (.directory [])).put rest new) held)
  | .file octets, _ :: _, _ => .file octets

mutual

/-- The files within an entry, each with the names that lead to it. -/
def files : Entry → List (List Text × List UInt8)
  | .file octets => [([], octets)]
  | .directory held => heldFiles held

/-- The files within what a directory holds. -/
def heldFiles : List (Text × Entry) → List (List Text × List UInt8)
  | [] => []
  | (name, e) :: rest =>
    (files e).map (fun (names, octets) => (name :: names, octets)) ++ heldFiles rest

end

end Entry

end TermText
