import TermText.Files.Store

/-!
# Hosts

The operations that a program asks of its host, and the host that is a store. Opening a file empties
it or makes it; filling it gives it its contents. A file that was opened is closed in the end, which
may fail as well: what could not be written may be held back until then.
-/

namespace TermText

/-- The standard input and the operations on files in a monad. -/
structure Host (m : Type → Type) where
  input : m (Except Utf8.DecodeError Text)
  present : Text → m (Except FileError Bool)
  isDirectory : Text → m Bool
  read : Text → m (Except FileError (List UInt8))
  openFile : Text → m (Except FileError Unit)
  fill : Text → List UInt8 → m (Except FileError Unit)
  close : Text → List UInt8 → m (Except FileError Unit)
  makeDirectory : Text → m (Except FileError Unit)

namespace Host

variable {m : Type → Type} [Monad m]

/-- The most octets that are held back when they cannot be written. -/
def bufferSize : Nat := 4096

/-- A host with a device at a path that can be opened but takes no octets. Those that are held back
are refused once more when it is closed. What is held back is told from the number of octets alone, as
if they came in lines that fit the buffer: a single longer line would be refused at the close, too. -/
def withFullDevice (host : Host m) (device : Text) : Host m where
  input := host.input
  present := host.present
  isDirectory := host.isDirectory
  read := host.read
  openFile path := if path = device then return .ok () else host.openFile path
  fill path octets :=
    if path = device then return .error ⟨.noSpace, path⟩ else host.fill path octets
  close path octets :=
    if path = device then
      return if octets.length ≤ bufferSize then .error ⟨.noSpace, path⟩ else .ok ()
    else host.close path octets
  makeDirectory := host.makeDirectory

end Host

namespace Store

/-- Whether a path leads to something. A path that cannot be followed leads to nothing. -/
def existsAt (s : Store) (path : Text) : Except FileError Bool :=
  match s.resolve path with
  | .ok (.directory _) => .ok true
  | .ok (.file _ _) => .ok (!demandsDirectory path)
  | .error .nameTooLong => .error ⟨.nameTooLong, path⟩
  | _ => .ok false

/-- Whether a path leads to a directory. -/
def isDirectoryAt (s : Store) (path : Text) : Bool :=
  match s.resolve path with
  | .ok (.directory _) => true
  | _ => false

/-- The contents of the file that a path leads to. -/
def readAt (s : Store) (path : Text) : Except FileError (List UInt8) :=
  match s.resolve path with
  | .ok (.file _ octets) =>
    if demandsDirectory path then .error ⟨.notADirectory, path⟩ else .ok octets
  | .ok (.directory _) => .error ⟨.isADirectory, path⟩
  | .ok (.vacant _) => .error ⟨.notFound, path⟩
  | .error e => .error ⟨e, path⟩

/-- Why no file is written at a path that demands a directory. Its last component is not looked
at. -/
def directoryRefusal (s : Store) (path : Text) : FileCondition :=
  match s.resolveAbove path with
  | .ok (.directory _) => .isADirectory
  | .ok (.file _ _) => .notADirectory
  | .ok (.vacant _) => .notFound
  | .error e => e

/-- The store with given contents in the file that a path leads to; a new file may be made. -/
def writeAt (s : Store) (path : Text) (octets : List UInt8) : Except FileError Store :=
  if demandsDirectory path then .error ⟨s.directoryRefusal path, path⟩
  else
    match s.resolve path with
    | .ok (.file place _) | .ok (.vacant place) => .ok (s.put place (.file octets))
    | .ok (.directory _) => .error ⟨.isADirectory, path⟩
    | .error e => .error ⟨e, path⟩

/-- The store with a new directory where a path leads. -/
def makeDirectoryAt (s : Store) (path : Text) : Except FileError Store :=
  match s.resolve path with
  | .ok (.vacant place) => .ok (s.put place (.directory []))
  | .ok _ => .error ⟨.fileExists, path⟩
  | .error e => .error ⟨e, path⟩

/-- A change of the store, which stays as it is if the change fails. -/
def update (change : Store → Except FileError Store) : StateM Store (Except FileError Unit) :=
  fun s =>
    match change s with
    | .ok after => (.ok (), after)
    | .error e => (.error e, s)

/-- The host that is a store, with a given standard input. A store takes all octets, so that closing a
file never fails. -/
def host (input : Text) : Host (StateM Store) where
  input := return .ok input
  present path := do return (← get).existsAt path
  isDirectory path := do return (← get).isDirectoryAt path
  read path := do return (← get).readAt path
  openFile path := update fun s => s.writeAt path []
  fill path octets := update fun s => s.writeAt path octets
  close _ _ := return .ok ()
  makeDirectory path := update fun s => s.makeDirectoryAt path

end Store

end TermText
