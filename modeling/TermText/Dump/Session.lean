import TermText.Dump.Error
import TermText.Export.History

/-!
# Sessions

A session builds names, levels and terms from the records of a dump. It remembers what it built, so
each record is built once and is one object wherever it is referred to, and which records are being
built, so a record that leads back to itself is noticed. What was remembered survives an error;
the records being built do not.
-/

namespace TermText.Dump

/-- The records of a dump by table and id. -/
structure Tables where
  names : Json.Fields
  levels : Json.Fields
  exprs : Json.Fields

/-- What a session remembers: the names, levels and terms built from records, the records being
built (latest first), and the identity for the next node. -/
structure Session where
  names : List (Text × Name)
  levels : List (Text × Level)
  exprs : List (Text × Term)
  active : List (Table × Text)
  next : NodeId

/-- A step of a session: it may fail, and changes what is remembered in either case. -/
abbrev Load := EStateM Error Session

namespace Session

/-- A session that has built nothing. -/
def empty : Session :=
  ⟨[], [], [], [], 0⟩

/-- Whether a record is being built. -/
def isActive (s : Session) (table : Table) (id : Text) : Bool :=
  s.active.contains (table, id)

/-- Marks a record as being built. -/
def start (s : Session) (table : Table) (id : Text) : Session :=
  { s with active := (table, id) :: s.active }

/-- Marks a record as no longer being built. -/
def stop (s : Session) (table : Table) (id : Text) : Session :=
  { s with active := s.active.filter (· ≠ (table, id)) }

end Session

/-- The entry of an id in what a session built. -/
def lookup? {α : Type} (built : List (Text × α)) (id : Text) : Option α :=
  (built.find? fun entry => entry.1 = id).map Prod.snd

/-- The part of a session that concerns one table: the records, what was built from them, how an
object is remembered, and what becomes of an error that is met while a record is built. -/
structure Shelf (α : Type) where
  table : Table
  records : Json.Fields
  built : Session → List (Text × α)
  remember : Text → α → Session → Session
  blame : Text → Error → Error

/-- The shelf of names. -/
def Tables.nameShelf (tables : Tables) : Shelf Name :=
  ⟨.names, tables.names, Session.names, fun id x s => { s with names := (id, x) :: s.names },
    .blameRecord .names⟩

/-- The shelf of levels. -/
def Tables.levelShelf (tables : Tables) : Shelf Level :=
  ⟨.levels, tables.levels, Session.levels, fun id x s => { s with levels := (id, x) :: s.levels },
    .blameRecord .levels⟩

/-- The shelf of terms. -/
def Tables.exprShelf (tables : Tables) : Shelf Term :=
  ⟨.exprs, tables.exprs, Session.exprs, fun id x s => { s with exprs := (id, x) :: s.exprs },
    .blameRecord .exprs⟩

namespace Load

/-- A step that only fails or succeeds, its failure being a fault. -/
def ofAccess {α : Type} : Except Json.AccessError α → Load α
  | .ok a => pure a
  | .error e => throw (.fault (.access e))

/-- The text of a value, or the fault that a number in it is not written. -/
def written : Except Numeral.Error Text → Load Text
  | .ok t => pure t
  | .error e => throw (.fault (.numeral e))

/-- A step whose errors are changed. -/
def blaming {α : Type} (blame : Error → Error) (step : Load α) : Load α :=
  step.adaptExcept blame

/-- The identity for a new node. -/
def fresh : Load NodeId := do
  let s ← get
  set { s with next := s.next + 1 }
  pure s.next

/-- A step during which records of a table are marked as being built, however it ends. -/
def during {α : Type} (table : Table) (ids : List Text) (step : Load α) : Load α := fun s =>
  let finish (s : Session) : Session := ids.foldl (fun s id => s.stop table id) s
  match step (ids.foldl (fun s id => s.start table id) s) with
  | .ok a s => .ok a (finish s)
  | .error e s => .error e (finish s)

/-- The object of a record: the one built before, or the one that `build` makes of it. -/
def resolve {α : Type} (shelf : Shelf α) (build : Text → Json → Load α) (id : Text) : Load α := do
  let s ← get
  match lookup? (shelf.built s) id with
  | some x => pure x
  | none =>
    match Json.Fields.get? shelf.records id with
    | none => throw (.unknown shelf.table id)
    | some record =>
      if s.isActive shelf.table id then throw (.cyclic shelf.table id)
      else do
        let x ← during shelf.table [id] (blaming (shelf.blame id) (build id record))
        modify (shelf.remember id x)
        pure x

/-- The integer that a value gives. -/
def integer (value : Json) : Load Int :=
  match value.integer with
  | .ok n => pure n
  | .error (.truncation .infinite) => throw .infinite
  | .error e => throw (.fault (.integer e))

/-- A step on each value in order. -/
def each {α : Type} (step : Json → Load α) : List Json → Load (List α)
  | [] => pure []
  | value :: rest => do
    let x ← step value
    let xs ← each step rest
    pure (x :: xs)

end Load

end TermText.Dump
