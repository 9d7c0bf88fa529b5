import TermText.Declaration.Encode
import TermText.Export.Event

/-!
# The exporter

An exporter encodes modules and tells its hooks what becomes of each declaration. It keeps the outcomes
of its latest export. A declaration that cannot be encoded ends the export: what was told before it
stays told, and no end is. If only a number cannot be written, its kind is counted all the same.

A hook may do anything with an event except fail: it is a function on a state that all hooks share.
-/

namespace TermText

/-- An exporter: which names are internal, whether internal declarations are kept all the same, and
the outcomes and the kept declarations by kind of the latest export. -/
structure Exporter where
  internal : Name → Bool
  includeInternal : Bool
  events : List DeclarationEvent
  kindCounts : List (Text × Nat)

namespace Exporter

/-- An exporter that has exported nothing yet. -/
def new (internal : Name → Bool) (includeInternal : Bool) : Exporter :=
  ⟨internal, includeInternal, [], []⟩

/-- Whether a declaration is kept. -/
def keeps (x : Exporter) (d : Declaration) : Bool :=
  x.includeInternal || d.name.isVisible x.internal

/-- Counts one more of a kind. -/
def addKind (kind : Text) : List (Text × Nat) → List (Text × Nat)
  | [] => [(kind, 1)]
  | (k, count) :: rest =>
    if k = kind then (k, count + 1) :: rest else (k, count) :: addKind kind rest

/-- The figures of the latest export. -/
def stats (x : Exporter) : Json.Fields :=
  let kept := x.events.countP (·.kept)
  [("declarations", .int x.events.length), ("kept", .int kept),
    ("skipped", .int (x.events.length - kept : Int)),
    ("kind_counts",
      .object (Json.Fields.sort (x.kindCounts.map fun (kind, count) => (kind, .int count))))]

/-- The exporter after a declaration of a kind with a given outcome. -/
def record (x : Exporter) (kind : DeclarationKind) (e : DeclarationEvent) : Exporter :=
  { x with
    events := x.events ++ [e]
    kindCounts := if e.kept then addKind kind.word x.kindCounts else x.kindCounts }

/-- The kind of a declaration of a named module, the outcome, and the encoding if it is kept. -/
def outcome (x : Exporter) (module : Name) (d : Declaration) :
    Except EncodeError (DeclarationKind × DeclarationEvent × Option Value) :=
  if x.keeps d then do
    let value ← d.encode
    let kind ← d.kind
    .ok (kind, ⟨module, d.name, .text kind.word, true, .int value.render.length⟩, some value)
  else do
    let kind ← d.kind
    .ok (kind, ⟨module, d.name, .text kind.word, false, .int 0⟩, none)

/-- The exporter after a declaration that could not be encoded. -/
def afterFailure (x : Exporter) (d : Declaration) (e : EncodeError) : Exporter :=
  match e.isAtNumber, d.kind with
  | true, .ok kind => { x with kindCounts := addKind kind.word x.kindCounts }
  | _, _ => x

section Hooks

variable {σ : Type}

/-- The state of the hooks after each of them received an event, in their order. -/
def notify (hooks : List (σ → Event → σ)) (s : σ) (event : Event) : σ :=
  hooks.foldl (fun s hook => hook s event) s

/-- The export of a table of declarations: the exporter and the state of the hooks afterwards, and the
encodings of the kept declarations. -/
def exportTable (hooks : List (σ → Event → σ)) (module : Name) (x : Exporter) (s : σ) :
    List Declaration → Exporter × σ × Except EncodeError (List Value)
  | [] => (x, s, .ok [])
  | d :: rest =>
    match x.outcome module d with
    | .error e => (x.afterFailure d e, s, .error e)
    | .ok (kind, event, value) =>
      let (after, s, result) :=
        exportTable hooks module (x.record kind event) (notify hooks s (.declaration event)) rest
      (after, s, result.map (value.toList ++ ·))

/-- The export of a module to hooks: the exporter and the state of the hooks afterwards, and the
encoding. -/
def exportTo (hooks : List (σ → Event → σ)) (x : Exporter) (m : Module) (s : σ) :
    Exporter × σ × Except EncodeError Value :=
  let start : Exporter := { x with events := [], kindCounts := [] }
  match exportTable hooks m.name start (notify hooks s (.module ⟨m.name, "begin", []⟩)) m.declarations with
  | (after, s, .error e) => (after, s, .error e)
  | (after, s, .ok kept) =>
    (after, notify hooks s (.module ⟨m.name, "end", after.stats⟩), Module.encodeWith m.name (.ok kept))

end Hooks

/-- The hook that collects what it is told. -/
def collect (events : List Event) (event : Event) : List Event :=
  events ++ [event]

/-- The export of a module to a hook that collects: the exporter afterwards, what was told, and the
encoding. -/
def run (x : Exporter) (m : Module) : Exporter × List Event × Except EncodeError Value :=
  x.exportTo [collect] m []

end Exporter

end TermText
