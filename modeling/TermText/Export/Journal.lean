import TermText.Export.Exporter
import TermText.Json.Printer

/-!
# Journals

Two kinds of hooks, whose shared state is a journal. A tracer numbers the events it receives and writes
each as one line of a text that all tracers share; a collector keeps the events themselves. A tracer goes
on counting from one export to the next.
-/

namespace TermText

/-- A hook of one of the two kinds. -/
inductive Hook where
  | tracer (index : Nat)
  | collector
  deriving DecidableEq, Repr

/-- What the receivers hold: the lines that all tracers wrote, how many each wrote, how often a
tracer saw an export end, and the events that were collected. -/
structure Journal where
  lines : List Text
  written : Nat → Nat
  flushes : Nat
  collected : List Event

namespace Journal

/-- Nothing received yet. -/
def empty : Journal :=
  ⟨[], fun _ => 0, 0, []⟩

/-- The line for an event that a tracer gives a number; a record may replace the number. -/
def line (number : Nat) (event : Event) : Text :=
  (Json.sortKeys (.object (Json.Fields.insertAll [("seq", .int number)] event.record))).compact

/-- The journal after a tracer received an event. -/
def write (j : Journal) (tracer : Nat) (event : Event) : Journal :=
  { j with
    lines := j.lines ++ [line (j.written tracer) event]
    written := fun t => if t = tracer then j.written t + 1 else j.written t
    flushes := if event.isEnd then j.flushes + 1 else j.flushes }

/-- The journal after a hook received an event. -/
def receive (j : Journal) (event : Event) : Hook → Journal
  | .tracer index => j.write index event
  | .collector => { j with collected := j.collected ++ [event] }

/-- What hooks do to the journal that they share. -/
def receivers (hooks : List Hook) : List (Journal → Event → Journal) :=
  hooks.map fun hook j event => j.receive event hook

/-- The journal after an event was delivered to hooks in order. -/
def deliver (hooks : List Hook) (j : Journal) (event : Event) : Journal :=
  Exporter.notify (receivers hooks) j event

/-- The journal after several events were delivered to hooks. -/
def deliverAll (j : Journal) (hooks : List Hook) (events : List Event) : Journal :=
  events.foldl (deliver hooks) j

/-- The shared text: each line with a line end. -/
def text (j : Journal) : Text :=
  j.lines.flatMap fun line => line ++ [Text.newline]

end Journal

/-- The export of a module to hooks that share a journal: the exporter and the journal afterwards, and the
encoding. -/
def Exporter.exportWith (hooks : List Hook) (x : Exporter) (m : Module) (j : Journal) :
    Exporter × Journal × Except EncodeError Value :=
  x.exportTo (Journal.receivers hooks) m j

end TermText
