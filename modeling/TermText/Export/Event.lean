import TermText.Json.Basic
import TermText.Name.Basic

/-!
# Export events

What an export reports: one event for each declaration, between two events for the module. An event
is written as a record whose fields have a fixed order.
-/

namespace TermText

/-- The outcome for one declaration of a module. Kind and length are reported as they are given. -/
structure DeclarationEvent where
  module : Name
  name : Name
  kind : Json
  kept : Bool
  length : Json

/-- One of the two events that bracket an export; the one at the end carries figures. -/
structure ModuleEvent where
  module : Name
  phase : Text
  stats : Json.Fields

/-- What an export reports. -/
inductive Event where
  | declaration (e : DeclarationEvent)
  | module (e : ModuleEvent)

/-- The record of an event for a declaration. -/
def DeclarationEvent.record (e : DeclarationEvent) : Json.Fields :=
  [("event", .text "declaration"), ("module", .text e.module.toText), ("name", .text e.name.toText),
    ("kind", e.kind), ("status", .text (if e.kept then "kept" else "skipped")),
    ("length", e.length)]

/-- The record of an event for a module; the figures may replace its own fields. -/
def ModuleEvent.record (e : ModuleEvent) : Json.Fields :=
  Json.Fields.insertAll
    [("event", .text ("module-" ++ e.phase)), ("module", .text e.module.toText)] e.stats

namespace Event

/-- The record of an event. -/
def record : Event → Json.Fields
  | .declaration e => e.record
  | .module e => e.record

/-- Whether an event ends an export. -/
def isEnd : Event → Bool
  | .declaration _ => false
  | .module e => e.phase == ("end" : Text)

end Event

end TermText
