import Mathlib.Logic.Function.Basic
import TermText.Proofs.Export.Lines

/-!
# What the hooks of an exporter receive

Each hook receives what an export tells once and in order, whatever it and the other hooks do with it. To say
this of any hooks, they are watched: what each one receives is kept beside their state, by the place of the
hook. Of hooks that share a journal it is said what the journal holds more afterwards: a collector has the
events themselves, and a tracer a line for each, with its next numbers.

One delivery adds to a journal what its hook does, and what deliveries add is put together in their order; so
it is for an event that is delivered to all hooks, for the events of an export and for exports one after
another.
-/

namespace TermText

/-- The tracer that a hook is. -/
def Hook.tracer? : Hook → Option Nat
  | .tracer index => some index
  | .collector => none

namespace Exporter

section Watched

variable {σ : Type} (hooks : List (σ → Event → σ))

/-- The hook at a place, with a record of what it received. -/
def watch (hook : σ → Event → σ) (place : Nat) (watched : σ × (Nat → List Event)) (event : Event) :
    σ × (Nat → List Event) :=
  (hook watched.1 event, Function.update watched.2 place (watched.2 place ++ [event]))

/-- Hooks with a record of what each of them received. -/
def watched : List (σ × (Nat → List Event) → Event → σ × (Nat → List Event)) :=
  hooks.zipIdx.map fun (hook, place) => watch hook place

/-- Of the hooks that are counted from a number on, the one at a place receives an event once. -/
theorem notify_watch (start : Nat) (s : σ) (received : Nat → List Event) (event : Event) :
    notify ((hooks.zipIdx start).map fun (hook, place) => watch hook place) (s, received) event =
      (notify hooks s event, fun place =>
        if start ≤ place ∧ place < start + hooks.length then received place ++ [event] else received place) := by
  induction hooks generalizing start s received with
  | nil =>
    have hnone : ∀ place, ¬(start ≤ place ∧ place < start + ([] : List (σ → Event → σ)).length) :=
      fun place h => by rw [List.length_nil] at h; omega
    simp only [hnone, if_false]
    rfl
  | cons hook rest ih =>
    have hrest := ih (start + 1) (hook s event) (Function.update received start (received start ++ [event]))
    refine hrest.trans (congrArg (Prod.mk _) (funext fun place => ?_))
    rw [List.length_cons]
    by_cases hplace : place = start
    · subst hplace
      rw [if_neg (by omega), if_pos (by omega), Function.update_self]
    · rw [Function.update_of_ne hplace]
      exact if_congr (by omega) rfl rfl

/-- Watching hooks leaves what they do as it is, and each of them receives all events in order. -/
theorem foldl_notify_watched (events : List Event) (s : σ) (received : Nat → List Event) :
    ∃ after, events.foldl (notify (watched hooks)) (s, received) = (events.foldl (notify hooks) s, after) ∧
      ∀ place < hooks.length, after place = received place ++ events := by
  induction events generalizing s received with
  | nil => exact ⟨received, rfl, fun place _ => (List.append_nil _).symm⟩
  | cons event rest ih =>
    obtain ⟨after, hafter, hall⟩ := ih (notify hooks s event) fun place =>
      if 0 ≤ place ∧ place < 0 + hooks.length then received place ++ [event] else received place
    refine ⟨after, ?_, fun place hplace => ?_⟩
    · rw [List.foldl_cons, watched, notify_watch]
      exact hafter
    · rw [hall place hplace, if_pos (by omega), List.append_assoc]
      rfl

end Watched

end Exporter

namespace Journal

/-- The deliveries of events to hooks: event by event, and of each event hook by hook. -/
def deliveries (hooks : List Hook) (events : List Event) : List (Hook × Event) :=
  events.flatMap fun event => hooks.map fun hook => (hook, event)

/-- The deliveries to tracers. -/
def toTracers (received : List (Hook × Event)) : List (Nat × Event) :=
  received.filterMap fun (hook, event) => hook.tracer?.map fun tracer => (tracer, event)

/-- The events that are delivered to collectors. -/
def toCollectors (received : List (Hook × Event)) : List Event :=
  received.filterMap fun (hook, event) => if hook = .collector then some event else none

/-- What deliveries add to a journal: a line for each one to a tracer, numbered on from what this tracer
wrote, and the events of those to collectors. -/
structure Grows (j j' : Journal) (received : List (Hook × Event)) (added : List TraceLine) : Prop where
  lines_eq : j'.lines = j.lines ++ added.map TraceLine.text
  delivered_eq : (added.map fun l => (l.tracer, l.event)) = toTracers received
  written_eq : ∀ tracer, j'.written tracer = j.written tracer + (added.filter (·.tracer = tracer)).length
  numbers_eq : ∀ tracer, (added.filter (·.tracer = tracer)).map (·.number) =
    List.range' (j.written tracer) (added.filter (·.tracer = tracer)).length
  collected_eq : j'.collected = j.collected ++ toCollectors received

variable {j j' j'' : Journal} {received received' : List (Hook × Event)} {added added' : List TraceLine}

/-- Nothing is added without a delivery. -/
theorem Grows.refl (j : Journal) : j.Grows j [] [] where
  lines_eq := (List.append_nil _).symm
  delivered_eq := rfl
  written_eq _ := rfl
  numbers_eq _ := rfl
  collected_eq := (List.append_nil _).symm

/-- What deliveries add is put together in their order. -/
theorem Grows.trans (h : j.Grows j' received added) (h' : j'.Grows j'' received' added') :
    j.Grows j'' (received ++ received') (added ++ added') where
  lines_eq := by rw [h'.lines_eq, h.lines_eq, List.map_append, List.append_assoc]
  delivered_eq := by
    rw [List.map_append, h.delivered_eq, h'.delivered_eq, toTracers, toTracers, toTracers,
      List.filterMap_append]
  written_eq tracer := by
    rw [h'.written_eq, h.written_eq, List.filter_append, List.length_append, Nat.add_assoc]
  numbers_eq tracer := by
    rw [List.filter_append, List.map_append, List.length_append, h.numbers_eq, h'.numbers_eq, h.written_eq,
      List.range'_append_1]
  collected_eq := by
    rw [h'.collected_eq, h.collected_eq, toCollectors, toCollectors, toCollectors, List.filterMap_append,
      List.append_assoc]

/-- A tracer adds a line with its next number, a collector the event. -/
theorem exists_grows_receive (j : Journal) (event : Event) (hook : Hook) :
    ∃ added, j.Grows (j.receive event hook) [(hook, event)] added := by
  cases hook with
  | collector =>
    refine ⟨[], (List.append_nil _).symm, rfl, fun _ => rfl, fun _ => rfl, rfl⟩
  | tracer index =>
    refine ⟨[⟨index, j.written index, event⟩], rfl, rfl, fun tracer => ?_, fun tracer => ?_,
      (List.append_nil _).symm⟩
    · change (if tracer = index then j.written tracer + 1 else j.written tracer) = _
      rw [List.filter_singleton]
      by_cases htracer : tracer = index
      · rw [if_pos htracer, decide_eq_true htracer.symm]
        rfl
      · rw [if_neg htracer, decide_eq_false (Ne.symm htracer)]
        rfl
    · rw [List.filter_singleton]
      by_cases htracer : tracer = index
      · rw [decide_eq_true htracer.symm, htracer]
        rfl
      · rw [decide_eq_false (Ne.symm htracer)]
        rfl

/-- An event adds what each of the hooks does. -/
theorem exists_grows_deliver (j : Journal) (hooks : List Hook) (event : Event) :
    ∃ added, j.Grows (deliver hooks j event) (hooks.map fun hook => (hook, event)) added := by
  induction hooks generalizing j with
  | nil => exact ⟨[], .refl j⟩
  | cons hook rest ih =>
    obtain ⟨first, hfirst⟩ := j.exists_grows_receive event hook
    obtain ⟨others, hothers⟩ := ih (j.receive event hook)
    exact ⟨first ++ others, hfirst.trans hothers⟩

/-- Events add what their deliveries do. -/
theorem exists_grows_deliverAll (j : Journal) (hooks : List Hook) (events : List Event) :
    ∃ added, j.Grows (j.deliverAll hooks events) (deliveries hooks events) added := by
  induction events generalizing j with
  | nil => exact ⟨[], .refl j⟩
  | cons event rest ih =>
    obtain ⟨first, hfirst⟩ := j.exists_grows_deliver hooks event
    obtain ⟨others, hothers⟩ := ih (deliver hooks j event)
    exact ⟨first ++ others, hfirst.trans hothers⟩

/-- What hooks received of events, in a journal that they share: each collector every event, and each tracer a
line for every event, numbered on from those that it wrote before. A line that can be read back is read as its
record, which holds the number and the fields of the event. -/
structure Receives (j j' : Journal) (hooks : List Hook) (events : List Event) : Prop where
  collected_eq : j'.collected =
    j.collected ++ events.flatMap fun event => List.replicate (hooks.count .collector) event
  written_eq : ∀ tracer, j'.written tracer = j.written tracer + hooks.count (.tracer tracer) * events.length
  lines_eq : ∃ added : List TraceLine, j'.lines = j.lines ++ added.map TraceLine.text ∧
    (added.map fun l => (l.tracer, l.event)) =
      (events.flatMap fun event => (hooks.filterMap Hook.tracer?).map fun tracer => (tracer, event)) ∧
    (∀ tracer, (added.filter (·.tracer = tracer)).map (·.number) =
      List.range' (j.written tracer) (hooks.count (.tracer tracer) * events.length)) ∧
    ∀ l ∈ added, l.Readable → Json.parse l.text = .ok l.record

/-- Of the deliveries of events, those to collectors. -/
theorem toCollectors_deliveries (hooks : List Hook) (events : List Event) :
    toCollectors (deliveries hooks events) =
      events.flatMap fun event => List.replicate (hooks.count .collector) event := by
  have hone (event : Event) : (hooks.map fun hook => (hook, event)).filterMap
      (fun (hook, event) => if hook = .collector then some event else none) =
        List.replicate (hooks.count .collector) event := by
    induction hooks with
    | nil => rfl
    | cons hook rest ih =>
      rw [List.map_cons, List.filterMap_cons, List.count_cons]
      by_cases hhook : hook = .collector
      · simp [hhook, ih, List.replicate_succ]
      · simp [hhook, ih]
  rw [toCollectors, deliveries, List.filterMap_flatMap]
  simp only [hone]

/-- Of the deliveries of events, those to tracers. -/
theorem toTracers_deliveries (hooks : List Hook) (events : List Event) :
    toTracers (deliveries hooks events) =
      events.flatMap fun event => (hooks.filterMap Hook.tracer?).map fun tracer => (tracer, event) := by
  rw [toTracers, deliveries, List.filterMap_flatMap]
  simp only [List.filterMap_map, Function.comp_def, List.map_filterMap]

/-- A tracer receives each event as often as it is among the hooks. -/
theorem countP_toTracers (hooks : List Hook) (events : List Event) (tracer : Nat) :
    (toTracers (deliveries hooks events)).countP (·.1 = tracer) =
      hooks.count (.tracer tracer) * events.length := by
  have hone (event : Event) : ((hooks.filterMap Hook.tracer?).map fun tracer => (tracer, event)).countP
      (·.1 = tracer) = hooks.count (.tracer tracer) := by
    induction hooks with
    | nil => rfl
    | cons hook rest ih =>
      cases hook with
      | collector => simpa [Hook.tracer?, List.filterMap_cons] using ih
      | tracer index => simpa [Hook.tracer?, List.filterMap_cons, List.countP_cons, List.count_cons] using ih
  rw [toTracers_deliveries]
  induction events with
  | nil => rfl
  | cons event rest ih =>
    rw [List.flatMap_cons, List.countP_append, ih, hone, List.length_cons, Nat.mul_succ, Nat.add_comm]

/-- What the deliveries of events add is what the hooks received. -/
theorem Grows.receives {hooks : List Hook} {events : List Event}
    (h : j.Grows j' (deliveries hooks events) added) : j.Receives j' hooks events := by
  have hlength (tracer : Nat) : (added.filter (·.tracer = tracer)).length =
      hooks.count (.tracer tracer) * events.length := by
    rw [← countP_toTracers, ← h.delivered_eq, List.countP_map, ← List.countP_eq_length_filter]
    rfl
  refine ⟨?_, fun tracer => ?_, added, h.lines_eq, ?_, fun tracer => ?_, fun l _ hl => hl.parse_text⟩
  · rw [h.collected_eq, toCollectors_deliveries]
  · rw [h.written_eq, hlength]
  · rw [h.delivered_eq, toTracers_deliveries]
  · rw [h.numbers_eq, hlength]

end Journal

/-- An export to hooks: the exporter and the state of the hooks before it and afterwards, and what it
returned. -/
structure Call (σ : Type) where
  before : Exporter
  given : σ
  after : Exporter
  left : σ
  result : Except EncodeError Value

namespace Exporter

section Calls

variable {σ : Type} (hooks : List (σ → Event → σ)) {x : Exporter} {ms : List Module}

/-- The export of a module to hooks. -/
def call (x : Exporter) (s : σ) (m : Module) : Call σ :=
  let (after, left, result) := x.exportTo hooks m s
  ⟨x, s, after, left, result⟩

/-- The exports of modules one after another to hooks. An export that fails does not keep the next one from
being made. -/
def calls (x : Exporter) (s : σ) : List Module → List (Call σ)
  | [] => []
  | m :: rest => x.call hooks s m :: calls (x.call hooks s m).after (x.call hooks s m).left rest

/-- An export to hooks leaves what the export to a hook that collects leaves, and the hooks in the state in
which the collected events put them. -/
theorem call_eq (x : Exporter) (s : σ) (m : Module) :
    x.call hooks s m =
      ⟨x, s, (x.run m).1, (x.run m).2.1.foldl (notify hooks) s, (x.run m).2.2⟩ := by
  rw [call, exportTo_eq]

/-- What holds of each export by an exporter with given settings, holds of exports one after another. -/
theorem forall₂_calls {P : Module → Call σ → Prop} (hms : ∀ m ∈ ms, m.Writable)
    (hcall : ∀ (y : Exporter) s m, m.Writable → y.internal = x.internal →
      y.includeInternal = x.includeInternal → P m (y.call hooks s m)) (s : σ) :
    List.Forall₂ P ms (x.calls hooks s ms) := by
  suffices hall : ∀ y : Exporter, y.internal = x.internal → y.includeInternal = x.includeInternal →
      List.Forall₂ P ms (y.calls hooks s ms) from hall x rfl rfl
  intro y hinternal hinclude
  induction ms generalizing y s with
  | nil => exact .nil
  | cons m rest ih =>
    obtain ⟨hm, hrest⟩ := List.forall_mem_cons.mp hms
    have hafter : (y.call hooks s m).after = (y.run m).1 := congrArg Call.after (call_eq hooks y s m)
    obtain ⟨hinternal', hinclude'⟩ := y.run_settings m
    rw [← hafter] at hinternal' hinclude'
    exact .cons (hcall y s m hm hinternal hinclude)
      (ih hrest _ _ (hinternal'.trans hinternal) (hinclude'.trans hinclude))

end Calls

end Exporter

namespace Call

variable {σ : Type}

/-- An export whose hooks each received just what it tells, in order: watching them changes nothing, and adds
just this to what each one received before. -/
def Heard (hooks : List (σ → Event → σ)) (m : Module) (c : Call σ) : Prop :=
  ∀ received, ∃ received',
    c.before.exportTo (Exporter.watched hooks) m (c.given, received) =
        (c.after, (c.left, received'), c.result) ∧
      ∀ place < hooks.length, received' place = received place ++ c.after.told m.name c.result.isOk

end Call

namespace Exporter

/-- Whatever an exporter holds, whatever hooks it has and whatever modules it exports one after another, each
export leaves the events of its own module and figures that agree with them, and each hook receives just these
events between a begin and, if the export succeeded, an end with the figures. In a journal a collector has
them afterwards, and a tracer a line for each. -/
theorem runs_report (x : Exporter) (ms : List Module) (hms : ∀ m ∈ ms, m.Writable) :
    (∀ (σ : Type) (hooks : List (σ → Event → σ)) (s : σ),
      List.Forall₂ (fun m call => x.Report m call.after call.result ∧ call.Heard hooks m)
        ms (x.calls hooks s ms)) ∧
    ∀ (hooks : List Hook) (j : Journal),
      List.Forall₂ (fun m call => x.Report m call.after call.result ∧
          call.given.Receives call.left hooks (call.after.told m.name call.result.isOk))
        ms (x.calls (Journal.receivers hooks) j ms) := by
  constructor
  · intro σ hooks s
    refine forall₂_calls hooks hms (fun y s m hm hinternal hinclude => ?_) s
    obtain ⟨hreport, htold⟩ := y.report_run m hm
    rw [call_eq]
    refine ⟨hreport.of_settings hinternal hinclude, fun received => ?_⟩
    obtain ⟨received', hwatched, hall⟩ := foldl_notify_watched hooks (y.run m).2.1 s received
    refine ⟨received', ?_, htold ▸ hall⟩
    rw [exportTo_eq, hwatched]
  · intro hooks j
    refine forall₂_calls _ hms (fun y j m hm hinternal hinclude => ?_) j
    obtain ⟨hreport, htold⟩ := y.report_run m hm
    rw [call_eq]
    refine ⟨hreport.of_settings hinternal hinclude, ?_⟩
    obtain ⟨added, hgrows⟩ := j.exists_grows_deliverAll hooks (y.run m).2.1
    exact htold ▸ hgrows.receives

/-- An export that fails at its third declaration leaves the events of the first two, and the next one starts
afresh. The collector between two tracers has no end of the first export, and the tracers number the lines of
the second one on. -/
theorem runs_report_after_failure :
    let n : Name := .extend .anonymous (.text "a") (.int 7)
    let hidden : Name := .extend .anonymous (.text "_b") (.int 8)
    let x := new Name.isInternal false
    let hooks : List Hook := [.tracer 0, .collector, .tracer 1]
    let failing : Module := ⟨n, [.mk n (.boundVar 0 0) .assumption,
      .mk hidden (.boundVar 1 0) .eliminator, .mk n (.foreign 2 (.builtin "NoneType" true 0)) .assumption]⟩
    let sound : Module := ⟨n, [.mk n (.boundVar 3 0) .eliminator]⟩
    let calls := x.calls (Journal.receivers hooks) Journal.empty [failing, sound]
    List.Forall₂ (fun m call => x.Report m call.after call.result ∧
        call.given.Receives call.left hooks (call.after.told m.name call.result.isOk))
      [failing, sound] calls ∧
      calls.map (·.after.kindCounts) =
        ([[("axiom", 1)], [("recursor", 1)]] : List (List (Text × Nat))) ∧
      calls.map (·.after.events.map (·.kept)) = [[true, false], [true]] ∧
      calls.map (·.result.isOk) = [false, true] ∧
      calls.map (·.left.collected.map Event.isEnd) =
        [[false, false, false], [false, false, false, false, false, true]] ∧
      calls.map (fun call => (call.left.written 0, call.left.written 1)) = [(3, 3), (6, 6)] ∧
      calls.map (fun call => (call.left.lines.length, call.left.lines.getLast?)) =
        ([(6, some "\x7b\"event\": \"declaration\", \"kind\": \"recursor\", \"length\": 0, \"module\": \"a\", \"name\": \"_b\", \"seq\": 2, \"status\": \"skipped\"\x7d"),
          (12, some "\x7b\"declarations\": 1, \"event\": \"module-end\", \"kept\": 1, \"kind_counts\": \x7b\"recursor\": 1\x7d, \"module\": \"a\", \"seq\": 5, \"skipped\": 0\x7d")] :
          List (Nat × Option Text)) := by
  intro n hidden x hooks failing sound calls
  have hn : n.Writable := ⟨⟨1723, rfl⟩, 7, rfl⟩
  have hhidden : hidden.Writable := ⟨⟨1723, rfl⟩, 8, rfl⟩
  refine ⟨(runs_report x [failing, sound] ?_).2 hooks Journal.empty, ?_, ?_, ?_, ?_, ?_, ?_⟩
  · simp [failing, sound, Module.Writable, Declaration.Writable, Declaration.PayloadWritable,
      Term.Writable, hn, hhidden]
  · cbv
  · cbv
  · cbv
  · cbv
  · cbv
  · cbv

end Exporter

end TermText
