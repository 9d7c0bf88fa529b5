import Mathlib.Algebra.Order.BigOperators.Group.List
import TermText.Proofs.Export.Delivery
import TermText.Proofs.Text.Parts

/-!
# Traces of exports

Several exporters report to tracers that write to one text, a tracer being a hook of any number of them. The
text is read back as what was delivered: each delivery is a line, the lines of a tracer are numbered without
gaps, and the history of the lines holds the declarations of each module, also of one whose export failed.

The lines that a journal holds are numbered from zero for each tracer, deliveries keep them so, and an export
delivers events that begin with the begin of its module. Both are kept from one export to the next, whatever
the exporters did before.
-/

namespace TermText

/-- A module with names that are read back, and with so few declarations of such lengths that their numbers
are. -/
structure Module.Traceable (m : Module) : Prop where
  name : m.name.toText.Unpaired
  names : ∀ d ∈ m.declarations, d.name.toText.Unpaired
  lengths : ∀ d ∈ m.declarations, ∀ v, d.encode = .ok v → Numeral.Fits v.render.length
  count : Numeral.Fits m.declarations.length

namespace Exporter

/-- The figures of an exporter after a number of declarations: no more events than these, kinds that are
counted once each, and no more counted than these. -/
structure Tallied (x : Exporter) (n : Nat) : Prop where
  events_le : x.events.length ≤ n
  distinct : (x.kindCounts.map Prod.fst).Nodup
  words : ∀ key ∈ x.kindCounts.map Prod.fst, ∃ kind : DeclarationKind, key = kind.word
  sum_le : (x.kindCounts.map Prod.snd).sum ≤ n

variable {x : Exporter} {n : Nat} {module : Name} {ds : List Declaration}

/-- What is within a tally is within a larger one. -/
theorem Tallied.mono (h : x.Tallied n) {more : Nat} (hle : n ≤ more) : x.Tallied more :=
  ⟨Nat.le_trans h.events_le hle, h.distinct, h.words, Nat.le_trans h.sum_le hle⟩

/-- Counting a kind counts one more. -/
theorem Tallied.addKind (h : x.Tallied n) (kind : DeclarationKind) :
    Tallied { x with kindCounts := addKind kind.word x.kindCounts } (n + 1) where
  events_le := Nat.le_succ_of_le h.events_le
  distinct := nodup_keys_addKind kind.word h.distinct
  words key hkey := by
    obtain rfl | hkey := mem_keys_addKind hkey
    · exact ⟨kind, rfl⟩
    · exact h.words key hkey
  sum_le := by
    rw [sum_addKind]
    exact Nat.succ_le_succ h.sum_le

/-- A declaration adds an event, and counts its kind if it is kept. -/
theorem Tallied.record (h : x.Tallied n) (kind : DeclarationKind) (e : DeclarationEvent) :
    (x.record kind e).Tallied (n + 1) := by
  have hlength : (x.record kind e).events.length ≤ n + 1 := by
    rw [Exporter.record, List.length_append]
    exact Nat.succ_le_succ h.events_le
  cases hkept : e.kept with
  | false =>
    have hcounts : (x.record kind e).kindCounts = x.kindCounts := by rw [Exporter.record, hkept]; rfl
    apply Tallied.mk hlength <;> rw [hcounts]
    · exact h.distinct
    · exact h.words
    · exact Nat.le_succ_of_le h.sum_le
  | true =>
    have hcounts : (x.record kind e).kindCounts = Exporter.addKind kind.word x.kindCounts := by
      rw [Exporter.record, hkept]
      rfl
    apply Tallied.mk hlength <;> rw [hcounts]
    · exact (h.addKind kind).distinct
    · exact (h.addKind kind).words
    · exact (h.addKind kind).sum_le

/-- A declaration that ends the export adds no event; at most its kind is counted. -/
theorem Tallied.afterFailure (h : x.Tallied n) (d : Declaration) (error : EncodeError) :
    (x.afterFailure d error).Tallied (n + 1) := by
  rw [Exporter.afterFailure]
  split
  · exact h.addKind _
  · exact h.mono (Nat.le_succ n)

/-- The loop over a table counts no more than the table. -/
theorem Tallied.exportTable {σ : Type} (h : x.Tallied n) (hooks : List (σ → Event → σ)) (module : Name) (s : σ)
    (ds : List Declaration) : (exportTable hooks module x s ds).1.Tallied (n + ds.length) := by
  induction ds generalizing x n s with
  | nil => exact h
  | cons d rest ih =>
    rw [Exporter.exportTable, List.length_cons]
    cases x.outcome module d with
    | error error => exact (h.afterFailure d error).mono (by omega)
    | ok given =>
      exact (ih (h.record given.1 given.2.1) (notify hooks s (.declaration given.2.1))).mono (by omega)

/-- The figures of an exporter can be read back if their bound can. -/
theorem Tallied.reported_end (h : x.Tallied n) (hn : Numeral.Fits n) (module : Name) :
    (Event.module ⟨module, "end", x.stats⟩).Reported module := by
  have hkept : x.events.countP (·.kept) ≤ x.events.length := List.countP_le_length
  have hlength := h.events_le
  have hfits {k : Int} (hk : k.natAbs ≤ n) : Numeral.Fits k := Nat.lt_of_le_of_lt hk hn
  have hsorted := Json.Fields.perm_sort (x.kindCounts.map fun entry => (entry.1, Json.int entry.2))
  have hkeys : (x.kindCounts.map fun entry => (entry.1, Json.int entry.2)).map Prod.fst =
      x.kindCounts.map Prod.fst := List.map_map
  apply Event.Reported.finish (hfits (by omega)) (hfits (by omega)) (hfits (by omega))
  apply Json.Rereadable.object
  · rw [(hsorted.map Prod.fst).nodup_iff, hkeys]
    exact h.distinct
  · intro key hkey
    rw [(hsorted.map Prod.fst).mem_iff, hkeys] at hkey
    obtain ⟨kind, rfl⟩ := h.words key hkey
    exact kind.unpaired_word
  · intro field hfield
    obtain ⟨⟨kind, count⟩, hmem, rfl⟩ := List.mem_map.mp (hsorted.mem_iff.mp hfield)
    have hcount : count ≤ (x.kindCounts.map Prod.snd).sum := List.le_sum_of_mem (List.mem_map_of_mem hmem)
    exact .int (hfits (Nat.le_trans hcount h.sum_le))

/-- Reported declarations. -/
theorem reported_of_reports {keeps : Declaration → Bool} {d : Declaration} {e : DeclarationEvent}
    (h : e.Reports keeps module d) (hname : d.name.toText.Unpaired)
    (hlength : ∀ v, d.encode = .ok v → Numeral.Fits v.render.length) :
    (Event.declaration e).Reported module := by
  obtain ⟨kind, -, hkind⟩ := h.kind_eq
  have hfits : ∃ length : Nat, e.length = .int length ∧ Numeral.Fits length := by
    have hgiven := h.length_eq
    split at hgiven
    · obtain ⟨v, hv, hlen⟩ := hgiven
      exact ⟨_, hlen, hlength v hv⟩
    · exact ⟨0, hgiven, Numeral.fits_of_lt_pow 1 (by decide) (by decide)⟩
  obtain ⟨length, hlen, hfits⟩ := hfits
  obtain ⟨module', name, kind', kept, length'⟩ := e
  cases h.module_eq
  cases h.name_eq
  cases hkind
  cases hlen
  exact .declaration hname kind kept hfits

/-- An export of a module reports its begin and then events of it. -/
theorem reported_run (x : Exporter) {m : Module} (hm : m.Traceable) :
    ∃ events, (x.run m).2.1 = .module ⟨m.name, "begin", []⟩ :: events ∧
      ∀ event ∈ events, event.Reported m.name := by
  let begun := notify [collect] [] (.module ⟨m.name, "begin", []⟩)
  obtain ⟨added, htold, hreports⟩ := exists_told_of_exportTable [collect]
    { x with events := [], kindCounts := [] } m.name begun m.declarations
  rw [foldl_notify_collect] at htold
  have hdeclarations : ∀ event ∈ added.map Event.declaration, event.Reported m.name := by
    intro event hevent
    obtain ⟨e, he, rfl⟩ := List.mem_map.mp hevent
    obtain ⟨d, hd, hreport⟩ := hreports e he
    exact reported_of_reports hreport (hm.names d hd) (hm.lengths d hd)
  have htallied : Tallied { x with events := [], kindCounts := [] } 0 :=
    ⟨Nat.le_refl 0, List.nodup_nil, List.forall_mem_nil _, Nat.le_refl 0⟩
  have hafter := (htallied.exportTable [collect] m.name begun m.declarations).mono
    (Nat.le_of_eq (Nat.zero_add _))
  rw [run, exportTo]
  generalize exportTable [collect] m.name _ _ m.declarations = r at htold hafter
  obtain ⟨after, told, result⟩ := r
  cases htold
  cases result with
  | error error => exact ⟨added.map .declaration, rfl, hdeclarations⟩
  | ok kept =>
    refine ⟨added.map .declaration ++ [.module ⟨m.name, "end", after.stats⟩], rfl, ?_⟩
    exact List.forall_mem_append.mpr
      ⟨hdeclarations, List.forall_mem_singleton.mpr (hafter.reported_end hm.count m.name)⟩

end Exporter

namespace History

variable {events more : List Event} {t : Text}

/-- Nothing was begun in an empty history. -/
theorem begun_nil : Begun [] := by
  intro before event after heq
  exact absurd heq.symm (List.append_ne_nil_of_right_ne_nil before (List.cons_ne_nil event after))

/-- Events of one module begin with its begin, or with any event that is no end. -/
theorem begun_of_forall (htext : ∀ event ∈ events, event.moduleText = t)
    (hhead : ∀ event ∈ events.head?, event.isEnd = false) : Begun events := by
  rintro before event after rfl hend
  cases before with
  | nil => exact absurd hend (Bool.eq_false_iff.mp (hhead event rfl))
  | cons first rest =>
    have hfirst := htext first List.mem_cons_self
    have hevent := htext event (List.mem_append_right _ List.mem_cons_self)
    exact List.mem_cons.mpr (.inl (hevent.trans hfirst.symm))

/-- Events one after another end no module that did not begin before if neither do. -/
theorem Begun.append (h : Begun events) (hmore : Begun more) : Begun (events ++ more) := by
  intro before event after heq hend
  rcases List.append_eq_append_iff.mp heq with ⟨rest, rfl, hrest⟩ | ⟨rest, rfl, hrest⟩
  · rw [List.map_append]
    exact List.mem_append_right _ (hmore rest event after hrest hend)
  · cases rest with
    | nil => exact absurd (hmore [] event after hrest.symm hend) List.not_mem_nil
    | cons first rest =>
      obtain ⟨rfl, rfl⟩ := List.cons.inj hrest
      exact h before event rest rfl hend

end History

namespace Journal

/-- The deliveries of events to the tracers among hooks: event by event, and of each event tracer by
tracer. -/
def traced (hooks : List Hook) (events : List Event) : List (Nat × Event) :=
  events.flatMap fun event => (hooks.filterMap Hook.tracer?).map fun tracer => (tracer, event)

/-- A journal that holds just the given lines, those of each tracer numbered from zero. -/
structure Holds (j : Journal) (lines : List TraceLine) : Prop where
  lines_eq : j.lines = lines.map TraceLine.text
  numbers_eq : ∀ tracer,
    (lines.filter fun l => l.tracer = tracer).map (·.number) = List.range (j.written tracer)

/-- A line has a number below that of all lines. -/
theorem Holds.number_lt {j : Journal} {lines : List TraceLine} (h : j.Holds lines) {l : TraceLine}
    (hl : l ∈ lines) : l.number < lines.length := by
  have hnumbers := h.numbers_eq l.tracer
  have hmem : l.number ∈ List.range (j.written l.tracer) :=
    hnumbers ▸ List.mem_map_of_mem (List.mem_filter.mpr ⟨hl, decide_eq_true rfl⟩)
  have hwritten : (lines.filter fun other => other.tracer = l.tracer).length = j.written l.tracer := by
    rw [← List.length_map (·.number), hnumbers, List.length_range]
  have hlength := List.length_filter_le (fun other => decide (other.tracer = l.tracer)) lines
  have hlt := List.mem_range.mp hmem
  omega

/-- A journal that holds the lines of another one and a line for each of some deliveries. -/
def Extends (j j' : Journal) (received : List (Nat × Event)) : Prop :=
  ∀ lines, j.Holds lines →
    ∃ added, j'.Holds (lines ++ added) ∧ (added.map fun l => (l.tracer, l.event)) = received

variable {j j' j'' : Journal} {received received' : List (Nat × Event)}

/-- A journal extends itself by no records. -/
theorem Extends.refl (j : Journal) : j.Extends j [] := fun lines hlines =>
  ⟨[], (List.append_nil lines).symm ▸ hlines, rfl⟩

/-- What extends an extension extends the first journal, by the records of both. -/
theorem Extends.trans (h : j.Extends j' received) (h' : j'.Extends j'' received') :
    j.Extends j'' (received ++ received') := by
  intro lines hlines
  obtain ⟨added, hadded, hreceived⟩ := h lines hlines
  obtain ⟨added', hadded', hreceived'⟩ := h' (lines ++ added) hadded
  refine ⟨added ++ added', ?_, ?_⟩
  · rwa [← List.append_assoc]
  · rw [List.map_append, hreceived, hreceived']

/-- What deliveries add keeps the lines of each tracer numbered from zero. -/
theorem Grows.extends {deliveries : List (Hook × Event)} {added : List TraceLine}
    (h : j.Grows j' deliveries added) : j.Extends j' (toTracers deliveries) := by
  intro lines hlines
  refine ⟨added, ⟨?_, fun tracer => ?_⟩, h.delivered_eq⟩
  · rw [h.lines_eq, hlines.lines_eq, List.map_append]
  · rw [List.filter_append, List.map_append, hlines.numbers_eq, h.numbers_eq, h.written_eq,
      List.range_eq_range', List.range_eq_range', ← List.range'_append_1, Nat.zero_add]

/-- Events add a line for each delivery. -/
theorem extends_deliverAll (j : Journal) (hooks : List Hook) (events : List Event) :
    j.Extends (j.deliverAll hooks events) (traced hooks events) := by
  obtain ⟨added, hadded⟩ := j.exists_grows_deliverAll hooks events
  rw [traced, ← toTracers_deliveries]
  exact hadded.extends

/-- What is delivered are the events. -/
theorem snd_mem_of_mem_traced {hooks : List Hook} {events : List Event} {delivery : Nat × Event}
    (h : delivery ∈ traced hooks events) : delivery.2 ∈ events := by
  obtain ⟨event, hevent, hmem⟩ := List.mem_flatMap.mp h
  obtain ⟨tracer, -, rfl⟩ := List.mem_map.mp hmem
  exact hevent

/-- The deliveries of events of one module begin with those of its begin. -/
theorem begun_traced (hooks : List Hook) {first : Event} {events : List Event} {t : Text}
    (htext : ∀ event ∈ first :: events, event.moduleText = t) (hfirst : first.isEnd = false) :
    History.Begun ((traced hooks (first :: events)).map Prod.snd) := by
  apply History.begun_of_forall
  · intro event hevent
    obtain ⟨delivery, hdelivery, rfl⟩ := List.mem_map.mp hevent
    exact htext delivery.2 (snd_mem_of_mem_traced hdelivery)
  · intro event hevent
    cases htracers : hooks.filterMap Hook.tracer? with
    | nil =>
      have hnone : traced hooks (first :: events) = [] :=
        List.flatMap_eq_nil_iff.mpr fun event _ => by rw [htracers, List.map_nil]
      rw [hnone] at hevent
      cases hevent
    | cons tracer rest =>
      rw [traced, htracers] at hevent
      cases hevent
      exact hfirst

end Journal

section Lines

variable {parts : List Text}

/-- A text is split into the lines that it was put together of, and what follows the last line end. -/
theorem Text.splitOn_lines (h : ∀ part ∈ parts, newline ∉ part) :
    splitOn newline (parts.flatMap fun part => part ++ [newline]) = parts ++ [[]] := by
  induction parts with
  | nil => rfl
  | cons part rest ih =>
    obtain ⟨hpart, hrest⟩ := List.forall_mem_cons.mp h
    rw [List.flatMap_cons, List.append_assoc, List.singleton_append, splitOn_append,
      splitOn_of_notMem hpart, ih hrest]
    rfl

/-- There is no line end in ASCII without control characters. -/
theorem Text.Ascii.newline_notMem {t : Text} (h : t.Ascii) : newline ∉ t := fun hmem =>
  absurd (h newline hmem) (by decide)

end Lines

/-- Exporters that share a journal. -/
structure Exports (ι : Type) where
  exporter : ι → Exporter
  journal : Journal

namespace Exports

variable {ι : Type} [DecidableEq ι] (hooks : ι → List Hook)

/-- Exporters before their journal received anything. They may have exported before. -/
def start (exporter : ι → Exporter) : Exports ι :=
  ⟨exporter, Journal.empty⟩

/-- The exporters after one of them exported a module, whether the export failed or not. -/
def after (s : Exports ι) (step : ι × Module) : Exports ι :=
  let (x, journal, _) := (s.exporter step.1).exportWith (hooks step.1) step.2 s.journal
  ⟨Function.update s.exporter step.1 x, journal⟩

/-- The exporters after exports one after another. -/
def afterAll (s : Exports ι) (steps : List (ι × Module)) : Exports ι :=
  steps.foldl (after hooks) s

/-- What exports one after another deliver to tracers. -/
def traced (s : Exports ι) : List (ι × Module) → List (Nat × Event)
  | [] => []
  | step :: rest =>
    Journal.traced (hooks step.1) ((s.exporter step.1).run step.2).2.1 ++ (s.after hooks step).traced rest

/-- Exports one after another add a line for each delivery. -/
theorem extends_afterAll (s : Exports ι) (steps : List (ι × Module)) :
    s.journal.Extends (s.afterAll hooks steps).journal (s.traced hooks steps) := by
  induction steps generalizing s with
  | nil => exact Journal.Extends.refl s.journal
  | cons step rest ih =>
    have hjournal : (s.after hooks step).journal =
        s.journal.deliverAll (hooks step.1) ((s.exporter step.1).run step.2).2.1 := by
      rw [after, Exporter.exportWith, Exporter.exportTo_eq]
      rfl
    have hfirst := s.journal.extends_deliverAll (hooks step.1) ((s.exporter step.1).run step.2).2.1
    exact (hjournal ▸ hfirst).trans (ih (s.after hooks step))

/-- What exports of traceable modules deliver can be read back, and ends no module that did not begin
before. -/
theorem reported_traced (s : Exports ι) {steps : List (ι × Module)} (hsteps : ∀ step ∈ steps, step.2.Traceable) :
    (∀ delivery ∈ s.traced hooks steps,
        ∃ module, delivery.2.Reported module ∧ module.toText.Unpaired) ∧
      History.Begun ((s.traced hooks steps).map Prod.snd) := by
  induction steps generalizing s with
  | nil =>
    exact ⟨List.forall_mem_nil _, History.begun_nil⟩
  | cons step rest ih =>
    obtain ⟨hstep, hrest⟩ := List.forall_mem_cons.mp hsteps
    obtain ⟨hreportedRest, hbegunRest⟩ := ih (s.after hooks step) hrest
    obtain ⟨events, hevents, hreported⟩ := (s.exporter step.1).reported_run hstep
    have hall := List.forall_mem_cons.mpr ⟨Event.Reported.begin, hreported⟩
    rw [traced, hevents]
    refine ⟨List.forall_mem_append.mpr ⟨fun delivery hdelivery => ?_, hreportedRest⟩, ?_⟩
    · exact ⟨step.2.name, hall delivery.2 (Journal.snd_mem_of_mem_traced hdelivery), hstep.name⟩
    · rw [List.map_append]
      exact (Journal.begun_traced _ (fun event hevent => (hall event hevent).moduleText_eq) rfl).append
        hbegunRest

end Exports

/-- A journal whose text tells what was delivered: each line is an object that carries the number of its
delivery, and the lines together tell the declarations of each module. -/
structure Journal.Tells (j : Journal) (received : List (Nat × Event)) (lines : List TraceLine) : Prop where
  delivered : (lines.map fun l => (l.tracer, l.event)) = received
  numbered : ∀ tracer,
    (lines.filter fun l => l.tracer = tracer).map (·.number) = List.range (j.written tracer)
  text_eq : j.text = lines.flatMap fun l => l.text ++ [Text.newline]
  split_eq : Text.splitOn Text.newline j.text = lines.map TraceLine.text ++ [[]]
  ascii : ∀ l ∈ lines, l.text.Ascii
  parsed : ∀ l ∈ lines, Json.parse l.text = .ok l.record
  carried : ∀ l ∈ lines, l.record.field "seq" = .ok (.int l.number) ∧
    l.record.field "module" = .ok (.text l.event.moduleText)
  declared : ∀ l ∈ lines, ∀ e, l.event = .declaration e → l.record = e.traced l.number
  told : History.ofLines (lines.map TraceLine.text) = .ok (History.told lines)
  told_split : History.ofLines (Text.splitOn Text.newline j.text) = .ok (History.told lines)

/-- A line end that nothing follows tells nothing. -/
theorem History.ofLines_concat_nil (lines : List Text) : ofLines (lines ++ [[]]) = ofLines lines := by
  rw [ofLines, List.foldlM_append, ← ofLines]
  cases ofLines lines with
  | ok h => rfl
  | error error => rfl

/-- A journal tells what it holds if its lines can be read back. -/
theorem Journal.Holds.tells {j : Journal} {lines : List TraceLine} (h : j.Holds lines)
    (hreadable : ∀ l ∈ lines, l.Readable) (hbegun : History.Begun (lines.map (·.event))) :
    j.Tells (lines.map fun l => (l.tracer, l.event)) lines := by
  have hascii : ∀ l : TraceLine, l.text.Ascii := fun l => Json.ascii_compact l.record
  have hsplit : Text.splitOn Text.newline j.text = lines.map TraceLine.text ++ [[]] := by
    rw [text, h.lines_eq]
    apply Text.splitOn_lines
    intro part hpart
    obtain ⟨l, -, rfl⟩ := List.mem_map.mp hpart
    exact (hascii l).newline_notMem
  have htold := History.ofLines_text hreadable hbegun
  exact {
    delivered := rfl
    numbered := h.numbers_eq
    text_eq := by rw [text, h.lines_eq, List.flatMap_map]
    split_eq := hsplit
    ascii := fun l _ => hascii l
    parsed := fun l hl => (hreadable l hl).parse_text
    carried := fun l hl => (hreadable l hl).field_record
    declared := fun l hl e he => (hreadable l hl).record_declaration he
    told := htold
    told_split := by rw [hsplit, History.ofLines_concat_nil, htold] }

/-- Whatever exporters held before, tracers that write to one text, in any order of hooks, leave a text from
which the exports are read back, completed or not: each delivery is one line, the lines of each tracer are
numbered from zero up to its counter, and the history of the lines holds for each module the records of its
declarations. -/
theorem Exports.exists_tells {ι : Type} [DecidableEq ι] (hooks : ι → List Hook) (exporter : ι → Exporter)
    (steps : List (ι × Module)) (hsteps : ∀ step ∈ steps, step.2.Traceable)
    (hcount : Numeral.Fits ((start exporter).traced hooks steps).length) :
    ∃ lines, ((start exporter).afterAll hooks steps).journal.Tells
      ((start exporter).traced hooks steps) lines := by
  have hempty : Journal.empty.Holds [] := ⟨rfl, fun _ => rfl⟩
  obtain ⟨lines, hlines, hreceived⟩ := (start exporter).extends_afterAll hooks steps [] hempty
  obtain ⟨hreported, hbegun⟩ := (start exporter).reported_traced hooks hsteps
  rw [List.nil_append] at hlines
  rw [← hreceived] at hreported hbegun hcount ⊢
  rw [List.map_map] at hbegun
  rw [List.length_map] at hcount
  refine ⟨lines, hlines.tells (fun l hl => ?_) hbegun⟩
  obtain ⟨module, hevent, hmodule⟩ := hreported (l.tracer, l.event) (List.mem_map_of_mem hl)
  have hnumber : l.number < lines.length := hlines.number_lt hl
  exact ⟨module, hevent, hmodule, Nat.lt_trans hnumber hcount⟩

/-- Two tracers, one of which listens to both exporters. The second export fails at its first declaration, so
its module only began; the third one is again of the first module, whose name holds a line end. -/
theorem Exports.exists_tells_after_failure :
    let m : Name := .extend .anonymous (.text "m\n") (.int 1)
    let b : Name := .extend .anonymous (.text "b") (.int 2)
    let sound : Module := ⟨m, [.mk m (.boundVar 0 0) .assumption]⟩
    let broken : Module := ⟨b, [.mk b (.foreign 2 (.builtin "NoneType" true 0)) .assumption]⟩
    let exporter : Bool → Exporter := fun _ => .new Name.isInternal false
    let hooks : Bool → List Hook := fun second =>
      if second then [.tracer 1, .collector] else [.tracer 0, .tracer 1]
    let steps := [(false, sound), (true, broken), (true, sound)]
    (∃ lines, ((start exporter).afterAll hooks steps).journal.Tells ((start exporter).traced hooks steps) lines) ∧
      ((start exporter).traced hooks steps).map (fun delivery => (delivery.1, delivery.2.moduleText)) =
        [(0, m.toText), (1, m.toText), (0, m.toText), (1, m.toText), (0, m.toText), (1, m.toText),
          (1, b.toText), (1, m.toText), (1, m.toText), (1, m.toText)] := by
  intro m b sound broken exporter hooks steps
  have hone : Numeral.Fits (1 : Nat) := Numeral.fits_of_lt_pow 1 (by decide) (by decide)
  have hsound : sound.Traceable := by
    have hname : m.toText.Unpaired := by decide
    have hrender : (Declaration.mk m (.boundVar 0 0) .assumption).encode.toOption.map
        (fun v => v.render.length) = some 52 := by cbv
    refine ⟨hname, List.forall_mem_singleton.mpr hname, List.forall_mem_singleton.mpr fun v hv => ?_, hone⟩
    rw [hv] at hrender
    have hlength : v.render.length = 52 := Option.some.inj hrender
    rw [hlength]
    exact Numeral.fits_of_lt_pow 2 (by decide) (by decide)
  have hbroken : broken.Traceable := by
    have hname : b.toText.Unpaired := by decide
    have hencode : (Declaration.mk b (.foreign 2 (.builtin "NoneType" true 0)) .assumption).encode.toOption.map
        (fun v => v.render.length) = none := by cbv
    refine ⟨hname, List.forall_mem_singleton.mpr hname, List.forall_mem_singleton.mpr fun v hv => ?_, hone⟩
    rw [hv] at hencode
    cases hencode
  have hdeliveries : ((start exporter).traced hooks steps).map
      (fun delivery => (delivery.1, delivery.2.moduleText)) =
        [(0, m.toText), (1, m.toText), (0, m.toText), (1, m.toText), (0, m.toText), (1, m.toText),
          (1, b.toText), (1, m.toText), (1, m.toText), (1, m.toText)] := by cbv
  have hlength : ((start exporter).traced hooks steps).length = 10 := by
    rw [← List.length_map, hdeliveries]
    rfl
  refine ⟨Exports.exists_tells hooks exporter steps ?_ ?_, hdeliveries⟩
  · simp [steps, hsound, hbroken]
  · rw [hlength]
    exact Numeral.fits_of_lt_pow 2 (by decide) (by decide)

end TermText
