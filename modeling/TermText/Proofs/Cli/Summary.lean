import TermText.Cli.Run
import TermText.Proofs.Export.Exportable
import TermText.Proofs.Export.Trace

/-!
# The text, the trace and the summary of an export

Of one export there is a text, a trace and a summary, each made in its own way: the text by the exporter, the
trace from its events, the summary from a choice among the declarations that is made anew. They agree. The
declarations of which the records of the trace say that they were kept are those that the text holds and those
that the sharing is counted of, and the figures of the summary are the ones in the last record of the trace.

The records and the summary are what is read of the lines and of the text that is printed, if the names can be
read back and the figures are not too long to be read.
-/

namespace TermText

namespace Journal

/-- The lines of a tracer that receives events from a number on. -/
def linesFrom (number : Nat) : List Event → List TraceLine
  | [] => []
  | event :: rest => ⟨0, number, event⟩ :: linesFrom (number + 1) rest

/-- Events that are delivered to one tracer add a line each. -/
theorem lines_deliverAll (j : Journal) (events : List Event) :
    (j.deliverAll [.tracer 0] events).lines =
      j.lines ++ (linesFrom (j.written 0) events).map TraceLine.text := by
  induction events generalizing j with
  | nil => exact (List.append_nil j.lines).symm
  | cons event rest ih =>
    have hfirst := ih (deliver [.tracer 0] j event)
    change _ = (j.lines ++ [line (j.written 0) event]) ++ _ at hfirst
    rw [List.append_assoc] at hfirst
    exact hfirst

/-- The lines for more events are numbered on from those for the first ones. -/
theorem linesFrom_append (number : Nat) (events more : List Event) :
    linesFrom number (events ++ more) = linesFrom number events ++ linesFrom (number + events.length) more := by
  induction events generalizing number with
  | nil => rfl
  | cons event rest ih =>
    rw [List.cons_append, linesFrom, ih, linesFrom, List.length_cons, Nat.add_right_comm, Nat.add_assoc]
    rfl

/-- The text of a journal of one tracer holds its lines. -/
theorem text_deliverAll (events : List Event) :
    (empty.deliverAll [.tracer 0] events).text =
      (linesFrom 0 events).flatMap fun l => l.text ++ [Text.newline] := by
  rw [text, lines_deliverAll, empty, List.nil_append, List.flatMap_map]

end Journal

/-- The status that a record carries. -/
def statusOf (record : Json) : Option Text :=
  match record.field "status" with
  | .ok (.text status) => some status
  | _ => none

/-- The declarations of which the records in the same order say that they were kept. -/
def recordedKept (ds : List Declaration) (records : List Json) : List Declaration :=
  ((ds.zip records).filter fun pair => statusOf pair.2 = some "kept").map Prod.fst

/-- A line that reports a declaration of a module. -/
def TraceLine.Reports (keeps : Declaration → Bool) (module : Name) (d : Declaration) (l : TraceLine) : Prop :=
  ∃ e : DeclarationEvent, l.event = .declaration e ∧ e.Reports keeps module d ∧ l.record = e.traced l.number

section Lines

variable {keeps : Declaration → Bool} {module : Name} {d : Declaration} {ds : List Declaration}
  {events : List DeclarationEvent} {lines : List TraceLine}

/-- The line of an event that reports a declaration reports it. -/
theorem TraceLine.reports_of_event {e : DeclarationEvent} (h : e.Reports keeps module d) (number : Nat) :
    TraceLine.Reports keeps module d ⟨0, number, .declaration e⟩ := by
  refine ⟨e, rfl, h, ?_⟩
  obtain ⟨kind, -, hkind⟩ := h.kind_eq
  have hlength : ∃ length : Int, e.length = .int length := by
    have hgiven := h.length_eq
    split at hgiven
    · obtain ⟨v, -, hlength⟩ := hgiven
      exact ⟨_, hlength⟩
    · exact ⟨0, hgiven⟩
  obtain ⟨length, hlength⟩ := hlength
  obtain ⟨_, name, _, kept, _⟩ := e
  cases hkind
  cases hlength
  rfl

/-- The record of a line says whether the declaration was kept. -/
theorem TraceLine.Reports.statusOf_record {l : TraceLine} (h : l.Reports keeps module d) :
    statusOf l.record = some (if keeps d then ("kept" : Text) else "skipped") := by
  obtain ⟨e, -, hreports, hrecord⟩ := h
  rw [hrecord, ← hreports.kept_eq]
  rfl

/-- A line that reports a declaration is a line of its event. -/
theorem Journal.mem_linesFrom {events : List Event} {number : Nat} {l : TraceLine}
    (h : l ∈ linesFrom number events) : l.event ∈ events ∧ l.number < number + events.length := by
  induction events generalizing number with
  | nil => cases h
  | cons event rest ih =>
    rw [List.length_cons]
    rcases List.mem_cons.mp h with rfl | h
    · exact ⟨List.mem_cons_self, by dsimp only; omega⟩
    · obtain ⟨hmem, hlt⟩ := ih h
      exact ⟨List.mem_cons_of_mem _ hmem, by omega⟩

/-- Lines of events report what the events report. -/
theorem Journal.reports_linesFrom (h : List.Forall₂ (DeclarationEvent.Reports keeps module) ds events)
    (number : Nat) :
    List.Forall₂ (TraceLine.Reports keeps module) ds (linesFrom number (events.map .declaration)) := by
  induction h generalizing number with
  | nil => exact .nil
  | cons hd _ ih => exact .cons (TraceLine.reports_of_event hd number) (ih (number + 1))

/-- The records of a trace keep the declarations that the exporter keeps. -/
theorem recordedKept_eq (h : List.Forall₂ (TraceLine.Reports keeps module) ds lines) :
    recordedKept ds (lines.map TraceLine.record) = ds.filter keeps := by
  induction h with
  | nil => rfl
  | @cons d l ds lines hd _ ih =>
    rw [recordedKept] at ih
    rw [recordedKept, List.map_cons, List.zip_cons_cons, List.filter_cons, List.filter_cons,
      hd.statusOf_record]
    cases keeps d with
    | true => simpa using ih
    | false =>
      have hskipped : ("skipped" : Text) ≠ "kept" := by decide
      simpa [hskipped] using ih

end Lines

/-- The encodings of declarations are as many as the declarations. -/
theorem Declaration.length_encodeAll {ds : List Declaration} {items : List Value}
    (h : encodeAll ds = .ok items) : items.length = ds.length := by
  induction ds generalizing items with
  | nil =>
    cases h
    rfl
  | cons d rest ih =>
    rw [encodeAll] at h
    cases hfirst : d.encode <;> cases hrest : encodeAll rest <;> rw [hfirst, hrest] at h <;> cases h
    rw [List.length_cons, List.length_cons, ih hrest]

/-- A module that is encoded is encoded as its name and its visible declarations. -/
theorem Module.exists_items_of_encode {internal : Name → Bool} {m : Module} {value : Value}
    (h : m.encode internal = .ok value) : ∃ name items,
      value = .tagged .module (.tagged .moduleName [name] :: items) ∧
        Declaration.encodeAll (m.declarations.filter fun d => d.name.isVisible internal) = .ok items := by
  rw [encode, encodeWith] at h
  cases hname : m.name.encode <;>
    cases hitems : Declaration.encodeAll (m.declarations.filter fun d => d.name.isVisible internal) <;>
    rw [hname, hitems] at h <;> cases h
  exact ⟨_, _, rfl, rfl⟩

/-- The fields of a summary that are figures of an export. -/
def figureKeys : List Text :=
  ["declarations", "kept", "skipped", "kind_counts"]

/-- A module whose names can be read back and whose figures are not too long to be read: those of its
declarations, and those of the sharing of the ones that are kept. -/
structure Module.Legible (m : Module) (includeInternal : Bool) : Prop extends m.Traceable where
  lines : Numeral.Fits (m.declarations.length + 2 : Nat)
  sharing : ∀ figures, SharingMetrics.ofDeclarations (m.declarations.filter fun d =>
      d.name.isVisible fun name => !includeInternal && name.isInternal) = .ok figures →
    Numeral.Fits figures.distinct ∧ Numeral.Fits figures.shared ∧ Numeral.Fits figures.revisits

/-- An export of a module that is seen from the text, from the trace and from the summary. -/
structure Module.Agreeing (m : Module) (includeInternal : Bool) (value : Value) (first last : TraceLine)
    (declared : List TraceLine) (document : Json) : Prop where
  encoded : m.encode (fun name => !includeInternal && name.isInternal) = .ok value
  begun : first.record.field "event" = .ok (.text "module-begin")
  ended : last.record.field "event" = .ok (.text "module-end")
  reported : List.Forall₂
    (TraceLine.Reports (fun d => d.name.isVisible fun name => !includeInternal && name.isInternal) m.name)
    m.declarations declared
  named : document.field "module" = .ok (.text m.name.toText)
  figures : ∀ key ∈ figureKeys, ∃ figure, document.field key = .ok figure ∧ last.record.field key = .ok figure
  counted : document.field "declarations" = .ok (.int m.declarations.length)
  kept : ∃ name items, value = .tagged .module (.tagged .moduleName [name] :: items) ∧
    Declaration.encodeAll (recordedKept m.declarations (declared.map TraceLine.record)) = .ok items ∧
    document.field "kept" = .ok (.int items.length)
  fingerprint : ∃ f, Fingerprint.ofParts [value.render] = .ok f ∧ document.field "fingerprint" = .ok (.text f)
  sharing : ∃ figures,
    SharingMetrics.ofDeclarations (recordedKept m.declarations (declared.map TraceLine.record)) = .ok figures ∧
    document.field "sharing" = .ok (.object [("distinct", .int figures.distinct),
      ("shared", .int figures.shared), ("revisits", .int figures.revisits)])
  parsed : m.Legible includeInternal →
    (∀ l ∈ first :: declared ++ [last], Json.parse l.text = .ok l.record) ∧
      Json.parse (document.indented 0 ++ [Text.newline]) = .ok document

/-- Counts in the order of their keys are left as they are when keys are sorted. -/
theorem Json.sortKeys_counts (counts : List (Text × Nat)) :
    Json.sortKeys (.object (Json.Fields.sort (counts.map fun (kind, count) => (kind, .int count)))) =
      .object (Json.Fields.sort (counts.map fun (kind, count) => (kind, .int count))) := by
  have hints : ∀ field ∈ Json.Fields.sort (counts.map fun (kind, count) => (kind, .int count)),
      (field.1, field.2.sortKeys) = field := by
    intro field hfield
    obtain ⟨entry, -, rfl⟩ := List.mem_map.mp ((Json.Fields.perm_sort _).mem_iff.mp hfield)
    rfl
  rw [sortKeys, sortKeysFields_eq, List.map_congr_left hints, List.map_id',
    (Json.Fields.sorted_sort _).sort_eq]

/-- The figures of an exporter are found in the record of the end of an export and behind other fields of a
summary, and are the same there. -/
theorem Exporter.field_stats (x : Exporter) (module : Name) (number : Nat) (name fingerprint sharing : Json) :
    let own : Json.Fields := [("module", name), ("fingerprint", fingerprint), ("sharing", sharing)]
    ∀ key ∈ figureKeys, ∃ figure, (Json.object (own ++ x.stats)).field key = .ok figure ∧
      (TraceLine.mk 0 number (.module ⟨module, "end", x.stats⟩)).record.field key = .ok figure := by
  intro own
  have hcounts := Json.sortKeys_counts x.kindCounts
  have hrecord : (TraceLine.mk 0 number (.module ⟨module, "end", x.stats⟩)).record =
      .object [("declarations", .int x.events.length), ("event", .text "module-end"),
        ("kept", .int (x.events.countP (·.kept))),
        ("kind_counts", Json.sortKeys (.object (Json.Fields.sort
          (x.kindCounts.map fun (kind, count) => (kind, .int count))))),
        ("module", .text module.toText), ("seq", .int number),
        ("skipped", .int (x.events.length - x.events.countP (·.kept) : Int))] := rfl
  rw [hcounts] at hrecord
  simp only [figureKeys, List.forall_mem_cons, hrecord]
  exact ⟨⟨_, rfl, rfl⟩, ⟨_, rfl, rfl⟩, ⟨_, rfl, rfl⟩, ⟨_, rfl, rfl⟩, List.forall_mem_nil _⟩

/-- The lines of an export that succeeded: its begin, its declarations, and its end with the figures. -/
theorem Exporter.linesFrom_told (after : Exporter) (module : Name) :
    Journal.linesFrom 0 (after.told module true) = ⟨0, 0, .module ⟨module, "begin", []⟩⟩ ::
      Journal.linesFrom 1 (after.events.map .declaration) ++
        [⟨0, 1 + after.events.length, .module ⟨module, "end", after.stats⟩⟩] := by
  rw [Exporter.told, if_pos rfl, Journal.linesFrom, Journal.linesFrom_append, List.length_map]
  rfl

/-- The choice that a summary makes anew is the one that the exporter made. -/
theorem Cli.keptDeclarations_eq {options : Options} {x after : Exporter} {m : Module}
    {result : Except EncodeError Value} (h : x.Report m after result)
    (hinclude : x.includeInternal = options.includeInternal) :
    keptDeclarations options after m = m.declarations.filter x.keeps := by
  rw [keptDeclarations, h.internal_eq, ← hinclude]
  rfl

/-- The fields of a summary of an export. -/
def Exporter.summaryFields (after : Exporter) (module : Name) (fingerprint : Text) (figures : SharingMetrics) :
    Json.Fields :=
  ([("module", .text module.toText), ("fingerprint", .text fingerprint),
    ("sharing", .object [("distinct", .int figures.distinct), ("shared", .int figures.shared),
      ("revisits", .int figures.revisits)])] : Json.Fields) ++ after.stats

/-- The summary of an export that succeeded. -/
theorem Exporter.Report.summary_eq {options : Cli.Options} {x after : Exporter} {m : Module} {value : Value}
    (h : x.Report m after (.ok value)) (hinclude : x.includeInternal = options.includeInternal) {f : Text}
    (hf : Fingerprint.ofValue value = .ok f) {figures : SharingMetrics}
    (hfigures : SharingMetrics.ofDeclarations (m.declarations.filter x.keeps) = .ok figures) :
    Cli.summary options after m value = .ok (.object (after.summaryFields m.name f figures)) := by
  rw [Cli.summary, Cli.keptDeclarations_eq h hinclude, hfigures, hf]
  rfl

/-- The figures of an event that is reported can be read back. -/
theorem Event.Reported.rereadable_stats {module : Name} {e : ModuleEvent} (h : Event.Reported module (.module e))
    (hend : e.phase = "end") : ∀ field ∈ e.stats, field.2.Rereadable := by
  cases h with
  | begin => cases hend
  | finish hdeclarations hkept hskipped hcounts =>
    simp only [List.forall_mem_cons]
    exact ⟨.int hdeclarations, .int hkept, .int hskipped, hcounts, List.forall_mem_nil _⟩

/-- The summary of a legible module can be read back. -/
theorem Exporter.rereadable_summaryFields {after : Exporter} {module : Name} {f : Text}
    {figures : SharingMetrics} (hmodule : module.toText.Unpaired) (hf : f.Unpaired)
    (hdistinct : Numeral.Fits figures.distinct) (hshared : Numeral.Fits figures.shared)
    (hrevisits : Numeral.Fits figures.revisits) (hstats : ∀ field ∈ after.stats, field.2.Rereadable) :
    (Json.object (after.summaryFields module f figures)).Rereadable := by
  have hsharing : (Json.object [("distinct", .int figures.distinct), ("shared", .int figures.shared),
      ("revisits", .int figures.revisits)]).Rereadable := by
    have hvalues : ∀ v ∈ [Json.int figures.distinct, .int figures.shared, .int figures.revisits],
        v.Rereadable := by
      simp only [List.forall_mem_cons]
      exact ⟨.int hdistinct, .int hshared, .int hrevisits, List.forall_mem_nil _⟩
    exact Json.Rereadable.zip ["distinct", "shared", "revisits"] (Nat.le_refl _) (by decide) hvalues
  have hkeys : (after.summaryFields module f figures).map Prod.fst =
      ["module", "fingerprint", "sharing", "declarations", "kept", "skipped", "kind_counts"] := rfl
  apply Json.Rereadable.object
  · rw [hkeys]
    decide
  · rw [hkeys]
    decide
  · refine List.forall_mem_append.mpr ⟨?_, hstats⟩
    simp only [List.forall_mem_cons]
    exact ⟨.text hmodule, .text hf, hsharing, List.forall_mem_nil _⟩

/-- As many events say that a declaration was kept as declarations are kept. -/
theorem countP_kept_eq {keeps : Declaration → Bool} {module : Name} {ds : List Declaration}
    {events : List DeclarationEvent} (h : List.Forall₂ (DeclarationEvent.Reports keeps module) ds events) :
    events.countP (·.kept) = (ds.filter keeps).length := by
  rw [← List.countP_eq_length_filter]
  induction h with
  | nil => rfl
  | cons hd _ ih => rw [List.countP_cons, List.countP_cons, ih, hd.kept_eq]

/-- A text without surrogates has no pairs of them. -/
theorem Text.Encodable.unpaired {t : Text} (h : t.Encodable) : t.Unpaired := by
  induction t with
  | nil => exact .nil
  | cons c rest ih =>
    obtain ⟨hc, hrest⟩ := List.forall_mem_cons.mp h
    have hhigh : c.isHighSurrogate = false := by
      rw [CodePoint.isSurrogate, Bool.and_eq_false_iff, decide_eq_false_iff_not, decide_eq_false_iff_not] at hc
      rw [CodePoint.isHighSurrogate, Bool.and_eq_false_iff, decide_eq_false_iff_not, decide_eq_false_iff_not]
      omega
    refine List.isChain_cons.mpr ⟨fun d _ => ?_, ih hrest⟩
    rw [hhigh, Bool.false_and]

/-- What is written of a legible module is read back: each line as its record, and the summary. -/
theorem Module.Legible.parsed {m : Module} {includeInternal : Bool} (h : m.Legible includeInternal)
    {after : Exporter} {events : List Event} {value : Value}
    (hrun : (Exporter.new Name.isInternal includeInternal).run m = (after, events, .ok value))
    (htold : events = after.told m.name true) (hevents : after.events.length = m.declarations.length)
    {f : Text} (hf : f.Ascii) {figures : SharingMetrics}
    (hfigures : SharingMetrics.ofDeclarations (m.declarations.filter fun d =>
      d.name.isVisible fun name => !includeInternal && name.isInternal) = .ok figures) :
    (∀ l ∈ Journal.linesFrom 0 events, Json.parse l.text = .ok l.record) ∧
      Json.parse ((Json.object (after.summaryFields m.name f figures)).indented 0 ++ [Text.newline]) =
        .ok (.object (after.summaryFields m.name f figures)) := by
  obtain ⟨rest, hrest, hreported⟩ := Exporter.reported_run (.new Name.isInternal includeInternal) h.toTraceable
  rw [hrun] at hrest
  have hall : ∀ event ∈ events, event.Reported m.name := by
    rw [show events = _ from hrest]
    exact List.forall_mem_cons.mpr ⟨.begin, hreported⟩
  have hlength : events.length = m.declarations.length + 2 := by
    rw [htold, Exporter.told, if_pos rfl, List.length_cons, List.length_append, List.length_map, hevents]
    rfl
  have hend : (Event.module ⟨m.name, "end", after.stats⟩).Reported m.name := by
    apply hall
    rw [htold, Exporter.told, if_pos rfl]
    exact List.mem_cons_of_mem _ (List.mem_append_right _ (List.mem_singleton_self _))
  obtain ⟨hdistinct, hshared, hrevisits⟩ := h.sharing figures hfigures
  refine ⟨fun l hl => ?_, Json.parse_indented ?_⟩
  · obtain ⟨hmem, hnumber⟩ := Journal.mem_linesFrom hl
    have hfits : Numeral.Fits l.number := by
      refine Nat.lt_trans ?_ h.lines
      change l.number < m.declarations.length + 2
      omega
    exact TraceLine.Readable.parse_text ⟨m.name, hall l.event hmem, h.name, hfits⟩
  · exact Exporter.rereadable_summaryFields h.name hf.encodable.unpaired hdistinct hshared hrevisits
      (hend.rereadable_stats rfl)

/-- The text, the trace and the summary of an export agree. -/
theorem Module.NumbersIn.exists_agreeing {P : Int → Prop} {m : Module} (h : m.NumbersIn P)
    (includeInternal : Bool) :
    ∃ value first last declared document, m.Agreeing includeInternal value first last declared document ∧
      ∃ after events, (Exporter.new Name.isInternal includeInternal).run m = (after, events, .ok value) ∧
        Journal.linesFrom 0 events = first :: declared ++ [last] ∧
        ∀ options : Cli.Options, options.includeInternal = includeInternal →
          Cli.summary options after m value = .ok document := by
  let x := Exporter.new Name.isInternal includeInternal
  have hvisible : x.keeps = fun d => d.name.isVisible fun name => !includeInternal && name.isInternal :=
    funext x.keeps_eq
  have hwritable : m.Writable := ⟨h.1.numbered.writable, fun d hd =>
    d.writable_of_inModel (d.inModel_of_numbersIn (h.2 d hd))⟩
  obtain ⟨value, hvalue, hascii⟩ := (h.inModel x.hides).exists_ascii
  obtain ⟨after, events, hrun⟩ : ∃ after events, x.run m = (after, events, .ok value) :=
    ⟨_, _, Prod.ext rfl (Prod.ext rfl ((x.run_result m (h.handles x)).trans hvalue))⟩
  obtain ⟨hreport, htold⟩ := x.report_run m hwritable
  rw [hrun] at hreport htold
  have hevents : after.events.length = m.declarations.length := hreport.follows.length_eq.symm
  obtain ⟨f, hf, hdigits⟩ := Fingerprint.exists_ofParts [value.render] (List.forall_mem_singleton.mpr hascii)
  obtain ⟨figures, hfigures⟩ := Declaration.exists_sharing fun d (hd : d ∈ m.declarations.filter x.keeps) =>
    d.inModel_of_numbersIn (h.2 d (List.mem_filter.mp hd).1)
  obtain ⟨name, items, hparts, hitems⟩ := Module.exists_items_of_encode hvalue
  have hlines := Journal.reports_linesFrom hreport.follows 1
  have hkept : recordedKept m.declarations
      ((Journal.linesFrom 1 (after.events.map .declaration)).map TraceLine.record) =
        m.declarations.filter x.keeps := recordedKept_eq hlines
  have hcount : after.events.countP (·.kept) = items.length := by
    rw [countP_kept_eq hreport.follows, Declaration.length_encodeAll hitems, hvisible]
    rfl
  have htraced : Journal.linesFrom 0 events = _ := (congrArg _ htold).trans (after.linesFrom_told m.name)
  refine ⟨value, _, _, _, _, ?_, after, events, hrun, htraced, fun options hinclude =>
    hreport.summary_eq hinclude.symm hf hfigures⟩
  exact {
    encoded := hvalue
    begun := rfl
    ended := rfl
    reported := hvisible ▸ hlines
    named := rfl
    figures := after.field_stats m.name _ _ _ _
    counted := by
      rw [← hevents]
      rfl
    kept := by
      rw [hkept, hvisible]
      refine ⟨name, items, hparts, hitems, ?_⟩
      rw [← hcount]
      rfl
    fingerprint := ⟨f, hf, rfl⟩
    sharing := ⟨figures, hkept ▸ hfigures, rfl⟩
    parsed := fun hlegible => htraced ▸ hlegible.parsed hrun htold hevents hdigits (hvisible ▸ hfigures) }

end TermText
