import TermText.Proofs.Cli.Failure
import TermText.Proofs.Cli.Summary
import TermText.Proofs.Files.Storing
import TermText.Proofs.Text.Utf8

/-!
# Runs agree across modes

What a module gives, its text, its trace and its summary, depends on the module and on whether internal
declarations are included. The other options decide where these go: whatever else is asked for, a run that can
write its files writes the same text, the same lines and the same summary.

A run has its trace open while it makes the directories of the output and writes it. The files are different
ones, so each holds in the end what was written to it.
-/

namespace TermText

namespace Cli

section Report

variable {σ : Type} {host : Host (StateM σ)} {options : Options} {m : Module} {exporter : Exporter}
  {journal : Journal} {value : Value} {document : Json} {s after : σ}

/-- What follows a step that did not fail goes on from its result and the state it left. -/
theorem run_bind_ok {ε α β : Type} {x : ExceptT ε (StateM σ) α} {a : α} {next : σ}
    (h : x.run.run s = (.ok a, next)) (f : α → ExceptT ε (StateM σ) β) :
    (x >>= f).run.run s = (f a).run.run next := by
  change (ExceptT.bindCont f (x.run.run s).1).run (x.run.run s).2 = (f a).run.run next
  rw [h]
  rfl

/-- A step of a host that did not fail is one of a run that did not. -/
theorem run_mapError {δ ε α : Type} {x : StateM σ (Except δ α)} {a : α} {next : σ}
    (h : x.run s = (.ok a, next)) (wrap : δ → ε) :
    (ExceptT.mk ((·.mapError wrap) <$> x) : ExceptT ε (StateM σ) α).run.run s = (.ok a, next) := by
  change ((x.run s).1.mapError wrap, (x.run s).2) = (.ok a, next)
  rw [h]
  rfl

/-- What a run prints that does not fail. -/
def printed (options : Options) (value : Value) (document : Json) : Text :=
  if options.summary then document.indented 0 ++ [Text.newline]
  else if (givenPath options.output).isNone then value.render ++ [Text.newline]
  else []

/-- The step that writes the output of a run, if there is one. -/
def Outputs (host : Host (StateM σ)) (options : Options) (line : Text) (s after : σ) : Prop :=
  match givenPath options.output with
  | none => after = s
  | some path => (writeOutput host path (octetsOf line)).run.run s = (.ok (), after)

/-- A run that can write its output prints what the options ask for. -/
theorem report_run (hexport : exportOf options m = (exporter, journal, .ok value))
    (hsummary : summary options exporter m value = .ok document)
    (houtput : Outputs host options (value.render ++ [Text.newline]) s after) :
    (report host options m).run.run s = (.ok (printed options value document), after) := by
  have hdocument : (ExceptT.mk (pure (summary options exporter m value)) :
      ExceptT RunError (StateM σ) Json).run.run after = (.ok document, after) := by
    rw [hsummary]
    rfl
  rw [report, hexport, printed]
  rw [Outputs] at houtput
  refine (run_bind_ok rfl _).trans ?_
  cases hgiven : givenPath options.output with
  | none =>
    rw [hgiven] at houtput
    subst houtput
    cases options.summary with
    | true => exact run_bind_ok hdocument _
    | false => rfl
  | some path =>
    rw [hgiven] at houtput
    refine (run_bind_ok houtput _).trans ?_
    cases options.summary with
    | true => exact run_bind_ok hdocument _
    | false => rfl

/-- A run that can write its output and its trace prints what the options ask for. -/
theorem execute_run {loaded : σ} (hload : (readDump host options.dump).run.run s = (.ok m, loaded))
    (hexport : exportOf options m = (exporter, journal, .ok value))
    (hsummary : summary options exporter m value = .ok document)
    (htrace : givenPath options.trace = none → Outputs host options (value.render ++ [Text.newline]) loaded after)
    (htraced : ∀ path, givenPath options.trace = some path → ∃ opened filled reported,
      (host.openFile path).run loaded = (.ok (), opened) ∧
      (host.fill path (traceOctets options m)).run opened = (.ok (), filled) ∧
      Outputs host options (value.render ++ [Text.newline]) filled reported ∧
      (host.close path (traceOctets options m)).run reported = (.ok (), after)) :
    (execute host options).run s = (⟨.ok 0, printed options value document, []⟩, after) := by
  rw [execute, run_bind hload]
  dsimp only
  cases hgiven : givenPath options.trace with
  | none =>
    dsimp only
    rw [run_bind (report_run hexport hsummary (htrace hgiven))]
    rfl
  | some path =>
    obtain ⟨opened, filled, reported, hopen, hfill, houtput, hclose⟩ := htraced path hgiven
    have hsettle : (do
        ExceptT.mk ((·.mapError .file) <$> host.fill path (traceOctets options m))
        report host options m : ExceptT RunError (StateM σ) Text).run.run opened =
          (.ok (printed options value document), reported) :=
      (run_bind_ok (run_mapError hfill _) _).trans (report_run hexport hsummary houtput)
    dsimp only
    rw [reportTraced, run_bind hopen]
    dsimp only
    rw [run_bind hsettle, run_bind hclose]
    rfl

end Report

section Stores

variable {input path : Text} {options : Options} {m : Module} {s opened made : Store} {place : Location}
  {octets : List UInt8}

/-- Making a directory and those above it makes at most directories. -/
theorem makesDirectories (input : Text) (p : Path) :
    Store.MakesDirectories (makeDirectories (Store.host input) p) := by
  induction hsize : p.parts.length using Nat.strongRecOn generalizing p with
  | ind n ih =>
    rw [makeDirectories]
    have hsettle (e : FileError) : Store.MakesDirectories (if e.condition = .nullByte then pure (.error e)
        else do
          let there ← (Store.host input).isDirectory p.toText
          if there = true then pure (Except.ok ()) else pure (.error e)) := by
      split
      · exact .pure _
      · refine .bind (.isDirectory input p.toText) fun there => ?_
        split
        · exact .pure _
        · exact .pure _
    refine .bind (.makeDirectory input p.toText) fun first => ?_
    cases first with
    | ok _ => exact .pure _
    | error e =>
      dsimp only
      split
      · split
        · exact .pure _
        · next hparts =>
          have hshorter : p.parent.parts.length < n := by
            have hne : p.parts ≠ [] := fun h => hparts (by rw [h]; rfl)
            have hpos := List.length_pos_iff.mpr hne
            rw [Path.parent, List.length_dropLast]
            omega
          refine .bind (ih _ hshorter p.parent rfl) fun above => ?_
          cases above with
          | error e => exact .pure _
          | ok _ =>
            refine .bind (.makeDirectory input p.toText) fun second => ?_
            cases second with
            | ok _ => exact .pure _
            | error e =>
              dsimp only
              split
              · exact .pure _
              · exact hsettle e
      · exact hsettle e

/-- The opening of the trace of a run, if there is one. -/
def OpensTrace (options : Options) (s opened : Store) : Prop :=
  match givenPath options.trace with
  | none => opened = s
  | some path => s.writeAt path [] = .ok opened

/-- The output of a run, if there is one, can be written: the directories above it are there or can be made,
and its path then leads to a place for a file, which is not that of the trace. -/
def AdmitsOutput (options : Options) (input : Text) (opened : Store) : Prop :=
  ∀ path, givenPath options.output = some path → ∃ made place,
    (makeDirectories (Store.host input) (Path.ofText path).parent).run opened = (.ok (), made) ∧
      made.Leads (Path.ofText path).toText place ∧
      ∀ trace, givenPath options.trace = some trace → ¬made.Leads trace place

/-- The files of a run can be written and are different ones: the trace can be opened, and the output can
be written once it is. -/
def WritableIn (options : Options) (input : Text) (s : Store) : Prop :=
  ∃ opened, OpensTrace options s opened ∧ AdmitsOutput options input opened

/-- An output is written where its path leads once the directories above it are made. -/
theorem writeOutput_run
    (hmade : (makeDirectories (Store.host input) (Path.ofText path).parent).run s = (.ok (), made))
    (hleads : made.Leads (Path.ofText path).toText place) (octets : List UInt8) :
    (writeOutput (Store.host input) path octets).run.run s = (.ok (), made.put place (.file octets)) := by
  have hwritten : made.writeAt (Path.ofText path).toText octets = .ok (made.put place (.file octets)) :=
    Store.writeAt_eq_ok_iff.mpr ⟨place, hleads, rfl⟩
  have hfill : ((Store.host input).fill (Path.ofText path).toText octets).run made =
      (.ok (), made.put place (.file octets)) := Store.run_update hwritten
  rw [writeOutput]
  exact (run_bind_ok (run_mapError hmade _) _).trans (run_mapError hfill _)

/-- A store in which a text was written to the output, if there is one, and the file of the trace, if there is
one, was left as it was. -/
structure Written (options : Options) (line : Text) (s after : Store) : Prop where
  output : ∀ path, givenPath options.output = some path →
    after.readAt (Path.ofText path).toText = .ok (octetsOf line)
  trace : ∀ path place octets, givenPath options.trace = some path → s.Leads path place →
    s.look place = some (.file octets) → after.readAt path = .ok octets
  same : givenPath options.output = none → after = s

/-- An output that is admitted once the trace is open is written whatever the trace holds, and leaves it as it
is. -/
theorem exists_outputs (h : AdmitsOutput options input opened) (halike : opened.Alike s) (line : Text) :
    ∃ after, Outputs (Store.host input) options line s after ∧ Written options line s after := by
  rw [AdmitsOutput] at h
  cases houtput : givenPath options.output with
  | none =>
    refine ⟨s, by rw [Outputs, houtput], ?_, ?_, fun _ => rfl⟩
    · intro path hpath
      rw [houtput] at hpath
      cases hpath
    · intro path place octets _ hleads hfile
      exact (Store.KeepsDirectories.readAt (fun _ hq => hq) hleads hfile).2
  | some path =>
    obtain ⟨made, place, hmade, hleads, hdistinct⟩ := h path houtput
    have hsteps := makesDirectories input (Path.ofText path).parent
    obtain ⟨hresult, hafter⟩ := hsteps.alike opened s halike
    rw [hmade] at hresult hafter
    -- The directories made above the output once the trace is filled.
    obtain ⟨room, hroom⟩ : ∃ room,
        (makeDirectories (Store.host input) (Path.ofText path).parent).run s = (.ok (), room) :=
      ⟨((makeDirectories (Store.host input) (Path.ofText path).parent).run s).2, Prod.ext hresult.symm rfl⟩
    have hwithin := hsteps.within s
    rw [hroom] at hwithin hafter
    have hleads' : room.Leads (Path.ofText path).toText place := hafter.leads hleads
    refine ⟨room.put place (.file (octetsOf line)), ?_, ?_, ?_, ?_⟩
    · rw [Outputs, houtput]
      exact writeOutput_run hroom hleads' _
    · intro other hother
      rw [houtput] at hother
      cases hother
      exact ((hleads'.keepsDirectories _).readAt hleads' (by rw [hleads'.look_put, if_pos rfl])).2
    · intro trace traced octets htrace htraced hfile
      have htracedRoom : room.Leads trace traced :=
        (hwithin.keepsDirectories.readAt htraced (hwithin traced _ hfile)).1
      have hne : traced ≠ place := by
        rintro rfl
        exact hdistinct trace htrace (hafter.symm.leads htracedRoom)
      refine ((hleads'.keepsDirectories _).readAt htracedRoom ?_).2
      rw [hleads'.look_put, if_neg hne]
      exact hwithin traced _ hfile
    · intro hnone
      rw [houtput] at hnone
      cases hnone

/-- A trace that can be opened can be filled, which leaves the store as it is but for what the trace holds. -/
theorem exists_filled (h : s.writeAt path [] = .ok opened) (octets : List UInt8) :
    ∃ place filled, opened.writeAt path octets = .ok filled ∧ opened.Alike filled ∧
      filled.Leads path place ∧ filled.look place = some (.file octets) := by
  obtain ⟨place, hleads, rfl⟩ := Store.writeAt_eq_ok_iff.mp h
  have hempty : (s.put place (.file [])).look place = some (.file []) := by rw [hleads.look_put, if_pos rfl]
  have hopened := ((hleads.keepsDirectories []).readAt hleads hempty).1
  have hfilled : ((s.put place (.file [])).put place (.file octets)).look place = some (.file octets) := by
    rw [hopened.look_put, if_pos rfl]
  exact ⟨place, _, Store.writeAt_eq_ok_iff.mpr ⟨place, hopened, rfl⟩, hopened.alike_put hempty octets,
    ((hopened.keepsDirectories octets).readAt hopened hfilled).1, hfilled⟩

/-- A file that holds a text: its octets are decoded as the text. -/
def Holds (s : Store) (path t : Text) : Prop :=
  ∃ octets, s.readAt path = .ok octets ∧ Utf8.decode octets = .ok t

/-- A file that was filled with the octets of a text holds the text. -/
theorem holds_of_readAt {t : Text} (h : s.readAt path = .ok (octetsOf t)) (ht : t.Encodable) : Holds s path t :=
  ⟨_, h, Utf8.decodeFrom_flatMap ht 0⟩

/-- What a run that writes a text and lines leaves: the code 0, the output and nothing else printed, the text in
the file of the output, the lines in the file of the trace. -/
structure Leaves (options : Options) (line trace printed : Text) (s : Store) (outcome : Outcome) (after : Store) :
    Prop where
  outcome_eq : outcome = ⟨.ok 0, printed, []⟩
  output : ∀ path, givenPath options.output = some path → Holds after (Path.ofText path).toText line
  trace : ∀ path, givenPath options.trace = some path → Holds after path trace
  same : givenPath options.output = none → givenPath options.trace = none → after = s

/-- A run that can write its files writes what its export gives. -/
theorem execute_leaves {exporter : Exporter} {journal : Journal} {value : Value} {document : Json}
    (hload : (readDump (Store.host input) options.dump).run.run s = (.ok m, s))
    (hexport : exportOf options m = (exporter, journal, .ok value))
    (hsummary : summary options exporter m value = .ok document) (hwritable : WritableIn options input s)
    (hvalue : value.render.Encodable) (hjournal : journal.text.Encodable) :
    Leaves options (value.render ++ [Text.newline]) journal.text (printed options value document) s
      ((execute (Store.host input) options).run s).1 ((execute (Store.host input) options).run s).2 := by
  have hline : (value.render ++ [Text.newline]).Encodable :=
    Text.encodable_append.mpr ⟨hvalue, List.forall_mem_singleton.mpr rfl⟩
  obtain ⟨opened, hopens, hadmits⟩ := hwritable
  rw [OpensTrace] at hopens
  cases htrace : givenPath options.trace with
  | none =>
    rw [htrace] at hopens
    subst hopens
    obtain ⟨after, houtput, hwritten⟩ := exists_outputs hadmits (fun _ => rfl) (value.render ++ [Text.newline])
    have hrun := execute_run hload hexport hsummary (fun _ => houtput) fun path hpath => by
      rw [htrace] at hpath
      cases hpath
    rw [hrun]
    refine ⟨rfl, fun path hpath => holds_of_readAt (hwritten.output path hpath) hline, fun path hpath => ?_,
      fun hnone _ => hwritten.same hnone⟩
    rw [htrace] at hpath
    cases hpath
  | some path =>
    rw [htrace] at hopens
    have hoctets : traceOctets options m = octetsOf journal.text := by rw [traceOctets, hexport]
    obtain ⟨place, filled, hfill, halike, hleads, hfile⟩ := exists_filled hopens (traceOctets options m)
    obtain ⟨after, houtput, hwritten⟩ := exists_outputs hadmits halike (value.render ++ [Text.newline])
    have hrun := execute_run hload hexport hsummary (fun hnone => by rw [htrace] at hnone; cases hnone)
      fun other hother => by
        rw [htrace] at hother
        cases hother
        exact ⟨opened, filled, after, Store.run_update hopens, Store.run_update hfill, houtput, rfl⟩
    rw [hrun]
    refine ⟨rfl, fun path hpath => holds_of_readAt (hwritten.output path hpath) hline, fun other hother => ?_,
      fun _ hnone => ?_⟩
    · rw [htrace] at hother
      cases hother
      exact holds_of_readAt (hoctets ▸ hwritten.trace path place _ htrace hleads hfile) hjournal
    · rw [htrace] at hnone
      cases hnone

/-- What a run with a summary leaves is told by what its export gives. -/
theorem execute_leaves_of_eq {text trace shown : Text} (hoptions : options.summary = true)
    (hload : (readDump (Store.host input) options.dump).run.run s = (.ok m, s))
    (hexport : ((exportOf options m).2.1.text, (exportOf options m).2.2.toOption.map fun value =>
      (value.render ++ [Text.newline], (summary options (exportOf options m).1 m value).toOption.map fun document =>
        document.indented 0 ++ [Text.newline])) = (trace, some (text, some shown)))
    (hwritable : WritableIn options input s) (htext : text.Encodable) (htrace : trace.Encodable) :
    Leaves options text trace shown s ((execute (Store.host input) options).run s).1
      ((execute (Store.host input) options).run s).2 := by
  obtain ⟨hlines, hgiven⟩ := Prod.mk.inj hexport
  generalize hexported : exportOf options m = exported at hlines hgiven
  obtain ⟨exporter, journal, result⟩ := exported
  cases result with
  | error e => cases hgiven
  | ok value =>
    obtain ⟨hrendered, hshown⟩ := Prod.mk.inj (Option.some.inj hgiven)
    cases hsummary : summary options exporter m value with
    | error e =>
      rw [hsummary] at hshown
      cases hshown
    | ok document =>
      rw [hsummary] at hshown
      dsimp only at hlines
      subst hlines
      subst hrendered
      have hleaves := execute_leaves hload hexported hsummary hwritable (Text.encodable_append.mp htext).1 htrace
      rw [printed, if_pos hoptions] at hleaves
      exact Option.some.inj hshown ▸ hleaves

/-- The export of a run leaves and returns what the export to a hook that collects does, and its tracer, if
there is one, wrote the lines of what was collected. -/
theorem exportOf_eq (options : Options) (m : Module) {after : Exporter} {events : List Event}
    {result : Except EncodeError Value}
    (h : (Exporter.new Name.isInternal options.includeInternal).run m = (after, events, result)) :
    exportOf options m = (after, Journal.empty.deliverAll (hooksOf options) events, result) := by
  rw [exportOf, Exporter.exportWith, Exporter.exportTo_eq, h]
  rfl

/-- Runs agree across modes. A module that a dump gives, with internal declarations or without, has one text, one
trace and one summary, which agree; and every run that loads the module, wherever its dump comes from, wherever
its files are to go, ends with the code 0 and writes just these: the text to the output, or to the standard
output if no output and no summary is asked for, the lines of the trace to the trace, the summary to the
standard output, and nothing else there. -/
theorem runs_agree_across_modes {dump : Json} {m : Module} (loads : Dump.load dump = .ok m)
    (includeInternal : Bool) :
    ∃ value first last declared document, m.Agreeing includeInternal value first last declared document ∧
      ∀ (input : Text) (words : List Text) (options : Options) (s : Store),
        read words = .ok (.run options) → options.includeInternal = includeInternal →
        (readDump (Store.host input) options.dump).run.run s = (.ok m, s) → WritableIn options input s →
        Leaves options (value.render ++ [Text.newline])
          ((first :: declared ++ [last]).flatMap fun l => l.text ++ [Text.newline])
          (printed options value document) s ((run (Store.host input) words).run s).1
          ((run (Store.host input) words).run s).2 := by
  obtain ⟨value, first, last, declared, document, hagreeing, after, events, hexport, hlines, hsummary⟩ :=
    (Dump.numbersIn_true_of_load loads).exists_agreeing includeInternal
  refine ⟨value, first, last, declared, document, hagreeing, ?_⟩
  intro input words options s accepted hinclude hload hwritable
  have hrun : run (Store.host input) words = execute (Store.host input) options := by rw [run, accepted]
  have hexport' := exportOf_eq options m (hinclude ▸ hexport)
  have hvalue : value.render.Encodable := by
    obtain ⟨given, -, hgiven, hascii, -⟩ := (Dump.exportable_of_load loads).encodes
      fun name => !includeInternal && name.isInternal
    obtain rfl := Except.ok.inj (hgiven.symm.trans hagreeing.encoded)
    exact hascii.encodable
  have hjournal : (Journal.empty.deliverAll (hooksOf options) events).text.Encodable :=
    Text.encodable_lines (Journal.ascii_deliverAll (List.forall_mem_nil _) _ _)
  have hleaves := execute_leaves hload hexport' (hsummary options hinclude) hwritable hvalue hjournal
  rw [hrun, ← hlines, ← Journal.text_deliverAll]
  refine { hleaves with trace := fun path hpath => ?_ }
  have hhooks : hooksOf options = [.tracer 0] := by rw [hooksOf, hpath]; rfl
  exact hhooks ▸ hleaves.trace path hpath

end Stores

/-- Two texts that one file holds are the same. -/
theorem Holds.unique {s : Store} {path t u : Text} (ht : Holds s path t) (hu : Holds s path u) : t = u := by
  obtain ⟨octets, hread, hdecode⟩ := ht
  obtain ⟨octets', hread', hdecode'⟩ := hu
  obtain rfl := Except.ok.inj (hread.symm.trans hread')
  exact Except.ok.inj (hdecode.symm.trans hdecode')

/-- A module of two declarations of which one is internal. A run with all files and one with none agree: the
first writes to the output what the second prints. The trace was there before, the directory of the output was
not. -/
theorem runs_agree_across_modes_of_hidden_declaration :
    let dump : Json := .object
      [("names", .object
          [("a", .object [("str", .text "a"), ("hash", .int 1)]),
            ("h", .object [("str", .text "_h"), ("hash", .int 2)])]),
        ("exprs", .object
          [("v", .object [("kind", .text "bvar"), ("index", .int 0)]),
            ("p", .object [("kind", .text "app"), ("fn", .text "v"), ("arg", .text "v")])]),
        ("module", .text "a"),
        ("declarations", .list
          [.object [("name", .text "a"), ("type", .text "p"), ("kind", .text "axiom")],
            .object [("name", .text "h"), ("type", .text "p"), ("kind", .text "axiom")]])]
    let s : Store := ⟨[(.working 0, [("t.jsonl", .file [7])])]⟩
    let all : List Text := ["-", "--summary", "-o", "d/o.txt", "--trace-jsonl", "t.jsonl"]
    let text : Text := "(:module (:module-name (:name 1723 1 \x22a\x22)) " ++
      "(:definition (:name 1723 1 \x22a\x22) (:apply (:var 0) (:var 0)) (:axiom)))\n"
    let trace : Text := "\x7b\"event\": \"module-begin\", \"module\": \"a\", \"seq\": 0\x7d\n" ++
      "\x7b\"event\": \"declaration\", \"kind\": \"axiom\", \"length\": 68, \"module\": \"a\", " ++
      "\"name\": \"a\", \"seq\": 1, \"status\": \"kept\"\x7d\n" ++
      "\x7b\"event\": \"declaration\", \"kind\": \"axiom\", \"length\": 0, \"module\": \"a\", " ++
      "\"name\": \"_h\", \"seq\": 2, \"status\": \"skipped\"\x7d\n" ++
      "\x7b\"declarations\": 2, \"event\": \"module-end\", \"kept\": 1, " ++
      "\"kind_counts\": \x7b\"axiom\": 1\x7d, \"module\": \"a\", \"seq\": 3, \"skipped\": 1\x7d\n"
    let shown : Text := "\x7b\n  \"module\": \"a\",\n  \"fingerprint\": \"d3d9e7c3c7e9306f\",\n" ++
      "  \"sharing\": \x7b\n    \"distinct\": 1,\n    \"shared\": 0,\n    \"revisits\": 0\n  \x7d,\n" ++
      "  \"declarations\": 2,\n  \"kept\": 1,\n  \"skipped\": 1,\n" ++
      "  \"kind_counts\": \x7b\n    \"axiom\": 1\n  \x7d\n\x7d\n"
    ∃ (document : Json) (lines : List TraceLine) (after : Store),
      (run (Store.host dump.compact) all).run s = (⟨.ok 0, shown, []⟩, after) ∧
      Json.parse shown = .ok document ∧ document.field "kept" = .ok (.int 1) ∧
      trace = lines.flatMap (fun l => l.text ++ [Text.newline]) ∧
      (∀ l ∈ lines, Json.parse l.text = .ok l.record) ∧
      Holds after "d/o.txt" text ∧ Holds after "t.jsonl" trace ∧
      (run (Store.host dump.compact) ["-"]).run s = (⟨.ok 0, text, []⟩, s) := by
  intro dump s all text trace shown
  let a : Name := .extend .anonymous (.text "a") (.int 1)
  let h : Name := .extend .anonymous (.text "_h") (.int 2)
  let pair : Term := .app 1 (.boundVar 0 0) (.boundVar 0 0)
  let m : Module := ⟨a, [.mk a pair .assumption, .mk h pair .assumption]⟩
  let options : Options := ⟨"-", some "d/o.txt", false, some "t.jsonl", true⟩
  have hloads : Dump.load dump = .ok m := by rfl
  have hfacts : ((exportOf options m).2.1.text, (exportOf options m).2.2.toOption.map fun value =>
      (value.render ++ [Text.newline], (summary options (exportOf options m).1 m value).toOption.map fun document =>
        document.indented 0 ++ [Text.newline])) = (trace, some (text, some shown)) := by decide +kernel
  have hdump : dump.Rereadable := by
    simp only [dump, Json.rereadable_object_iff, Json.rereadable_list_iff, Json.rereadable_text_iff,
      Json.rereadable_int_iff, List.forall_mem_cons, List.map_cons, List.map_nil, List.not_mem_nil,
      false_imp_iff, implies_true, and_true]
    decide +kernel
  have hmodule : moduleOfText dump.compact = .ok m := by
    rw [moduleOfText, Json.parse_compact hdump]
    exact congrArg (Except.mapError RunError.dump) hloads
  have hlegible : m.Legible false := by
    have hrendered : ∀ d ∈ m.declarations, d.name.toText.Unpaired ∧
        d.encode.toOption.all (fun v => v.render.length < 100) = true := by decide +kernel
    have hsharing : (SharingMetrics.ofDeclarations (m.declarations.filter fun d =>
        d.name.isVisible fun name => !false && name.isInternal)).toOption = some ⟨1, 0, 0⟩ := by decide +kernel
    refine ⟨⟨by decide, fun d hd => (hrendered d hd).1, fun d hd v hv => ?_, by decide +kernel⟩,
      by decide +kernel, fun figures hfigures => ?_⟩
    · have hlength := (hrendered d hd).2
      rw [hv] at hlength
      exact Numeral.fits_of_lt_pow 2 (by decide) (of_decide_eq_true hlength)
    · rw [hfigures] at hsharing
      obtain rfl := Option.some.inj hsharing
      decide +kernel
  have hread : (readDump (Store.host dump.compact) "-").run.run s = (.ok m, s) :=
    congrArg (fun r => (r, s)) hmodule
  obtain ⟨value, first, last, declared, document, hagreeing, hruns⟩ := runs_agree_across_modes hloads false
  obtain ⟨hparsed, hdocument⟩ := hagreeing.parsed hlegible
  let opened : Store := s.put ⟨.working 0, ["t.jsonl"]⟩ (.file [])
  let made : Store := opened.put ⟨.working 0, ["d"]⟩ (.directory [])
  have hwritable : WritableIn options dump.compact s := by
    refine ⟨opened, rfl, fun path hpath => ?_⟩
    obtain rfl : "d/o.txt" = path := Option.some.inj hpath
    refine ⟨made, ⟨.working 0, ["d", "o.txt"]⟩, ?_, ⟨rfl, .inr rfl⟩, fun trace htrace hleads => ?_⟩
    · rw [makeDirectories]
      rfl
    · obtain rfl : "t.jsonl" = trace := Option.some.inj htrace
      have htraced : made.Leads "t.jsonl" ⟨.working 0, ["t.jsonl"]⟩ := ⟨rfl, .inl ⟨[], rfl⟩⟩
      cases hleads.unique htraced
  have hfirst := hruns dump.compact all options s rfl rfl hread hwritable
  have hsecond := hruns dump.compact ["-"] ⟨"-", none, false, none, false⟩ s rfl rfl hread ⟨s, rfl, nofun⟩
  -- the run leaves what its own export gives, so the texts and the lines of the two are the same
  have hsame : Leaves options text trace shown s ((run (Store.host dump.compact) all).run s).1
      ((run (Store.host dump.compact) all).run s).2 :=
    execute_leaves_of_eq rfl hread hfacts hwritable (by decide +kernel) (by decide +kernel)
  have hlines := (hfirst.trace "t.jsonl" rfl).unique (hsame.trace "t.jsonl" rfl)
  have htext := (hfirst.output "d/o.txt" rfl).unique (hsame.output "d/o.txt" rfl)
  have hshown : document.indented 0 ++ [Text.newline] = shown :=
    congrArg Outcome.output (hfirst.outcome_eq.symm.trans hsame.outcome_eq)
  have hkept : document.field "kept" = .ok (.int 1) := by
    obtain ⟨name, items, -, hitems, hcount⟩ := hagreeing.kept
    have hvisible : (m.declarations.filter fun d =>
        d.name.isVisible fun name => !false && name.isInternal).length = 1 := by decide +kernel
    rw [recordedKept_eq hagreeing.reported] at hitems
    rw [hcount, Declaration.length_encodeAll hitems, hvisible]
    rfl
  refine ⟨document, first :: declared ++ [last], _, Prod.ext hsame.outcome_eq rfl, hshown ▸ hdocument, hkept,
    hlines.symm, hparsed, hsame.output "d/o.txt" rfl, hsame.trace "t.jsonl" rfl, ?_⟩
  exact Prod.ext (htext ▸ hsecond.outcome_eq) (hsecond.same rfl rfl)

end Cli

end TermText
