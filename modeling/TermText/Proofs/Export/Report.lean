import Mathlib.Algebra.BigOperators.Ring.Finset
import TermText.Export.Exporter
import TermText.Proofs.Declaration.Writable
import TermText.Proofs.Json.Fields

/-!
# What an exporter reports

An exporter may be used again and again, also after exports that failed. Each export leaves the events
of its own declarations, in their order and up to the one that ended it, and counts by kind that agree
with these events. The hooks are told the events between a begin and an end; the end is missing exactly
if the export failed. What the hooks do with an event has no part in this.

The loop over the declarations keeps the agreement of counts and events; so the figures come out right
wherever it stops.
-/

namespace TermText

namespace DeclarationEvent

/-- A kept declaration of a kind. -/
def isKept (kind : Text) (e : DeclarationEvent) : Bool :=
  e.kept && e.kind.same (.text kind)

end DeclarationEvent

namespace Exporter

section Counts

variable {counts : List (Text × Nat)}

/-- The first entry is found by its key, any other key is looked for in the rest. -/
theorem lookup_entry (k w : Text) (count : Nat) :
    List.lookup w ((k, count) :: counts) = if w = k then some count else counts.lookup w := by
  by_cases hw : w = k
  · rw [if_pos hw, hw, List.lookup_cons_self]
  · rw [if_neg hw, List.lookup_cons, beq_false_of_ne hw]

/-- Counting one of a kind changes the count of this kind only. -/
theorem lookup_addKind (kind w : Text) :
    (addKind kind counts).lookup w =
      if w = kind then some ((counts.lookup kind).getD 0 + 1) else counts.lookup w := by
  induction counts with
  | nil => simp [addKind, lookup_entry]
  | cons entry rest ih =>
    obtain ⟨k, count⟩ := entry
    by_cases hk : k = kind
    · rw [addKind, if_pos hk, lookup_entry, lookup_entry, lookup_entry, hk, if_pos rfl]
      split <;> simp
    · rw [addKind, if_neg hk, lookup_entry, lookup_entry, lookup_entry, ih, if_neg (Ne.symm hk)]
      by_cases hw : w = k
      · rw [if_pos hw, if_pos hw, if_neg (hw ▸ hk)]
      · rw [if_neg hw, if_neg hw]

/-- Counting enters no kind but the one counted. -/
theorem mem_keys_addKind {kind w : Text} (h : w ∈ (addKind kind counts).map Prod.fst) :
    w = kind ∨ w ∈ counts.map Prod.fst := by
  induction counts with
  | nil => exact .inl (List.mem_singleton.mp h)
  | cons entry rest ih =>
    obtain ⟨k, count⟩ := entry
    by_cases hk : k = kind
    · rw [addKind, if_pos hk] at h
      exact .inr h
    · rw [addKind, if_neg hk, List.map_cons, List.mem_cons] at h
      rcases h with rfl | h
      · exact .inr List.mem_cons_self
      · exact (ih h).imp_right (List.mem_cons_of_mem _)

/-- Counting enters no kind twice. -/
theorem nodup_keys_addKind (kind : Text) (h : (counts.map Prod.fst).Nodup) :
    ((addKind kind counts).map Prod.fst).Nodup := by
  induction counts with
  | nil => simp [addKind]
  | cons entry rest ih =>
    obtain ⟨k, count⟩ := entry
    rw [List.map_cons, List.nodup_cons] at h
    by_cases hk : k = kind
    · rw [addKind, if_pos hk]
      exact List.nodup_cons.mpr h
    · rw [addKind, if_neg hk, List.map_cons, List.nodup_cons]
      refine ⟨fun hmem => ?_, ih h.2⟩
      exact (mem_keys_addKind hmem).elim hk h.1

/-- Counting adds one to the sum. -/
theorem sum_addKind (kind : Text) :
    ((addKind kind counts).map Prod.snd).sum = (counts.map Prod.snd).sum + 1 := by
  induction counts with
  | nil => rfl
  | cons entry rest ih =>
    obtain ⟨k, count⟩ := entry
    by_cases hk : k = kind
    · rw [addKind, if_pos hk]
      simp only [List.map_cons, List.sum_cons]
      omega
    · rw [addKind, if_neg hk]
      simp only [List.map_cons, List.sum_cons, ih]
      omega

end Counts

/-- A number that is left out if it is zero is read as itself. -/
theorem getD_positive (n : Nat) : (if n = 0 then none else some n).getD 0 = n := by
  split <;> simp [*]

/-- The counts by kind are those of the kept events: no kind is counted twice, each has its number of
kept events and is not there if it has none, and together they count all kept events. -/
structure CountsAgree (x : Exporter) : Prop where
  distinct : (x.kindCounts.map Prod.fst).Nodup
  counted : ∀ kind, x.kindCounts.lookup kind =
    if x.events.countP (·.isKept kind) = 0 then none else some (x.events.countP (·.isKept kind))
  total : (x.kindCounts.map Prod.snd).sum = x.events.countP (·.kept)

/-- Recording an event keeps the counts in agreement with the events. -/
theorem CountsAgree.record {x : Exporter} (h : x.CountsAgree) {kind : DeclarationKind}
    {e : DeclarationEvent} (hkind : e.kind = .text kind.word) : (x.record kind e).CountsAgree := by
  cases hkept : e.kept with
  | false =>
    have hnone : ∀ w, e.isKept w = false := fun w => by rw [DeclarationEvent.isKept, hkept]; rfl
    have hcounts : (x.record kind e).kindCounts = x.kindCounts := by simp [Exporter.record, hkept]
    constructor
    · rw [hcounts]
      exact h.distinct
    · intro w
      rw [hcounts, h.counted w]
      simp [Exporter.record, hnone]
    · rw [hcounts, h.total]
      simp [Exporter.record, hkept]
  | true =>
    have hone : ∀ w, e.isKept w = decide (w = kind.word) := fun w => by
      rw [DeclarationEvent.isKept, hkept, hkind, Bool.true_and, Json.same, Bool.eq_iff_iff,
        beq_iff_eq, decide_eq_true_iff, eq_comm]
    have hcounts : (x.record kind e).kindCounts = addKind kind.word x.kindCounts := by
      simp [Exporter.record, hkept]
    constructor
    · rw [hcounts]
      exact nodup_keys_addKind _ h.distinct
    · intro w
      rw [hcounts, lookup_addKind, h.counted w, h.counted kind.word]
      simp only [getD_positive, Exporter.record, List.countP_append, List.countP_singleton, hone]
      by_cases hw : w = kind.word
      · simp [hw]
      · simp [hw]
    · rw [hcounts, sum_addKind, h.total]
      simp [Exporter.record, hkept]

/-- An exporter that has reported nothing yet has counted nothing. -/
theorem countsAgree_start (internal : Name → Bool) (includeInternal : Bool) :
    (new internal includeInternal).CountsAgree where
  distinct := List.nodup_nil
  counted _ := rfl
  total := rfl

/-- The figures of an exporter: the number of events, how many of them are kept and how many skipped,
and the counts by kind in another order, which add up to the number of kept events. -/
def FiguresAgree (x : Exporter) : Prop :=
  ∃ (kept skipped : Nat) (counts : Json.Fields),
    x.stats = ([("declarations", .int x.events.length), ("kept", .int kept),
      ("skipped", .int skipped), ("kind_counts", .object counts)] : Json.Fields) ∧
    kept = x.events.countP (·.kept) ∧ kept + skipped = x.events.length ∧
    counts.Perm (x.kindCounts.map fun (kind, count) => (kind, .int count)) ∧
    (counts.map fun field => field.2.whole).sum = kept

/-- If the counts of an exporter agree with its outcomes, so do its figures. -/
theorem CountsAgree.figures {x : Exporter} (h : x.CountsAgree) : x.FiguresAgree := by
  have hbound : x.events.countP (·.kept) ≤ x.events.length := List.countP_le_length
  have hsorted := Json.Fields.perm_sort (x.kindCounts.map fun (kind, count) => (kind, .int count))
  refine ⟨x.events.countP (·.kept), x.events.length - x.events.countP (·.kept), _, ?_, rfl,
    Nat.add_sub_cancel' hbound, hsorted, ?_⟩
  · rw [Int.ofNat_sub hbound]
    rfl
  · rw [(hsorted.map _).sum_eq, ← h.total, List.map_map]
    simp [Function.comp_def, Json.whole, Nat.cast_list_sum]

end Exporter

/-- The event that reports a declaration of a module: its name and its kind, whether it is one of those
to keep, and the length of its encoding if so. -/
structure DeclarationEvent.Reports (keeps : Declaration → Bool) (module : Name) (d : Declaration)
    (e : DeclarationEvent) : Prop where
  module_eq : e.module = module
  name_eq : e.name = d.name
  kind_eq : ∃ kind, d.kind = .ok kind ∧ e.kind = .text kind.word
  kept_eq : e.kept = keeps d
  length_eq : if keeps d then ∃ v, d.encode = .ok v ∧ e.length = .int v.render.length
    else e.length = .int 0

/-- A declaration that ends an export: one to keep that has no encoding, or one to skip that has no
kind. -/
def Declaration.Offends (keeps : Declaration → Bool) (d : Declaration) (error : EncodeError) : Prop :=
  if keeps d then d.encode = .error error else d.kind = .error error

/-- A declaration with an encoding has a kind. -/
theorem Declaration.exists_kind {d : Declaration} {v : Value} (h : d.encode = .ok v) :
    ∃ kind, d.kind = .ok kind := by
  obtain ⟨name, type, payload⟩ := d
  cases payload with
  | foreign f =>
    rw [Declaration.encode, Declaration.encodePayload] at h
    generalize name.encode = n at h
    generalize type.encode = t at h
    cases n <;> cases t <;> cases h
  | _ => exact ⟨_, rfl⟩

/-- Events that report the declarations of a table in their order: all of them if an export succeeded,
those before the one that ended it if not. -/
def Exporter.Follows (keeps : Declaration → Bool) (module : Name) (ds : List Declaration)
    (events : List DeclarationEvent) {α : Type} : Except EncodeError α → Prop
  | .ok _ => List.Forall₂ (DeclarationEvent.Reports keeps module) ds events
  | .error error => ∃ done d rest, ds = done ++ d :: rest ∧
      List.Forall₂ (DeclarationEvent.Reports keeps module) done events ∧ d.Offends keeps error

namespace Exporter

variable {keeps : Declaration → Bool} {module : Name} {d : Declaration} {ds : List Declaration}
  {e : DeclarationEvent} {events : List DeclarationEvent} {α β : Type}

/-- A reported declaration in front of a table is reported in front of its events. -/
theorem Follows.cons (hd : e.Reports keeps module d) {result : Except EncodeError α}
    (h : Follows keeps module ds events result) (f : α → β) :
    Follows keeps module (d :: ds) (e :: events) (result.map f) := by
  cases result with
  | ok x => exact List.Forall₂.cons hd h
  | error error =>
    obtain ⟨done, last, rest, rfl, hdone, hlast⟩ := h
    exact ⟨d :: done, last, rest, rfl, .cons hd hdone, hlast⟩

/-- What becomes of a declaration that does not end the export. -/
theorem reports_of_outcome {x : Exporter} {kind : DeclarationKind} {value : Option Value}
    (h : x.outcome module d = .ok (kind, e, value)) :
    e.Reports x.keeps module d ∧ e.kind = .text kind.word := by
  rw [outcome] at h
  split at h
  · next hkeeps =>
    cases hv : d.encode with
    | error error => rw [hv] at h; cases h
    | ok v =>
      cases hk : d.kind with
      | error error => rw [hv, hk] at h; cases h
      | ok k =>
        rw [hv, hk] at h
        cases h
        refine ⟨⟨rfl, rfl, ⟨_, hk, rfl⟩, hkeeps.symm, ?_⟩, rfl⟩
        rw [if_pos hkeeps]
        exact ⟨v, hv, rfl⟩
  · next hskips =>
    cases hk : d.kind with
    | error error => rw [hk] at h; cases h
    | ok k =>
      rw [hk] at h
      cases h
      refine ⟨⟨rfl, rfl, ⟨_, hk, rfl⟩, (Bool.eq_false_iff.mpr hskips).symm, ?_⟩, rfl⟩
      rw [if_neg hskips]

/-- A declaration that ends the export; if it is writable, the exporter stays as it was. -/
theorem offends_of_outcome {x : Exporter} {error : EncodeError}
    (h : x.outcome module d = .error error) :
    d.Offends x.keeps error ∧ (d.Writable → x.afterFailure d error = x) := by
  rw [outcome] at h
  rw [Declaration.Offends]
  split at h
  · next hkeeps =>
    rw [if_pos hkeeps]
    cases hv : d.encode with
    | error error' =>
      rw [hv] at h
      cases h
      refine ⟨rfl, fun hd => ?_⟩
      rw [afterFailure, d.writable_encode hd error hv]
    | ok v =>
      obtain ⟨kind, hkind⟩ := Declaration.exists_kind hv
      rw [hv, hkind] at h
      cases h
  · next hskips =>
    rw [if_neg hskips]
    cases hk : d.kind with
    | ok k => rw [hk] at h; cases h
    | error error' =>
      rw [hk] at h
      cases h
      exact ⟨rfl, fun _ => by rw [afterFailure, hk]; cases error.isAtNumber <;> rfl⟩

section Hooks

variable {σ τ : Type} (hooks : List (σ → Event → σ)) (others : List (τ → Event → τ))

/-- What the export of a table adds to an exporter and tells its hooks. -/
structure TableReport (x : Exporter) (module : Name) (s : σ) (ds : List Declaration)
    (r : Exporter × σ × Except EncodeError (List Value)) (added : List DeclarationEvent) : Prop where
  internal_eq : r.1.internal = x.internal
  includeInternal_eq : r.1.includeInternal = x.includeInternal
  events_eq : r.1.events = x.events ++ added
  told_eq : r.2.1 = (added.map .declaration).foldl (notify hooks) s
  follows : Follows x.keeps module ds added r.2.2
  counts : x.CountsAgree → r.1.CountsAgree

/-- The loop over a table adds the events that follow the table, tells just these, and keeps the counts in
agreement. -/
theorem exists_tableReport (x : Exporter) (module : Name) (s : σ) (ds : List Declaration)
    (hds : ∀ d ∈ ds, d.Writable) :
    ∃ added, TableReport hooks x module s ds (exportTable hooks module x s ds) added := by
  induction ds generalizing x s with
  | nil => exact ⟨[], rfl, rfl, (List.append_nil _).symm, rfl, List.Forall₂.nil, id⟩
  | cons d rest ih =>
    rw [exportTable]
    cases houtcome : x.outcome module d with
    | error error =>
      obtain ⟨hoffends, hstays⟩ := offends_of_outcome houtcome
      dsimp only
      rw [hstays (hds d List.mem_cons_self)]
      exact ⟨[], rfl, rfl, (List.append_nil _).symm, rfl, ⟨[], d, rest, rfl, .nil, hoffends⟩, id⟩
    | ok given =>
      obtain ⟨kind, event, value⟩ := given
      obtain ⟨hreports, hkind⟩ := reports_of_outcome houtcome
      obtain ⟨added, hrest⟩ := ih (x.record kind event) (notify hooks s (.declaration event)) fun d hd =>
        hds d (List.mem_cons_of_mem _ hd)
      refine ⟨event :: added, hrest.internal_eq, hrest.includeInternal_eq, ?_, hrest.told_eq, ?_, ?_⟩
      · rw [hrest.events_eq, Exporter.record, List.append_assoc]
        rfl
      · exact Follows.cons hreports hrest.follows _
      · exact fun hx => hrest.counts (hx.record hkind)

/-- Whatever the declarations are, the hooks are told events that report some of them. -/
theorem exists_told_of_exportTable (x : Exporter) (module : Name) (s : σ) (ds : List Declaration) :
    ∃ added : List DeclarationEvent,
      (exportTable hooks module x s ds).2.1 = (added.map .declaration).foldl (notify hooks) s ∧
        ∀ e ∈ added, ∃ d ∈ ds, e.Reports x.keeps module d := by
  induction ds generalizing x s with
  | nil => exact ⟨[], rfl, List.forall_mem_nil _⟩
  | cons d rest ih =>
    rw [exportTable]
    cases houtcome : x.outcome module d with
    | error error => exact ⟨[], rfl, List.forall_mem_nil _⟩
    | ok given =>
      obtain ⟨kind, event, value⟩ := given
      obtain ⟨added, htold, hreports⟩ := ih (x.record kind event) (notify hooks s (.declaration event))
      refine ⟨event :: added, htold, List.forall_mem_cons.mpr ⟨?_, fun e he => ?_⟩⟩
      · exact ⟨d, List.mem_cons_self, (reports_of_outcome houtcome).1⟩
      · obtain ⟨d', hd', he'⟩ := hreports e he
        exact ⟨d', List.mem_cons_of_mem _ hd', he'⟩

/-- The loop tells all hooks the same events, and leaves and returns the same whichever they are. -/
theorem exists_exportTable_eq (x : Exporter) (module : Name) (s : σ) (t : τ) (ds : List Declaration) :
    ∃ (after : Exporter) (events : List Event) (result : Except EncodeError (List Value)),
      exportTable hooks module x s ds = (after, events.foldl (notify hooks) s, result) ∧
        exportTable others module x t ds = (after, events.foldl (notify others) t, result) := by
  induction ds generalizing x s t with
  | nil => exact ⟨x, [], .ok [], rfl, rfl⟩
  | cons d rest ih =>
    rw [exportTable, exportTable]
    cases x.outcome module d with
    | error error => exact ⟨_, [], .error error, rfl, rfl⟩
    | ok given =>
      obtain ⟨kind, event, value⟩ := given
      obtain ⟨after, events, result, hhooks, hothers⟩ :=
        ih (x.record kind event) (notify hooks s (.declaration event)) (notify others t (.declaration event))
      refine ⟨after, .declaration event :: events, result.map (value.toList ++ ·), ?_, ?_⟩
      · simp only [hhooks, List.foldl_cons]
      · simp only [hothers, List.foldl_cons]

/-- A hook that collects what it is told has it afterwards. -/
@[simp] theorem foldl_notify_collect (collected events : List Event) :
    events.foldl (notify [collect]) collected = collected ++ events := by
  induction events generalizing collected with
  | nil => exact (List.append_nil collected).symm
  | cons event rest ih => exact (ih (collected ++ [event])).trans (List.append_cons ..).symm

/-- An export to any hooks tells them what it tells the one that collects, and leaves and returns the
same. -/
theorem exportTo_eq (x : Exporter) (m : Module) (s : σ) :
    x.exportTo hooks m s = ((x.run m).1, (x.run m).2.1.foldl (notify hooks) s, (x.run m).2.2) := by
  obtain ⟨after, events, result, hhooks, hcollect⟩ :=
    exists_exportTable_eq hooks [collect] { x with events := [], kindCounts := [] } m.name
      (notify hooks s (.module ⟨m.name, "begin", []⟩)) (notify [collect] [] (.module ⟨m.name, "begin", []⟩))
      m.declarations
  rw [foldl_notify_collect] at hcollect
  rw [run, exportTo, exportTo, hhooks, hcollect]
  cases result with
  | error error => rfl
  | ok kept =>
    change (_, notify hooks _ _, _) = (_, (_ :: (events ++ [_])).foldl (notify hooks) s, _)
    rw [List.foldl_cons, List.foldl_append]
    rfl

end Hooks

end Exporter

/-- A module all of whose names and numbers are written in full. -/
def Module.Writable (m : Module) : Prop :=
  m.name.Writable ∧ ∀ d ∈ m.declarations, d.Writable

namespace Exporter

/-- The exports of modules one after another: what each left behind, what it told, and its encoding. An
export that fails does not keep the next one from being made. -/
def runs (x : Exporter) : List Module → List (Exporter × List Event × Except EncodeError Value)
  | [] => []
  | m :: rest => x.run m :: (x.run m).1.runs rest

/-- What an export that left its events tells: these events between a begin and, if it succeeded, an end
with the figures. -/
def told (x : Exporter) (module : Name) (succeeded : Bool) : List Event :=
  .module ⟨module, "begin", []⟩ ::
    (x.events.map .declaration ++ if succeeded then [.module ⟨module, "end", x.stats⟩] else [])

/-- What an export of a module leaves behind: the exporter with its settings, events that follow the
table of the module, and counts and figures that agree with these events. -/
structure Report (x : Exporter) (m : Module) (after : Exporter) (result : Except EncodeError Value) :
    Prop where
  internal_eq : after.internal = x.internal
  includeInternal_eq : after.includeInternal = x.includeInternal
  follows : Follows x.keeps m.name m.declarations after.events result
  counts : after.CountsAgree
  figures : after.FiguresAgree

/-- An export of a writable module is reported, whatever the exporter held before, and tells its events. -/
theorem report_run (x : Exporter) (m : Module) (hm : m.Writable) :
    x.Report m (x.run m).1 (x.run m).2.2 ∧
      (x.run m).2.1 = (x.run m).1.told m.name (x.run m).2.2.isOk := by
  obtain ⟨name, hname⟩ := hm.1.exists_encode
  obtain ⟨added, htable⟩ := exists_tableReport [collect] { x with events := [], kindCounts := [] } m.name
    (notify [collect] [] (.module ⟨m.name, "begin", []⟩)) m.declarations hm.2
  rw [run, exportTo]
  generalize exportTable _ m.name _ _ m.declarations = r at htable
  obtain ⟨after, events, result⟩ := r
  have hevents : after.events = added := htable.events_eq
  have htold : events = .module ⟨m.name, "begin", []⟩ :: after.events.map .declaration := by
    rw [hevents]
    exact htable.told_eq.trans (foldl_notify_collect ..)
  have hfollows := htable.follows
  rw [← hevents] at hfollows
  have hcounts : after.CountsAgree := htable.counts (countsAgree_start x.internal x.includeInternal)
  cases result with
  | error error =>
    refine ⟨⟨htable.internal_eq, htable.includeInternal_eq, hfollows, hcounts, hcounts.figures⟩, ?_⟩
    exact htold.trans (congrArg _ (List.append_nil _).symm)
  | ok kept =>
    have hencoded : Module.encodeWith m.name (.ok kept) =
        .ok (.tagged .module (.tagged .moduleName [name] :: kept)) := by
      rw [Module.encodeWith, hname]
      rfl
    dsimp only
    rw [hencoded]
    refine ⟨⟨htable.internal_eq, htable.includeInternal_eq, hfollows, hcounts, hcounts.figures⟩, ?_⟩
    rw [htold]
    rfl

/-- A report is about the settings of an exporter only. -/
theorem Report.of_settings {x y : Exporter} {m : Module} {after : Exporter}
    {result : Except EncodeError Value} (h : y.Report m after result)
    (hinternal : y.internal = x.internal) (hinclude : y.includeInternal = x.includeInternal) :
    x.Report m after result := by
  have hkeeps : y.keeps = x.keeps := by
    funext d
    rw [keeps, keeps, hinternal, hinclude]
  exact { h with
    internal_eq := h.internal_eq.trans hinternal
    includeInternal_eq := h.includeInternal_eq.trans hinclude
    follows := hkeeps ▸ h.follows }

end Exporter

end TermText
