import TermText.Proofs.Export.Report

/-!
# What an export returns

An exporter encodes one declaration after another where the encoder of modules encodes them together.
Both return the same, also if there is no encoding, as long as no number stops a declaration that is
kept, and every declaration that the exporter skips has a kind: the exporter asks for it, the encoder
does not look at what it hides. Nothing is asked of the name of the module, nor of what the exporter
holds from the exports before.

Two kept declarations of which a number stops the first and a foreign object the second are not covered:
there the exporter ends at the first and the encoder reports the second.
-/

namespace TermText.Exporter

/-- The names that an exporter takes for internal: none if it keeps internal declarations. -/
def hides (x : Exporter) (name : Name) : Bool :=
  !x.includeInternal && x.internal name

/-- An exporter keeps what is visible. -/
theorem keeps_eq (x : Exporter) (d : Declaration) : x.keeps d = d.name.isVisible x.hides := by
  cases hinclude : x.includeInternal <;> simp [keeps, hides, Name.isVisible, hinclude]

/-- A declaration that can be exported: no number stops it if it is kept, and it has a kind if not. -/
def Handles (x : Exporter) (d : Declaration) : Prop :=
  (x.keeps d = true → d.Writable) ∧ (x.keeps d = false → ∃ kind, d.kind = .ok kind)

section Hooks

variable {σ : Type} (hooks : List (σ → Event → σ)) (module : Name)

/-- A kept declaration in front of a table is encoded in front of what the table gives. -/
theorem result_of_kept {x : Exporter} {d : Declaration} (hkept : x.keeps d = true)
    (hd : Encoding.Writable d.encode) (s : σ) (rest : List Declaration)
    (result : Except EncodeError (List Value))
    (hrest : ∀ kind e s, (exportTable hooks module (x.record kind e) s rest).2.2 = result) :
    (exportTable hooks module x s (d :: rest)).2.2 = (do
      let (v, vs) ← Encoding.pair d.encode result
      .ok (v :: vs)) := by
  rw [exportTable, outcome, hd.pair_eq]
  cases hvalue : d.encode with
  | error error =>
    rw [if_pos hkept]
    rfl
  | ok value =>
    obtain ⟨kind, hkind⟩ := Declaration.exists_kind hvalue
    simp only [hkept, hkind, if_true, bind, Except.bind]
    rw [hrest]
    cases result <;> rfl

/-- A skipped declaration in front of a table leaves what the table gives as it is. -/
theorem result_of_skipped {x : Exporter} {d : Declaration} (hskipped : x.keeps d = false)
    {kind : DeclarationKind} (hkind : d.kind = .ok kind) (s : σ) (rest : List Declaration)
    (result : Except EncodeError (List Value))
    (hrest : ∀ kind e s, (exportTable hooks module (x.record kind e) s rest).2.2 = result) :
    (exportTable hooks module x s (d :: rest)).2.2 = result := by
  rw [exportTable, outcome]
  simp only [hskipped, hkind, Bool.false_eq_true, if_false, bind, Except.bind]
  rw [hrest]
  cases result <;> rfl

/-- The loop over a table returns the encodings of the kept declarations together. -/
theorem exportTable_result (x : Exporter) (s : σ) (ds : List Declaration)
    (hds : ∀ d ∈ ds, x.Handles d) :
    (exportTable hooks module x s ds).2.2 = Declaration.encodeAll (ds.filter x.keeps) := by
  induction ds generalizing x s with
  | nil => rfl
  | cons d rest ih =>
    obtain ⟨⟨hwritable, hkind⟩, hall⟩ := List.forall_mem_cons.mp hds
    have hrest (kind : DeclarationKind) (e : DeclarationEvent) (s : σ) :
        (exportTable hooks module (x.record kind e) s rest).2.2 =
          Declaration.encodeAll (rest.filter x.keeps) :=
      ih _ s hall
    by_cases hkept : x.keeps d = true
    · rw [List.filter_cons_of_pos hkept, Declaration.encodeAll]
      exact result_of_kept hooks module hkept (d.writable_encode (hwritable hkept)) s rest _ hrest
    · obtain ⟨kind, hkind⟩ := hkind (Bool.eq_false_iff.mpr hkept)
      rw [List.filter_cons_of_neg hkept]
      exact result_of_skipped hooks module (Bool.eq_false_iff.mpr hkept) hkind s rest _ hrest

end Hooks

/-- A foreign object that stops a declaration is reported, also if the name cannot be written. -/
theorem encodeWith_error (name : Name) {error : EncodeError} (h : error.isAtNumber = false) :
    Module.encodeWith name (.error error) = .error error := by
  rw [Module.encodeWith]
  cases hname : name.encode with
  | ok v => rfl
  | error first =>
    rw [Encoding.pair, EncodeError.reported, h, Name.isAtNumber_of_encode hname]
    rfl

/-- The export of a module returns its encoding, or fails as this does. -/
theorem run_result (x : Exporter) (m : Module) (hm : ∀ d ∈ m.declarations, x.Handles d) :
    (x.run m).2.2 = m.encode x.hides := by
  have htable := exportTable_result [collect] m.name { x with events := [], kindCounts := [] }
    (notify [collect] [] (.module ⟨m.name, "begin", []⟩)) m.declarations hm
  change _ = Declaration.encodeAll (m.declarations.filter x.keeps) at htable
  have hwritable : Encoding.Writable (Declaration.encodeAll (m.declarations.filter x.keeps)) := by
    refine Declaration.writable_encodeAll _ (Declaration.allWritable_iff.mpr fun d hd => ?_)
    obtain ⟨hmem, hkept⟩ := List.mem_filter.mp hd
    exact (hm d hmem).1 hkept
  have hencode : m.encode x.hides =
      Module.encodeWith m.name (Declaration.encodeAll (m.declarations.filter x.keeps)) := by
    rw [Module.encode, funext x.keeps_eq]
  rw [hencode, run, exportTo]
  rw [← htable] at hwritable ⊢
  generalize exportTable _ m.name _ _ m.declarations = r at hwritable
  obtain ⟨after, events, result⟩ := r
  cases result with
  | error error => exact (encodeWith_error m.name (hwritable error rfl)).symm
  | ok kept => rfl

/-- The export of a table leaves the settings of an exporter as they are. -/
theorem exportTable_settings {σ : Type} (hooks : List (σ → Event → σ)) (module : Name) (x : Exporter) (s : σ)
    (ds : List Declaration) :
    (exportTable hooks module x s ds).1.internal = x.internal ∧
      (exportTable hooks module x s ds).1.includeInternal = x.includeInternal := by
  induction ds generalizing x s with
  | nil => exact ⟨rfl, rfl⟩
  | cons d rest ih =>
    rw [exportTable]
    cases x.outcome module d with
    | error error =>
      change (x.afterFailure d error).internal = _ ∧ (x.afterFailure d error).includeInternal = _
      rw [afterFailure]
      split <;> exact ⟨rfl, rfl⟩
    | ok given => exact ih (x.record given.1 given.2.1) (notify hooks s (.declaration given.2.1))

/-- An export leaves the settings of an exporter as they are. -/
theorem run_settings (x : Exporter) (m : Module) :
    (x.run m).1.internal = x.internal ∧ (x.run m).1.includeInternal = x.includeInternal := by
  have htable := exportTable_settings [collect] m.name { x with events := [], kindCounts := [] }
    (notify [collect] [] (.module ⟨m.name, "begin", []⟩)) m.declarations
  rw [run, exportTo]
  generalize exportTable _ m.name _ _ m.declarations = r at htable
  obtain ⟨after, events, result⟩ := r
  cases result <;> exact htable

/-- What an exporter hides depends on its settings only. -/
theorem hides_run (x : Exporter) (m : Module) : (x.run m).1.hides = x.hides := by
  obtain ⟨hinternal, hinclude⟩ := x.run_settings m
  funext name
  rw [hides, hides, hinternal, hinclude]

/-- What an exporter can export depends on its settings only. -/
theorem Handles.run {x : Exporter} {d : Declaration} (h : x.Handles d) (m : Module) :
    (x.run m).1.Handles d := by
  have hkeeps : (x.run m).1.keeps d = x.keeps d := by
    rw [keeps_eq, keeps_eq, x.hides_run m]
  rw [Handles, hkeeps]
  exact h

/-- Exports one after another return the encodings of their modules. -/
theorem runs_result (x : Exporter) (ms : List Module)
    (hms : ∀ m ∈ ms, ∀ d ∈ m.declarations, x.Handles d) :
    List.Forall₂ (fun m r => r.2.2 = m.encode x.hides) ms (x.runs ms) := by
  induction ms generalizing x with
  | nil => exact .nil
  | cons m rest ih =>
    obtain ⟨hm, hall⟩ := List.forall_mem_cons.mp hms
    have hrest := ih (x.run m).1 fun m' hm' d hd => (hall m' hm' d hd).run m
    rw [x.hides_run m] at hrest
    exact .cons (x.run_result m hm) hrest

/-- Whatever an exporter holds and whatever modules it exports one after another, each export returns
what the encoder of modules returns: the same value, or the same failure. If internal declarations are
included, the encoder is told that nothing is internal. -/
theorem runs_agree_with_encoder (x : Exporter) (ms : List Module)
    (hms : ∀ m ∈ ms, ∀ d ∈ m.declarations, x.Handles d) :
    List.Forall₂ (fun m r =>
      (x.includeInternal = false → r.2.2 = m.encode x.internal) ∧
        (x.includeInternal = true → r.2.2 = m.encode fun _ => false)) ms (x.runs ms) := by
  refine (runs_result x ms hms).imp fun m r hr => ⟨fun hexclude => ?_, fun hinclude => ?_⟩
  · have hhides : x.hides = x.internal := by
      funext name
      rw [hides, hexclude, Bool.not_false, Bool.true_and]
    exact hhides ▸ hr
  · have hhides : x.hides = fun _ => false := by
      funext name
      rw [hides, hinclude, Bool.not_true, Bool.false_and]
    exact hhides ▸ hr

/-- Internal declarations are skipped. The first export is ended by a foreign term, though neither the
name of its module nor that of the skipped declaration can be written; the second one, of the same
exporter, leaves the skipped declaration out. -/
theorem runs_agree_with_encoder_after_failure :
    let n : Name := .anonymous
    let hidden : Name := .extend n (.text "_b") (.text "none")
    let kept : Declaration := .mk n (.boundVar 0 0) .assumption
    let skipped : Declaration := .mk hidden (.foreign 1 (.builtin "NoneType" true 0)) (.constructor hidden)
    let broken : Declaration := .mk n (.foreign 2 (.builtin "NoneType" true 0)) .assumption
    let x := new Name.isInternal false
    let failing : Module := ⟨hidden, [skipped, kept, broken]⟩
    let sound : Module := ⟨n, [kept, skipped]⟩
    List.Forall₂ (fun m r =>
        (x.includeInternal = false → r.2.2 = m.encode x.internal) ∧
          (x.includeInternal = true → r.2.2 = m.encode fun _ => false))
        [failing, sound] (x.runs [failing, sound]) ∧
      (x.runs [failing, sound]).map (·.2.2.toOption.map Value.render) =
        [none, some ("(:module (:module-name (:anonymous)) (:definition (:anonymous) (:var 0) (:axiom)))" : Text)] := by
  intro n hidden kept skipped broken x failing sound
  have hn : n.Writable := ⟨⟨1723, rfl⟩, 1723, rfl⟩
  have hkept : x.Handles kept := ⟨fun _ => ⟨hn, trivial, trivial⟩, fun _ => ⟨_, rfl⟩⟩
  have hbroken : x.Handles broken := ⟨fun _ => ⟨hn, trivial, trivial⟩, fun _ => ⟨_, rfl⟩⟩
  have hskipped : x.Handles skipped := ⟨fun h => absurd h (by decide), fun _ => ⟨_, rfl⟩⟩
  refine ⟨runs_agree_with_encoder x [failing, sound] ?_, ?_⟩
  · simp [failing, sound, hkept, hskipped, hbroken]
  · cbv

end TermText.Exporter
