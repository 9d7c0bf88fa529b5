import TermText.Proofs.Dump.Declarations

/-!
# Calls on one session

Any number of calls made on one session, each of which may fail. No call leaves a record marked as
being built, and the outcome of a call is the one that it has in a fresh session, whatever was asked
for before and whatever failed. Only the identities of nodes depend on the calls before.
-/

namespace TermText.Dump

variable {α β ν : Type} {tables : Tables}

/-- What a session is asked for: the object of a reference, or the declaration of a record. -/
inductive Call where
  | name (ref : Json)
  | level (ref : Json)
  | expr (ref : Json)
  | declaration (record : Json)

/-- What a session answers. -/
inductive Answer where
  | name (n : Name)
  | level (l : Level)
  | expr (t : Term)
  | declaration (d : Declaration)

/-- The answer with its terms written out as trees. -/
def Answer.tree : Answer → Answer
  | .name n => .name n
  | .level l => .level l
  | .expr t => .expr t.tree
  | .declaration d => .declaration d.tree

/-- The step that a call takes. -/
def Call.perform (tables : Tables) : Call → Load Answer
  | .name ref => Answer.name <$> Dump.name tables ref
  | .level ref => Answer.level <$> Dump.level tables ref
  | .expr ref => Answer.expr <$> Dump.expr tables ref
  | .declaration record => Answer.declaration <$> Dump.declaration tables record

/-- How a step ends in a session. -/
def Load.outcome (m : Load α) (s : Session) : Except Error α :=
  match m s with
  | .ok a _ => .ok a
  | .error e _ => .error e

/-- A dump whose tables are found is loaded as its module. -/
theorem load_eq_outcome {fields : Json.Fields} {tables : Tables} (h : tablesOf fields = .ok tables) :
    load (.object fields) = (moduleOf tables fields).outcome Session.empty := by
  simp only [load, h, bind, Except.bind, Load.outcome]
  cases moduleOf tables fields Session.empty <;> rfl

/-- The outcomes of calls made one after another on one session, each with the session it leaves. -/
def Tables.outcomes (tables : Tables) : List Call → Session → List (Except Error Answer × Session)
  | [], _ => []
  | call :: rest, s =>
    ((call.perform tables).outcome s, (call.perform tables).after s) ::
      tables.outcomes rest ((call.perform tables).after s)

/-- A step that ends in one way still does if what it finds is put to one use. -/
theorem Load.Ends.map {μ : Type} {m : Load α} {active : List Key} {View : α → ν → Prop}
    {View' : β → μ → Prop} {o : Except Error ν} {f : α → β} {g : ν → μ}
    (h : m.Ends tables active View o) (hview : ∀ a v, View a v → View' (f a) (g v)) :
    (f <$> m).Ends tables active View' (o.map g) := by
  cases o with
  | error e =>
    intro s hs
    obtain ⟨s', hstep, hs'⟩ := h s hs
    exact ⟨s', by rw [map_apply, hstep], hs'⟩
  | ok v =>
    intro s hs
    obtain ⟨a, s', hstep, ha, hs'⟩ := h s hs
    exact ⟨f a, s', by rw [map_apply, hstep], hview a v ha, hs'⟩

/-- A step that ends in one way has that outcome, and it leaves a session of the same kind. -/
theorem Load.Ends.outcome_eq {m : Load α} {active : List Key} {tree : α → ν} {o : Except Error ν}
    (h : m.Ends tables active (fun a v => tree a = v) o) {s : Session} (hs : s.Fits tables active) :
    (m.outcome s).map tree = o ∧ (m.after s).Fits tables active := by
  cases o with
  | error e =>
    obtain ⟨s', hstep, hs'⟩ := h s hs
    rw [outcome, after, hstep]
    exact ⟨rfl, hs'⟩
  | ok v =>
    obtain ⟨a, s', hstep, ha, hs'⟩ := h s hs
    rw [outcome, after, hstep]
    exact ⟨congrArg Except.ok ha, hs'⟩

/-- What a step that is decided finds is denoted, and the session fits as before. -/
theorem Load.Decides.of_ok {m : Load α} {active : List Key}
    {View : α → ν → Prop} {Denotes : ν → Prop} (h : m.Decides tables active View Denotes)
    {s s' : Session} {a : α} (hs : s.Fits tables active) (hrun : m s = .ok a s') :
    s'.Fits tables active ∧ ∃ v, View a v ∧ Denotes v := by
  obtain ⟨o, hends, hdenotes⟩ := h
  cases o with
  | ok v =>
    obtain ⟨b, s'', hstep, hview, hfits⟩ := hends s hs
    rw [hstep] at hrun
    cases hrun
    exact ⟨hfits, v, hview, (hdenotes v).mp rfl⟩
  | error e =>
    obtain ⟨s'', hstep, -⟩ := hends s hs
    rw [hstep] at hrun
    cases hrun

/-- What a declaration is made of is decided by what its recipe yields. -/
theorem decides_declaration (tables : Tables) (record : Json) :
    (declaration tables record).Decides tables [] Recipe.IsDeclarationTree fun d =>
      (Recipe.ofDeclaration (record.depth + 1) record).Yields tables.meaning
        (Recipe.IsDeclarationTree · d) := by
  have hcourse := Recipe.sameCourse_ofDeclaration record.depth.lt_succ_self
  obtain ⟨o, hends, hyields⟩ := Recipe.exists_ends_run (fun d v v' hv hv' => hv.symm.trans hv') hcourse
    (tables.decides_all _)
  rw [declaration_eq_run]
  exact ⟨o, hends _ hcourse, hyields⟩

/-- A call has one outcome in all sound sessions. -/
theorem Call.exists_ends (tables : Tables) (call : Call) :
    ∃ o, (call.perform tables).Ends tables [] (fun a v => a.tree = v) o := by
  cases call with
  | name ref =>
    obtain ⟨o, hends, _⟩ := (tables.decides_all (nameKeys ref)).name ref fun _ h => h
    exact ⟨_, hends.map fun _ _ ha => congrArg Answer.name ha⟩
  | level ref =>
    obtain ⟨o, hends, _⟩ := (tables.decides_all (levelKeys ref)).level ref fun _ h => h
    exact ⟨_, hends.map fun _ _ ha => congrArg Answer.level ha⟩
  | expr ref =>
    obtain ⟨o, hends, _⟩ := (tables.decides_all (exprKeys ref)).expr ref fun _ h => h
    exact ⟨_, hends.map fun _ _ ha => congrArg Answer.expr ha⟩
  | declaration record =>
    obtain ⟨o, hends, _⟩ := decides_declaration tables record
    exact ⟨_, hends.map fun _ _ ha => congrArg Answer.declaration ha⟩

/-- Calls on a sound session have the outcomes of calls on fresh ones. -/
theorem Tables.outcomes_eq_map (tables : Tables) (calls : List Call) {s : Session}
    (hs : s.Fits tables []) :
    (tables.outcomes calls s).map (fun (o, s) => (o.map Answer.tree, s.active)) =
      calls.map fun call =>
        (((call.perform tables).outcome Session.empty).map Answer.tree, []) := by
  induction calls generalizing s with
  | nil => rfl
  | cons call rest ih =>
    obtain ⟨o, hends⟩ := call.exists_ends tables
    obtain ⟨hhere, hafter⟩ := hends.outcome_eq hs
    obtain ⟨hfresh, _⟩ := hends.outcome_eq (Session.fits_empty tables)
    simp only [Tables.outcomes, List.map_cons, hhere, hfresh, hafter.2, ih hafter]

/-- A step that finishes has an outcome. -/
theorem Load.Finishes.outcome_ne {m : Load α} {s : Session} (h : m.Finishes s) (f : α → β) :
    (f <$> m).outcome s ≠ .error .unfinished := by
  rw [outcome, map_apply]
  cases hstep : m s with
  | ok a s' => nofun
  | error e s' =>
    intro he
    cases he
    exact h s' hstep

/-- Every call ends. -/
theorem Call.finishes (tables : Tables) (call : Call) (s : Session) :
    (call.perform tables).outcome s ≠ .error .unfinished := by
  cases call with
  | name ref => exact (finishes_name tables ref s).outcome_ne _
  | level ref => exact (finishes_level tables ref s).outcome_ne _
  | expr ref => exact (finishes_expr tables ref s).outcome_ne _
  | declaration record => exact (finishes_declaration tables record s).outcome_ne _

/-- Calls leave no trace: of calls made one after another on one session, in any order and whichever
of them fail, each one ends, has the outcome that it has in a fresh session, and leaves no record
marked as being built. -/
theorem calls_leave_no_trace (tables : Tables) (calls : List Call) :
    (tables.outcomes calls Session.empty).map (fun (o, s) => (o.map Answer.tree, s.active)) =
        calls.map (fun call =>
          (((call.perform tables).outcome Session.empty).map Answer.tree, [])) ∧
      ∀ call ∈ calls, (call.perform tables).outcome Session.empty ≠ .error .unfinished :=
  ⟨tables.outcomes_eq_map calls (Session.fits_empty tables), fun call _ => call.finishes tables _⟩

end TermText.Dump
