import TermText.Proofs.Dump.Blame
import TermText.Proofs.Dump.Contents

/-!
# Calls within calls

Resolving a reference makes further calls on the session. They are listed here in their order, each
with the session that it is made in, as they are read off the recipe of the record that is entered or,
for an application, off the walk along its chain. No other calls matter: two ways of answering that
agree on the listed ones give the call one outcome, and the calls of the program itself are answered by
the tables.
-/

namespace TermText.Dump

variable {α β γ : Type} {tables : Tables} {loader loader' : Loader} {s : Session}

/-- Two loaders answer a call on a session alike. -/
def Loader.AgreeOn (loader loader' : Loader) : Call × Session → Prop
  | (.name ref, s) => loader.name ref s = loader'.name ref s
  | (.level ref, s) => loader.level ref s = loader'.level ref s
  | (.expr ref, s) => loader.expr ref s = loader'.expr ref s
  | (.declaration _, _) => True

/-- The calls that are made after a step, if it succeeds. -/
def Load.callsAfter (m : Load α) (calls : α → Session → List (Call × Session)) (s : Session) :
    List (Call × Session) :=
  match m s with
  | .ok a s' => calls a s'
  | .error _ _ => []

/-- After a step that succeeds, the calls are those of what is done next. -/
theorem Load.callsAfter_of_ok {m : Load α} {s' : Session} {a : α} (h : m s = .ok a s')
    (calls : α → Session → List (Call × Session)) : m.callsAfter calls s = calls a s' := by
  rw [callsAfter, h]

/-- A call that is made after a step is made in what the step leaves on success. -/
theorem Load.exists_of_mem_callsAfter {m : Load α} {calls : α → Session → List (Call × Session)}
    {made : Call × Session} (h : made ∈ m.callsAfter calls s) :
    ∃ a s', m s = .ok a s' ∧ made ∈ calls a s' := by
  unfold callsAfter at h
  split at h
  · exact ⟨_, _, by assumption, h⟩
  · cases h

/-- Only a reference with a label is followed by calls, and these are made on the same session. -/
theorem Load.exists_of_mem_calls_written {ref : Json} {calls : Text → Session → List (Call × Session)}
    {made : Call × Session} (h : made ∈ (written ref.label).callsAfter calls s) :
    ∃ id, ref.label = .ok id ∧ made ∈ calls id s := by
  obtain ⟨id, s', hstep, hmade⟩ := exists_of_mem_callsAfter h
  obtain ⟨hlabel, rfl⟩ := written_ok hstep
  exact ⟨id, hlabel, hmade⟩

/-- What follows a label is made of it. -/
theorem Load.callsAfter_written {ref : Json} {id : Text} (hlabel : ref.label = .ok id)
    (calls : Text → Session → List (Call × Session)) :
    (written ref.label).callsAfter calls = calls id := by
  rw [hlabel]
  rfl

/-- Two steps one after another that agree have one outcome. -/
theorem Load.bind_congr_of_ok {m m' : Load α} {f f' : α → Load β} (hm : m s = m' s)
    (hf : ∀ a s', m s = .ok a s' → f a s' = f' a s') : (m >>= f) s = (m' >>= f') s := by
  rw [bind_apply, bind_apply, ← hm]
  cases h : m s with
  | error e s' => rfl
  | ok a s' => exact hf a s' h

/-- The calls that a recipe makes when it is run in a session. -/
def Recipe.calls (loader : Loader) : Recipe α → Session → List (Call × Session)
  | .done _, _ | .fail _, _ => []
  | .askName ref next, s =>
    (.name ref, s) :: (loader.name ref).callsAfter (fun n s' => (next n).calls loader s') s
  | .askLevel ref next, s =>
    (.level ref, s) :: (loader.level ref).callsAfter (fun l s' => (next l).calls loader s') s
  | .askExpr ref next, s =>
    (.expr ref, s) :: (loader.expr ref).callsAfter (fun t s' => (next t).calls loader s') s

/-- A recipe is run alike by loaders that agree on the calls that it makes. -/
theorem Recipe.run_eq_of_agreeOn {r : Recipe α}
    (h : ∀ made ∈ r.calls loader s, loader.AgreeOn loader' made) :
    r.run loader s = r.run loader' s := by
  induction r generalizing s with
  | done a => rfl
  | fail e => rfl
  | askName ref next ih | askLevel ref next ih | askExpr ref next ih =>
    obtain ⟨hasked, hafter⟩ := List.forall_mem_cons.mp h
    refine Load.bind_congr_of_ok hasked fun a s' hstep => ih a fun made hmade => hafter made ?_
    rwa [Load.callsAfter_of_ok hstep]

/-- The calls that are made while the record of an id is built: none if an object is remembered, or if
the record is missing or being built. -/
def Shelf.calls (shelf : Shelf α) (recipe : Text → Json → Recipe β) (loader : Loader) (id : Text)
    (s : Session) : List (Call × Session) :=
  match lookup? (shelf.built s) id, Json.Fields.get? shelf.records id with
  | none, some record =>
    if s.isActive shelf.table id then []
    else (recipe id record).calls loader (s.start shelf.table id)
  | _, _ => []

/-- The calls of a record that is entered are those of its recipe. -/
theorem Shelf.calls_of_entered {shelf : Shelf α} {recipe : Text → Json → Recipe β} {id : Text}
    {record : Json} (hnew : lookup? (shelf.built s) id = none)
    (hrecord : Json.Fields.get? shelf.records id = some record)
    (hidle : s.isActive shelf.table id = false) :
    shelf.calls recipe loader id s = (recipe id record).calls loader (s.start shelf.table id) := by
  simp [calls, hnew, hrecord, hidle]

/-- Calls are made for an id only when its record is entered. -/
theorem Shelf.exists_of_mem_calls {shelf : Shelf α} {recipe : Text → Json → Recipe β} {id : Text}
    {made : Call × Session} (h : made ∈ shelf.calls recipe loader id s) :
    ∃ record, lookup? (shelf.built s) id = none ∧ Json.Fields.get? shelf.records id = some record ∧
      s.isActive shelf.table id = false ∧
        made ∈ (recipe id record).calls loader (s.start shelf.table id) := by
  unfold calls at h
  split at h
  · next record hnew hrecord =>
    split at h
    · cases h
    · next hidle => exact ⟨record, hnew, hrecord, Bool.eq_false_of_not_eq_true hidle, h⟩
  · cases h

/-- A record is resolved alike by loaders that agree on the calls made while it is built. -/
theorem Load.resolve_eq_of_agreeOn {shelf : Shelf α} {recipe : Text → Json → Recipe β}
    {finish : β → Load α} {id : Text}
    (h : ∀ made ∈ shelf.calls recipe loader id s, loader.AgreeOn loader' made) :
    resolve shelf (fun id record => (recipe id record).run loader >>= finish) id s =
      resolve shelf (fun id record => (recipe id record).run loader' >>= finish) id s := by
  cases hnew : lookup? (shelf.built s) id with
  | some x => rw [resolve_apply, resolve_apply, hnew]
  | none =>
    refine resolve_congr fun record hrecord hidle => ?_
    rw [Shelf.calls_of_entered hnew hrecord hidle] at h
    exact bind_congr_of_ok (Recipe.run_eq_of_agreeOn h) fun _ _ _ => rfl

/-- The calls that are made while a chain is folded up: the arguments of its records, the last record
first. -/
def foldCalls (tables : Tables) (resolve : Json → Load Term) :
    Term → List (Text × Json) → Session → List (Call × Session)
  | _, [], _ => []
  | node, (id, record) :: rest, s =>
    match record.field "arg" with
    | .error _ => []
    | .ok ref =>
      (.expr ref, s) :: (resolve ref).callsAfter (fun arg s' =>
        foldCalls tables resolve (.app s'.next node arg) rest (tables.keepApp id node arg s')) s

/-- The calls that are made while an application is built along its chain: the head, while all records
of the chain are being built, and then the arguments. -/
def chainCalls (tables : Tables) (resolve : Json → Load Term) (id : Text) :
    Session → List (Call × Session) :=
  (walkChain tables (tables.exprs.length + 1) [] id).callsAfter fun (chain, head) s =>
    (.expr (.text head), s.enter chain) :: (resolve (.text head)).callsAfter
      (fun node s' => foldCalls tables resolve node chain s') (s.enter chain)

/-- A chain is folded up alike if its arguments are found alike. -/
theorem foldChain_eq_of_agreeOn {node : Term} {chain : List (Text × Json)}
    (h : ∀ made ∈ foldCalls tables loader.expr node chain s, loader.AgreeOn loader' made) :
    foldChain tables loader.expr node chain s = foldChain tables loader'.expr node chain s := by
  induction chain generalizing node s with
  | nil => rfl
  | cons link rest ih =>
    obtain ⟨id, record⟩ := link
    rw [foldChain_cons_apply, foldChain_cons_apply]
    rw [foldCalls] at h
    cases hfield : record.field "arg" with
    | error e => rfl
    | ok ref =>
      rw [hfield] at h
      obtain ⟨hasked, hafter⟩ := List.forall_mem_cons.mp h
      have hsame : loader.expr ref s = loader'.expr ref s := hasked
      dsimp only
      rw [← hsame]
      cases hstep : loader.expr ref s with
      | error e s' => rfl
      | ok arg s' =>
        rw [Load.callsAfter_of_ok hstep] at hafter
        exact ih hafter

/-- An application is built alike along its chain if the head and the arguments are found alike. -/
theorem buildChain_eq_of_agreeOn {id : Text}
    (h : ∀ made ∈ chainCalls tables loader.expr id s, loader.AgreeOn loader' made) :
    buildChain tables loader.expr id s = buildChain tables loader'.expr id s := by
  refine Load.bind_congr_of_ok rfl fun (chain, head) s' hwalk => ?_
  change alongChain tables loader.expr (loader.expr (.text head)) chain s' =
    alongChain tables loader'.expr (loader'.expr (.text head)) chain s'
  rw [chainCalls, Load.callsAfter_of_ok hwalk] at h
  obtain ⟨hhead, hafter⟩ := List.forall_mem_cons.mp h
  have hfold : (loader.expr (.text head) >>= (foldChain tables loader.expr · chain)) (s'.enter chain) =
      (loader'.expr (.text head) >>= (foldChain tables loader'.expr · chain)) (s'.enter chain) := by
    refine Load.bind_congr_of_ok hhead fun node s'' hnode => foldChain_eq_of_agreeOn ?_
    rwa [Load.callsAfter_of_ok hnode] at hafter
  rw [alongChain_apply, alongChain_apply, hfold]

/-- The calls that a call makes by plain recursion, by which an application asks for its function and
its argument. A reference without a label makes none. -/
def Call.plainCalls (tables : Tables) (loader : Loader) : Call → Session → List (Call × Session)
  | .name .null => fun _ => []
  | .name ref => (Load.written ref.label).callsAfter (tables.nameShelf.calls Recipe.ofName loader)
  | .level ref => (Load.written ref.label).callsAfter (tables.levelShelf.calls Recipe.ofLevel loader)
  | .expr ref => (Load.written ref.label).callsAfter (tables.exprShelf.calls Recipe.ofExpr loader)
  | .declaration record => (Recipe.ofDeclaration (record.depth + 1) record).calls loader

/-- The calls that are made for the term of an id, an application being built along its chain. -/
def Tables.exprCalls (tables : Tables) (loader : Loader) (id : Text) (s : Session) :
    List (Call × Session) :=
  match lookup? s.exprs id, tables.app? id with
  | none, some _ => chainCalls tables loader.expr id s
  | _, _ => tables.exprShelf.calls Recipe.ofExpr loader id s

/-- The calls that a call makes on its session. -/
def Call.calls (tables : Tables) (loader : Loader) : Call → Session → List (Call × Session)
  | .expr ref => (Load.written ref.label).callsAfter (tables.exprCalls loader)
  | call => call.plainCalls tables loader

/-- The term of an id, where the calls on the way are answered by a loader. -/
def Tables.exprBy (tables : Tables) (loader : Loader) (id : Text) : Load Term := do
  let s ← get
  match lookup? s.exprs id, tables.app? id with
  | none, some _ => buildChain tables loader.expr id
  | _, _ => Load.resolve tables.exprShelf (fun id record =>
      (Recipe.ofExpr id record).run loader >>= allot) id

/-- The step that a call takes if the calls that it makes are answered by a loader. -/
def Call.step (tables : Tables) (loader : Loader) : Call → Load Answer
  | .name .null => pure (.name .anonymous)
  | .name ref => Answer.name <$> (Load.written ref.label >>=
      Load.resolve tables.nameShelf fun id record => (Recipe.ofName id record).run loader >>= pure)
  | .level ref => Answer.level <$> (Load.written ref.label >>=
      Load.resolve tables.levelShelf fun id record => (Recipe.ofLevel id record).run loader >>= pure)
  | .expr ref => Answer.expr <$> (Load.written ref.label >>= tables.exprBy loader)
  | .declaration record =>
    Answer.declaration <$> (Recipe.ofDeclaration (record.depth + 1) record).run loader

/-- A reference to a name other than null is resolved by its label. -/
theorem Call.step_name {ref : Json} (href : ref ≠ .null) :
    (name ref).step tables loader = Answer.name <$> (Load.written ref.label >>=
      Load.resolve tables.nameShelf fun id record => (Recipe.ofName id record).run loader >>= pure) := by
  rw [step]
  exact href

/-- So are the calls that it leads to. -/
theorem Call.plainCalls_name {ref : Json} (href : ref ≠ .null) :
    (name ref).plainCalls tables loader =
      (Load.written ref.label).callsAfter (tables.nameShelf.calls Recipe.ofName loader) := by
  rw [plainCalls]
  exact href

/-- A call takes its step with the calls that it makes answered by the tables. -/
theorem Call.step_loader (tables : Tables) (call : Call) :
    call.step tables tables.loader = call.perform tables := by
  have hnames : buildName (Dump.name tables) = fun id record =>
      (Recipe.ofName id record).run tables.loader >>= pure :=
    funext₂ fun id record => (buildName_eq_run tables.loader id record).trans (bind_pure _).symm
  have hlevels : buildLevel tables (Dump.level tables) = fun id record =>
      (Recipe.ofLevel id record).run tables.loader >>= pure :=
    funext₂ fun id record =>
      (buildLevel_eq_run tables (Dump.level tables) (Dump.expr tables) id record).trans (bind_pure _).symm
  cases call with
  | name ref =>
    by_cases href : ref = .null
    · subst href
      rw [perform, name_eq]
      rfl
    · rw [perform, name_eq, nameStep_of_ne tables href, step_name href, hnames]
  | level ref => rw [perform, level_eq, levelStep, step, hlevels]
  | expr ref =>
    have hstep : Dump.expr tables ref = exprStep tables (Dump.expr tables) ref := by
      funext s
      rw [expr_eq_linkedExpr]
      exact (exprStep_eq_linkedExpr (fun _ _ _ => rfl) ref).symm
    rw [perform, hstep, exprStep, buildExpr_eq]
    rfl
  | declaration record => rw [perform, declaration_eq_run]; rfl

/-- Steps that agree still do if what they find is put to one use. -/
theorem Load.map_congr_apply {m m' : Load α} (f : α → β) (h : m s = m' s) :
    (f <$> m) s = (f <$> m') s := by
  rw [map_apply, map_apply, h]

/-- What follows the label of a reference goes alike if it does for loaders that agree on its calls. -/
theorem Load.labelled_eq_of_agreeOn {ref : Json} {f f' : Text → Load α}
    {calls : Text → Session → List (Call × Session)}
    (h : ∀ made ∈ (written ref.label).callsAfter calls s, loader.AgreeOn loader' made)
    (hf : ∀ id, (∀ made ∈ calls id s, loader.AgreeOn loader' made) → f id s = f' id s) :
    (written ref.label >>= f) s = (written ref.label >>= f') s := by
  refine written_bind_congr fun id hlabel => hf id ?_
  rwa [callsAfter_written hlabel] at h

/-- The term of an id is found alike by loaders that agree on the calls made for it. -/
theorem Tables.exprBy_eq_of_agreeOn {id : Text}
    (h : ∀ made ∈ tables.exprCalls loader id s, loader.AgreeOn loader' made) :
    tables.exprBy loader id s = tables.exprBy loader' id s := by
  simp only [exprBy, Load.bind_apply, Load.get_apply]
  rw [exprCalls] at h
  cases hnew : lookup? s.exprs id with
  | some t =>
    rw [hnew] at h
    exact Load.resolve_eq_of_agreeOn h
  | none =>
    rw [hnew] at h
    cases happ : tables.app? id with
    | none =>
      rw [happ] at h
      exact Load.resolve_eq_of_agreeOn h
    | some record =>
      rw [happ] at h
      exact buildChain_eq_of_agreeOn h

/-- What a call makes of a session is settled by the calls that are listed: it is the same for any
loader that agrees on them with the tables. -/
theorem Call.step_eq_of_agreeOn {call : Call}
    (h : ∀ made ∈ call.calls tables tables.loader s, tables.loader.AgreeOn loader made) :
    call.perform tables s = call.step tables loader s := by
  rw [← Call.step_loader]
  cases call with
  | name ref =>
    by_cases href : ref = .null
    · subst href
      rfl
    · have hcalls : (name ref).calls tables tables.loader =
          (name ref).plainCalls tables tables.loader := rfl
      rw [hcalls, plainCalls_name href] at h
      rw [step_name href, step_name href]
      exact Load.map_congr_apply _ (Load.labelled_eq_of_agreeOn h fun _ => Load.resolve_eq_of_agreeOn)
  | level ref =>
    exact Load.map_congr_apply _ (Load.labelled_eq_of_agreeOn h fun _ => Load.resolve_eq_of_agreeOn)
  | expr ref =>
    exact Load.map_congr_apply _ (Load.labelled_eq_of_agreeOn h fun _ => Tables.exprBy_eq_of_agreeOn)
  | declaration record => exact Load.map_congr_apply _ (Recipe.run_eq_of_agreeOn h)

/-- The calls that are made in a run, each with its session, where one call makes the listed ones: those
that are made on a session after any others, whether these failed or not, and those that are made within
them at any depth. -/
inductive Tables.Made (tables : Tables) (calls : Call → Session → List (Call × Session)) :
    Call → Session → Prop where
  | after (before : List Call) (call : Call) : Made tables calls call (tables.sessionAfter before)
  | within {call call' : Call} {s s' : Session} (h : Made tables calls call s)
      (hmade : (call', s') ∈ calls call s) : Made tables calls call' s'

/-- The calls that are made in a run. -/
def Tables.Entered (tables : Tables) : Call → Session → Prop :=
  tables.Made fun call => call.calls tables tables.loader

/-- A call that a continued recipe makes is made by one of its two parts. -/
theorem Recipe.mem_calls_bind {r : Recipe α} {f : α → Recipe β} {made : Call × Session}
    (h : made ∈ (r >>= f).calls loader s) :
    made ∈ r.calls loader s ∨ ∃ a s', r.run loader s = .ok a s' ∧ made ∈ (f a).calls loader s' := by
  change made ∈ (r.bind f).calls loader s at h
  induction r generalizing s with
  | done a => exact .inr ⟨a, s, rfl, h⟩
  | fail e => cases h
  | askName ref next ih | askLevel ref next ih | askExpr ref next ih =>
    rcases List.mem_cons.mp h with heq | hmore
    · exact .inl (heq ▸ List.mem_cons_self)
    · obtain ⟨x, t, hstep, hx⟩ := Load.exists_of_mem_callsAfter hmore
      rcases ih x hx with hhere | ⟨a, s', hrun, hafter⟩
      · exact .inl (List.mem_cons_of_mem _ (by rwa [Load.callsAfter_of_ok hstep]))
      · refine .inr ⟨a, s', ?_, hafter⟩
        rw [run, Load.bind_apply, hstep]
        exact hrun

/-- A step that succeeds as one call more leaves the session after the calls and this one. -/
theorem Tables.sessionAfter_append {before : List Call} {call : Call} {m : Load α} {f : α → Answer}
    {a : α} {s' : Session} (hcall : call.perform tables = f <$> m)
    (hstep : m (tables.sessionAfter before) = .ok a s') :
    tables.sessionAfter (before ++ [call]) = s' := by
  have hafter : tables.sessionAfter (before ++ [call]) =
      (call.perform tables).after (tables.sessionAfter before) := by
    rw [sessionAfter, List.foldl_append]
    rfl
  rw [hafter, hcall, Load.after, Load.map_apply, hstep]

/-- Declarations are built by one call for each of them. -/
theorem Tables.entered_of_each {records : List Json} {before : List Call} {made : Call × Session}
    (h : made ∈ (Recipe.each (fun record => Recipe.ofDeclaration (record.depth + 1) record) records).calls
      tables.loader (tables.sessionAfter before)) : tables.Entered made.1 made.2 := by
  induction records generalizing before with
  | nil => cases h
  | cons record rest ih =>
    rcases Recipe.mem_calls_bind h with hhere | ⟨d, s', hrun, hrest⟩
    · exact .within (.after before (.declaration record)) hhere
    · have hcall : (Call.declaration record).perform tables = Answer.declaration <$>
          (Recipe.ofDeclaration (record.depth + 1) record).run tables.loader := by
        rw [Call.perform, declaration_eq_run]
      rcases Recipe.mem_calls_bind hrest with hmore | ⟨ds, s'', _, hnone⟩
      · rw [← Tables.sessionAfter_append hcall hrun] at hmore
        exact ih hmore
      · cases hnone

/-- The calls by which a dump is loaded are made in a run: one for the name of the module and one for
each of its declarations. -/
theorem Contents.entered_of_mem_calls {c : Contents} {made : Call × Session}
    (h : made ∈ (Recipe.ofModule c).calls c.tables.loader Session.empty) :
    c.tables.Entered made.1 made.2 := by
  rcases List.mem_cons.mp h with rfl | hmore
  · exact .after [] (.name c.module)
  · obtain ⟨n, s', hname, hrest⟩ := Load.exists_of_mem_callsAfter hmore
    rcases Recipe.mem_calls_bind hrest with hdeclarations | ⟨ds, s'', _, hnone⟩
    · have hcall : (Call.name c.module).perform c.tables = Answer.name <$> name c.tables c.module := rfl
      have hafter : c.tables.sessionAfter ([] ++ [.name c.module]) = s' :=
        Tables.sessionAfter_append hcall hname
      rw [← hafter] at hdeclarations
      exact Tables.entered_of_each hdeclarations
    · cases hnone

end TermText.Dump
