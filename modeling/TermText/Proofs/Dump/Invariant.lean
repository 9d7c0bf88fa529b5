import TermText.Proofs.Dump.Coherence

/-!
# The state at every call

What holds of a session whenever a name, a level or a term is asked for, at whatever depth of a run and
whatever the dump holds. It is shown for plain recursion first, where each call that is made comes from
the recipe of one record that was just marked. Building an application along its chain makes no other
calls than plain recursion does: the records of the chain are marked in the order in which plain
recursion would enter them, and each one is remembered and unmarked before the argument of the next one
is asked for.
-/

namespace TermText.Dump

open Relation

variable {α β : Type} {tables : Tables} {s s' : Session} {call call' : Call} {key : Key}

/-- A call stands for another one: it is the same call, or it asks for a term by the label of the
reference alone, as is done for the head of a chain. -/
inductive Call.StandsFor : Call → Call → Prop where
  | same (call : Call) : StandsFor call call
  | label {ref : Json} {id : Text} (h : ref.label = .ok id) : StandsFor (.expr (.text id)) (.expr ref)

namespace Call.StandsFor

variable {other : Call}

/-- What stands for a call that stands for another one stands for that one. -/
theorem trans {last : Call} (h : call.StandsFor other) (h' : other.StandsFor last) :
    call.StandsFor last := by
  cases h with
  | same => exact h'
  | label hlabel =>
    cases h' with
    | same => exact .label hlabel
    | label hlabel' =>
      cases hlabel
      exact .label hlabel'

/-- Calls that stand for each other refer to the same records. -/
theorem references_eq (h : call.StandsFor other) : call.references = other.references := by
  cases h with
  | same => rfl
  | label hlabel => exact (labelKeys_eq (Json.label_text _)).trans (labelKeys_eq hlabel).symm

/-- The same calls are made within it. -/
theorem calls_eq (h : call.StandsFor other) (tables : Tables) (loader : Loader) :
    call.calls tables loader = other.calls tables loader := by
  cases h with
  | same => rfl
  | label hlabel =>
    rw [calls, calls, Load.callsAfter_written hlabel, Load.callsAfter_written (Json.label_text _)]

end Call.StandsFor

/-- A recipe asks for what a call finds, if the requests before are answered somehow. -/
def Recipe.Asks (call : Call) : Recipe α → Prop
  | .done _ | .fail _ => False
  | .askName ref next => call.StandsFor (.name ref) ∨ ∃ n, (next n).Asks call
  | .askLevel ref next => call.StandsFor (.level ref) ∨ ∃ l, (next l).Asks call
  | .askExpr ref next => call.StandsFor (.expr ref) ∨ ∃ t, (next t).Asks call

/-- A record asks for what a call finds: it holds the reference of the call. -/
def Tables.Asks (tables : Tables) (call : Call) : Key → Prop
  | (.names, id) => ∃ record, Json.Fields.get? tables.names id = some record ∧
    (Recipe.ofName id record).Asks call
  | (.levels, id) => ∃ record, Json.Fields.get? tables.levels id = some record ∧
    (Recipe.ofLevel id record).Asks call
  | (.exprs, id) => ∃ record, Json.Fields.get? tables.exprs id = some record ∧
    (Recipe.ofExpr id record).Asks call

/-- A record depends on the reference of a call: references lead from it to a record that holds the
reference. This covers null, which stands for no record. -/
def Tables.DependsOn (tables : Tables) (call : Call) (key : Key) : Prop :=
  ∃ holder, tables.Reaches key holder ∧ tables.Asks call holder

/-- The calls that a recipe makes are for what it asks for. -/
theorem Recipe.asks_of_mem_calls {loader : Loader} {r : Recipe α}
    (h : (call, s') ∈ r.calls loader s) : r.Asks call := by
  induction r generalizing s with
  | done a => cases h
  | fail e => cases h
  | askName ref next ih | askLevel ref next ih | askExpr ref next ih =>
    rcases List.mem_cons.mp h with heq | hmore
    · cases heq
      exact .inl (.same _)
    · obtain ⟨a, t, -, ha⟩ := Load.exists_of_mem_callsAfter hmore
      exact .inr ⟨a, ih a ha⟩

/-- What stands for a call that is asked for is asked for. -/
theorem Recipe.Asks.of_standsFor {other : Call} {r : Recipe α} (h : r.Asks other)
    (hstands : call.StandsFor other) : r.Asks call := by
  induction r with
  | done a => exact h
  | fail e => exact h
  | askName ref next ih | askLevel ref next ih | askExpr ref next ih =>
    exact h.imp hstands.trans fun ⟨a, ha⟩ => ⟨a, ih a ha⟩

/-- What a recipe asks for is on its course. -/
theorem Recipe.SameCourse.mem_of_asks {ν : Type} {View : α → ν → Prop} {refs : List Key}
    {r : Recipe α} (hcourse : r.SameCourse View refs r) (h : r.Asks call) :
    ∀ key ∈ call.references, key ∈ refs := by
  induction r generalizing refs with
  | done a => exact h.elim
  | fail e => exact h.elim
  | askName ref next ih =>
    obtain ⟨_, rest, rfl, hnext⟩ := hcourse
    rcases h with hstands | ⟨n, hn⟩
    · rw [hstands.references_eq]
      exact fun key => List.mem_append_left _
    · exact fun key hkey => List.mem_append_right _ (ih n (hnext n) hn key hkey)
  | askLevel ref next ih =>
    obtain ⟨_, rest, rfl, hnext⟩ := hcourse
    rcases h with hstands | ⟨l, hl⟩
    · rw [hstands.references_eq]
      exact fun key => List.mem_append_left _
    · exact fun key hkey => List.mem_append_right _ (ih l (hnext l) hl key hkey)
  | askExpr ref next ih =>
    obtain ⟨_, rest, rfl, hnext⟩ := hcourse
    rcases h with hstands | ⟨t, ht⟩
    · rw [hstands.references_eq]
      exact fun key => List.mem_append_left _
    · exact fun key hkey => List.mem_append_right _ (ih t (hnext t t rfl) ht key hkey)

/-- So a record asks for it. -/
theorem Tables.Asks.of_standsFor {other : Call} (h : tables.Asks other key)
    (hstands : call.StandsFor other) : tables.Asks call key := by
  obtain ⟨table, id⟩ := key
  cases table <;> exact h.imp fun _ hasks => ⟨hasks.1, hasks.2.of_standsFor hstands⟩

/-- A record refers to the records of what it asks for. -/
theorem Tables.Asks.refers (h : tables.Asks call key) {next : Key} (hnext : next ∈ call.references) :
    tables.Refers key next := by
  obtain ⟨table, id⟩ := key
  cases table with
  | names =>
    obtain ⟨record, hrecord, hasks⟩ := h
    rw [Refers, references_of_get?.1 hrecord]
    exact (Recipe.sameCourse_ofName id record).mem_of_asks hasks next hnext
  | levels =>
    obtain ⟨record, hrecord, hasks⟩ := h
    rw [Refers, references_of_get?.2.1 hrecord]
    exact (Recipe.sameCourse_ofLevel id record).mem_of_asks hasks next hnext
  | exprs =>
    obtain ⟨record, hrecord, hasks⟩ := h
    rw [Refers, references_of_get?.2.2 hrecord]
    exact (Recipe.sameCourse_ofExpr id record).mem_of_asks hasks next hnext

/-- Only what is a record refers to others, or holds a reference. -/
theorem Tables.isSome_of_refers {next : Key} (h : tables.Refers key next) :
    (Json.Fields.get? (tables.records key.1) key.2).isSome := by
  obtain ⟨table, id⟩ := key
  cases table <;>
  · simp only [Refers, references] at h
    simp only [records]
    cases hrecord : Json.Fields.get? _ id with
    | some record => rfl
    | none => simp [hrecord] at h

/-- A record is asked for only if it is there. -/
theorem Tables.Asks.isSome (h : tables.Asks call key) :
    (Json.Fields.get? (tables.records key.1) key.2).isSome := by
  obtain ⟨table, id⟩ := key
  cases table <;>
  · obtain ⟨record, hrecord, -⟩ := h
    simp only [records, hrecord, Option.isSome_some]

namespace Tables.DependsOn

/-- What depends on a reference is a record. -/
theorem isSome (h : tables.DependsOn call key) :
    (Json.Fields.get? (tables.records key.1) key.2).isSome := by
  obtain ⟨holder, hreach, hasks⟩ := h
  rcases ReflTransGen.cases_head hreach with rfl | ⟨next, hnext, -⟩
  · exact hasks.isSome
  · exact Tables.isSome_of_refers hnext

/-- References lead from a record to the record of what it depends on. -/
theorem transGen (h : tables.DependsOn call key) {next : Key} (hnext : next ∈ call.references) :
    TransGen tables.Refers key next := by
  obtain ⟨holder, hreach, hasks⟩ := h
  exact TransGen.tail' hreach (hasks.refers hnext)

/-- What depends on a reference depends on its label. -/
theorem of_standsFor (h : tables.DependsOn call' key) (hstands : call.StandsFor call') :
    tables.DependsOn call key :=
  h.imp fun _ hholder => ⟨hholder.1, hholder.2.of_standsFor hstands⟩

/-- What depends on a reference depends on what the record of the reference asks for. -/
theorem of_asks (h : tables.DependsOn call key) {next : Key} (hnext : next ∈ call.references)
    (hasks : tables.Asks call' next) : tables.DependsOn call' key := by
  obtain ⟨holder, hreach, hholder⟩ := h
  exact ⟨next, hreach.tail (hholder.refers hnext), hasks⟩

end Tables.DependsOn

/-- No record asks for a declaration. -/
theorem Recipe.not_asks_declaration {record : Json} (r : Recipe α) : ¬ r.Asks (.declaration record) := by
  induction r with
  | done a => exact id
  | fail e => exact id
  | askName ref next ih | askLevel ref next ih | askExpr ref next ih =>
    rintro (h | ⟨a, ha⟩)
    · cases h
    · exact ih a ha

/-- No record leads to a declaration. -/
theorem Tables.not_dependsOn_declaration {record : Json} :
    ¬ tables.DependsOn (.declaration record) key := by
  rintro ⟨⟨table, id⟩, -, h⟩
  cases table <;>
  · obtain ⟨record, -, hasks⟩ := h
    exact Recipe.not_asks_declaration _ hasks

/-- A call within another one comes from a record that is asked for and was marked last. -/
theorem Shelf.Files.of_mem_calls {shelf : Shelf α} {answer : α → Answer}
    {recipe : Text → Json → Recipe β} {id : Text} (hfiles : shelf.Files answer)
    (hs : s.Coherent tables) (h : (call', s') ∈ shelf.calls recipe tables.loader id s) :
    s'.Coherent tables ∧ s'.active = (shelf.table, id) :: s.active ∧
      ∃ record, Json.Fields.get? shelf.records id = some record ∧ (recipe id record).Asks call' := by
  obtain ⟨record, hnew, hrecord, -, hmade⟩ := Shelf.exists_of_mem_calls h
  have hunknown : s.remembered? (shelf.table, id) = none := by rw [hfiles.remembered_eq, hnew]; rfl
  obtain ⟨hs', hactive⟩ := Recipe.coherent_of_mem_calls (tables.upholds_loader _) (hs.start hunknown) rfl
    hmade
  exact ⟨hs', hactive, record, hrecord, Recipe.asks_of_mem_calls hmade⟩

/-- A call that a reference makes by plain recursion comes from the record of the reference, which was
marked last. -/
theorem Call.exists_of_mem_plainCalls (hs : s.Coherent tables)
    (h : (call', s') ∈ call.plainCalls tables tables.loader s) :
    s'.Coherent tables ∧ ((∃ record, call = .declaration record ∧ s'.active = s.active) ∨
      ∃ key ∈ call.references, s'.active = key :: s.active ∧ tables.Asks call' key) := by
  cases call with
  | name ref =>
    by_cases hnull : ref = .null
    · subst hnull
      cases h
    · rw [plainCalls_name hnull] at h
      obtain ⟨id, hlabel, hmade⟩ := Load.exists_of_mem_calls_written h
      obtain ⟨hs', hactive, hasks⟩ := tables.files_nameShelf.of_mem_calls hs hmade
      have hkey : (.names, id) ∈ (name ref).references := by
        simp [references, nameKeys_of_ne hnull, labelKeys_eq hlabel]
      exact ⟨hs', .inr ⟨_, hkey, hactive, hasks⟩⟩
  | level ref =>
    obtain ⟨id, hlabel, hmade⟩ := Load.exists_of_mem_calls_written h
    obtain ⟨hs', hactive, hasks⟩ := tables.files_levelShelf.of_mem_calls hs hmade
    exact ⟨hs', .inr ⟨_, mem_labelKeys.mpr ⟨rfl, hlabel⟩, hactive, hasks⟩⟩
  | expr ref =>
    obtain ⟨id, hlabel, hmade⟩ := Load.exists_of_mem_calls_written h
    obtain ⟨hs', hactive, hasks⟩ := tables.files_exprShelf.of_mem_calls hs hmade
    exact ⟨hs', .inr ⟨_, mem_labelKeys.mpr ⟨rfl, hlabel⟩, hactive, hasks⟩⟩
  | declaration record =>
    obtain ⟨hs', hactive⟩ := Recipe.coherent_of_mem_calls (tables.upholds_loader _) hs rfl h
    exact ⟨hs', .inl ⟨record, rfl, hactive⟩⟩

/-- The recipe of an application asks for its function and then for its argument. -/
theorem Recipe.ofExpr_of_app {id : Text} {record fn : Json} (happ : tables.app? id = some record)
    (hfn : record.field "fn" = .ok fn) :
    ofExpr id record = .askExpr fn fun f => child "arg" record >>= fun a => .done (.app · f a) := by
  obtain ⟨_, kind, hkind, happ⟩ := exists_kind_of_app? happ
  have hkindField : field "kind" record = .done kind := by rw [field, hkind]; rfl
  have hfnField : child "fn" record = .askExpr fn .done := by rw [child, field, hfn]; rfl
  rw [ofExpr, hkindField, done_bind]
  simp only [happ, hfnField]
  rfl

/-- The calls that would be made in a run by plain recursion. -/
def Tables.EnteredPlainly (tables : Tables) : Call → Session → Prop :=
  tables.Made fun call => call.plainCalls tables tables.loader

namespace Tables.EnteredPlainly

/-- Every call by plain recursion is made on a coherent session, and all records being built depend on
its reference. -/
theorem coherent (h : tables.EnteredPlainly call s) :
    s.Coherent tables ∧ ∀ key ∈ s.active, tables.DependsOn call key := by
  induction h with
  | after before call =>
    obtain ⟨hs, hactive⟩ := tables.coherent_sessionAfter before
    exact ⟨hs, by simp [hactive]⟩
  | within _ hmade ih =>
    obtain ⟨hs, hdepends⟩ := ih
    obtain ⟨hs', ⟨record, rfl, hactive⟩ | ⟨key, hkey, hactive, hasks⟩⟩ :=
      Call.exists_of_mem_plainCalls hs hmade
    · refine ⟨hs', fun a ha => ?_⟩
      exact absurd (hdepends a (hactive ▸ ha)) Tables.not_dependsOn_declaration
    · refine ⟨hs', hactive ▸ List.forall_mem_cons.mpr ⟨⟨key, .refl, hasks⟩, fun a ha => ?_⟩⟩
      exact (hdepends a ha).of_asks hkey hasks

/-- An application that is entered asks for its function, and for its argument when the function was
found. -/
theorem app {ref fnRef record : Json} {id : Text} (h : tables.EnteredPlainly (.expr ref) s)
    (hlabel : ref.label = .ok id) (happ : tables.app? id = some record)
    (hnew : lookup? s.exprs id = none) (hidle : s.isActive .exprs id = false)
    (hfn : record.field "fn" = .ok fnRef) :
    tables.EnteredPlainly (.expr fnRef) (s.start .exprs id) ∧
      ∀ node s' argRef, expr tables fnRef (s.start .exprs id) = .ok node s' →
        record.field "arg" = .ok argRef → tables.EnteredPlainly (.expr argRef) s' := by
  have hcalls : (Call.expr ref).plainCalls tables tables.loader s =
      (Recipe.ofExpr id record).calls tables.loader (s.start .exprs id) :=
    (congrFun (Load.callsAfter_written hlabel _) s).trans
      (Shelf.calls_of_entered hnew (exists_kind_of_app? happ).1 hidle)
  rw [Recipe.ofExpr_of_app happ hfn] at hcalls
  refine ⟨.within h (hcalls ▸ List.mem_cons_self), fun node s' argRef hnode harg => .within h ?_⟩
  have hargField : Recipe.child "arg" record = .askExpr argRef .done := by
    rw [Recipe.child, Recipe.field, harg]
    rfl
  have hanswer : tables.loader.expr fnRef (s.start .exprs id) = .ok node s' := hnode
  rw [hcalls, Recipe.calls]
  refine List.mem_cons_of_mem _ ?_
  rw [Load.callsAfter_of_ok hanswer, hargField]
  exact List.mem_cons_self

end Tables.EnteredPlainly

/-- A chain of applications down to an id, as plain recursion comes down it: each record is an application
that is entered while the ones before it are being built, and it refers to the next one as its
function. -/
def Tables.Descends (tables : Tables) (s : Session) : List (Text × Json) → Text → Prop
  | [], id => ∃ ref : Json, ref.label = .ok id ∧ tables.EnteredPlainly (.expr ref) s
  | (link, record) :: rest, id => ∃ fn : Json, fn.label = .ok id ∧ tables.app? link = some record ∧
    lookup? s.exprs link = none ∧ (s.enter rest).isActive .exprs link = false ∧
      record.field "fn" = .ok fn ∧ tables.Descends s rest link

namespace Tables.Descends

variable {chain : List (Text × Json)} {id : Text}

/-- Plain recursion asks for a reference to the end of a chain while all of the chain is being built. -/
theorem entered (h : tables.Descends s chain id) :
    ∃ ref : Json, ref.label = .ok id ∧ tables.EnteredPlainly (.expr ref) (s.enter chain) := by
  induction chain generalizing id with
  | nil => exact h
  | cons link rest ih =>
    obtain ⟨link, record⟩ := link
    obtain ⟨fn, hlabel, happ, hnew, hidle, hfn, hrest⟩ := h
    obtain ⟨ref, href, hentered⟩ := ih hrest
    exact ⟨fn, hlabel, (hentered.app href happ (by rwa [Session.enter_exprs]) hidle hfn).1⟩

/-- The walk down to the head stays on such chains and leaves the session as it is. -/
theorem of_walkChain {bound : Nat} {chain' : List (Text × Json)} {head : Text}
    (h : tables.Descends s chain id) (hwalk : walkChain tables bound chain id s = .ok (chain', head) s') :
    s' = s ∧ tables.Descends s chain' head := by
  induction bound generalizing chain id with
  | zero => cases hwalk
  | succ bound ih =>
    rw [walkChain, Load.bind_apply, Load.get_apply] at hwalk
    cases hnew : lookup? s.exprs id with
    | some t =>
      simp only [hnew] at hwalk
      cases hwalk
      exact ⟨rfl, h⟩
    | none =>
      cases happ : tables.app? id with
      | none =>
        simp only [hnew, happ] at hwalk
        cases hwalk
        exact ⟨rfl, h⟩
      | some record =>
        simp only [hnew, happ, ← Session.isActive_enter] at hwalk
        cases hidle : (s.enter chain).isActive .exprs id with
        | true =>
          rw [hidle, if_pos rfl] at hwalk
          cases hwalk
        | false =>
          rw [hidle, if_neg Bool.false_ne_true] at hwalk
          obtain ⟨fn, t, hlink, hmore⟩ := Load.bind_ok hwalk
          rw [linkField_apply] at hlink
          cases hfn : record.field "fn" with
          | error e => simp [hfn] at hlink
          | ok fnRef =>
            simp only [hfn, EStateM.Result.ok.injEq] at hlink
            obtain ⟨rfl, rfl⟩ := hlink
            obtain ⟨next, t, hnext, hmore⟩ := Load.bind_ok hmore
            obtain ⟨hlabel, rfl⟩ := Load.written_ok hnext
            have hnext : tables.Descends s ((id, record) :: chain) next :=
              ⟨fnRef, hlabel, happ, hnew, hidle, hfn, h⟩
            exact ih hnext hmore

/-- The arguments of a chain that is folded up are asked for by plain recursion as well: what a record
of the chain finds is what is found for it as the function of the next one. -/
theorem of_mem_foldCalls {node : Term} {made : Call × Session} (h : tables.Descends s chain id)
    (hnode : expr tables (.text id) (s.enter chain) = .ok node s')
    (hmade : made ∈ foldCalls tables (expr tables) node chain s') :
    tables.EnteredPlainly made.1 made.2 := by
  induction chain generalizing id node s' with
  | nil => cases hmade
  | cons link rest ih =>
    obtain ⟨link, record⟩ := link
    obtain ⟨fn, hlabel, happ, hnew, hidle, hfn, hrest⟩ := h
    have hmiss : lookup? (s.enter rest).exprs link = none := by rwa [Session.enter_exprs]
    obtain ⟨ref, href, hentered⟩ := hrest.entered
    have hfound : expr tables fn ((s.enter rest).start .exprs link) = .ok node s' :=
      (congrFun (expr_eq_of_label tables hlabel) _).trans hnode
    have hargument := (hentered.app href happ hmiss hidle hfn).2 node s'
    rw [foldCalls] at hmade
    cases harg : record.field "arg" with
    | error e => simp [harg] at hmade
    | ok argRef =>
      rw [harg] at hmade
      rcases List.mem_cons.mp hmade with rfl | hmore
      · exact hargument argRef hfound harg
      · obtain ⟨arg, s'', hstep, hrestMade⟩ := Load.exists_of_mem_callsAfter hmore
        have happly : expr tables (.text link) (s.enter rest) =
            .ok (.app s''.next node arg) (tables.keepApp link node arg s'') := by
          rw [expr_eq_linkedExpr] at hfound hstep ⊢
          rw [linkedExpr_text]
          simp only [linkedAt_app_apply happ hmiss hidle, hfn, hfound, harg, hstep]
        exact ih hrest happly hrestMade

end Tables.Descends

/-- The calls of an application that is built along its chain are made by plain recursion as well, where
the head is asked for by the function of the last application. -/
theorem Tables.EnteredPlainly.of_mem_chainCalls {ref : Json} {id : Text} {made : Call × Session}
    (h : tables.EnteredPlainly (.expr ref) s) (hlabel : ref.label = .ok id)
    (hmade : made ∈ chainCalls tables (expr tables) id s) :
    ∃ other, tables.EnteredPlainly other made.2 ∧ made.1.StandsFor other := by
  obtain ⟨⟨chain, head⟩, s', hwalk, hafter⟩ := Load.exists_of_mem_callsAfter hmade
  have hstart : tables.Descends s [] id := ⟨ref, hlabel, h⟩
  obtain ⟨rfl, hchain⟩ := hstart.of_walkChain hwalk
  rcases List.mem_cons.mp hafter with rfl | hmore
  · obtain ⟨last, hlast, hentered⟩ := hchain.entered
    exact ⟨.expr last, hentered, .label hlast⟩
  · obtain ⟨node, s'', hnode, hfold⟩ := Load.exists_of_mem_callsAfter hmore
    exact ⟨made.1, hchain.of_mem_foldCalls hnode hfold, .same _⟩

/-- A call that is made within one that plain recursion makes is made by plain recursion as well. -/
theorem Tables.EnteredPlainly.of_mem_calls (h : tables.EnteredPlainly call s)
    (hmade : (call', s') ∈ call.calls tables tables.loader s) :
    ∃ other, tables.EnteredPlainly other s' ∧ call'.StandsFor other := by
  cases call with
  | expr ref =>
    obtain ⟨id, hlabel, hcalls⟩ := Load.exists_of_mem_calls_written hmade
    unfold exprCalls at hcalls
    split at hcalls
    · exact h.of_mem_chainCalls hlabel hcalls
    · refine ⟨call', .within h ?_, .same _⟩
      rwa [Call.plainCalls, Load.callsAfter_written hlabel]
  | _ => exact ⟨call', .within h hmade, .same _⟩

/-- All calls that are made in a run stand for calls of plain recursion on the same session. -/
theorem Tables.Entered.plainly (h : tables.Entered call s) :
    ∃ other, tables.EnteredPlainly other s ∧ call.StandsFor other := by
  induction h with
  | after before call => exact ⟨call, .after before call, .same call⟩
  | within _ hmade ih =>
    obtain ⟨other, hother, hstands⟩ := ih
    rw [hstands.calls_eq] at hmade
    exact hother.of_mem_calls hmade

/-- Building a record again finds what is remembered of it, and changes nothing. A term is found anew if
its own identity is the next one. -/
def Tables.Rebuilds (tables : Tables) (s : Session) : Key → Answer → Prop
  | (.names, id), .name n => ∃ record, Json.Fields.get? tables.names id = some record ∧
    buildName (name tables) id record s = .ok n s
  | (.levels, id), .level l => ∃ record, Json.Fields.get? tables.levels id = some record ∧
    buildLevel tables (level tables) id record s = .ok l s
  | (.exprs, id), .expr t => ∃ record, Json.Fields.get? tables.exprs id = some record ∧
    buildExpr tables (expr tables) id record { s with next := t.id } = .ok t { s with next := t.id + 1 }
  | _, _ => False

/-- What was built is found without a change of the session. -/
theorem Load.resolve_of_built {shelf : Shelf α} {build : Text → Json → Load α} {id : Text} {x : α}
    (h : lookup? (shelf.built s) id = some x) : resolve shelf build id s = .ok x s := by
  rw [resolve_apply, h]

/-- A reference is answered by what is remembered of its record. -/
theorem Session.answers (s : Session) (tables : Tables) (ref : Json) :
    (∀ n, s.meaning.name ref n → tables.loader.name ref s = .ok n s) ∧
      (∀ l, s.meaning.level ref l → tables.loader.level ref s = .ok l s) ∧
        ∀ t, s.meaning.expr ref t → tables.loader.expr ref s = .ok t s := by
  refine ⟨fun n hn => ?_, fun l hl => ?_, fun t ht => ?_⟩
  · change name tables ref s = .ok n s
    rcases hn with ⟨rfl, rfl⟩ | ⟨hnull, id, hlabel, hn⟩
    · rw [name_eq]
      rfl
    · rw [name_eq_resolve tables hnull hlabel]
      exact Load.resolve_of_built (by simpa [Tables.nameShelf, remembered?] using hn)
  · change level tables ref s = .ok l s
    obtain ⟨id, hlabel, hl⟩ := hl
    rw [level_eq_resolve tables hlabel]
    exact Load.resolve_of_built (by simpa [Tables.levelShelf, remembered?] using hl)
  · change expr tables ref s = .ok t s
    obtain ⟨id, hlabel, ht⟩ := ht
    rw [expr_eq_resolve tables hlabel]
    have hbuilt : lookup? s.exprs id = some t := by simpa [remembered?] using ht
    exact Load.resolve_of_built hbuilt

/-- A recipe that is run where all that it asks for is remembered ends in what it yields. -/
theorem Recipe.run_of_yields {r : Recipe α} {a : α} (h : r.Yields s.meaning (· = a)) :
    r.run tables.loader s = .ok a s := by
  induction r with
  | done b => exact congrArg (EStateM.Result.ok · s) h
  | fail e => exact h.elim
  | askName ref next ih =>
    obtain ⟨n, hn, hnext⟩ := h
    rw [run, Load.bind_apply, (s.answers tables ref).1 n hn]
    exact ih n hnext
  | askLevel ref next ih =>
    obtain ⟨l, hl, hnext⟩ := h
    rw [run, Load.bind_apply, (s.answers tables ref).2.1 l hl]
    exact ih l hnext
  | askExpr ref next ih =>
    obtain ⟨t, ht, hnext⟩ := h
    rw [run, Load.bind_apply, (s.answers tables ref).2.2 t ht]
    exact ih t hnext

/-- What the recipe of a record makes of what is remembered is what building the record gives. -/
theorem Tables.Builds.rebuilds {x : Answer} (h : tables.Builds s.meaning key x) :
    tables.Rebuilds s key x := by
  obtain ⟨table, id⟩ := key
  cases table <;> cases x <;> first | exact h.elim | skip
  · obtain ⟨record, hrecord, hyields⟩ := h
    have hbuild := buildName_eq_run tables.loader id record
    exact ⟨record, hrecord, (congrFun hbuild s).trans (Recipe.run_of_yields hyields)⟩
  · obtain ⟨record, hrecord, hyields⟩ := h
    have hbuild := buildLevel_eq_run tables (level tables) (expr tables) id record
    exact ⟨record, hrecord, (congrFun hbuild s).trans (Recipe.run_of_yields hyields)⟩
  · next t =>
    obtain ⟨record, hrecord, hyields⟩ := h
    obtain ⟨make, hmake, ht⟩ := Recipe.yields_iff_exists.mp hyields
    let renumbered : Session := { s with next := t.id }
    have hrun : (Recipe.ofExpr id record).run tables.loader renumbered = .ok make renumbered :=
      Recipe.run_of_yields (s := renumbered) hmake
    refine ⟨record, hrecord, ?_⟩
    rw [buildExpr_eq_run]
    change ((Recipe.ofExpr id record).run tables.loader >>= allot) renumbered = _
    rw [Load.bind_apply, hrun]
    exact congrArg (EStateM.Result.ok · { s with next := t.id + 1 }) ht

/-- What a session remembers an object of is remembered. -/
theorem Session.Knows.isSome {table : Table} {ref : Json} {x : Answer} (h : s.Knows table ref x) :
    ∀ key ∈ labelKeys table ref, (s.remembered? key).isSome := by
  obtain ⟨id, hlabel, hx⟩ := h
  simp [labelKeys_eq hlabel, hx]

/-- All that a record refers to is remembered if its object was made of what is remembered. -/
theorem Tables.Builds.isSome_remembered {x : Answer} (h : tables.Builds s.meaning key x) {next : Key}
    (hnext : tables.Refers key next) : (s.remembered? next).isSome := by
  have hname (ref : Json) (n : Name) (hn : s.meaning.name ref n) :
      ∀ key ∈ nameKeys ref, (s.remembered? key).isSome := by
    rcases hn with ⟨rfl, -⟩ | ⟨hnull, hn⟩
    · exact nofun
    · rw [nameKeys_of_ne hnull]
      exact hn.isSome
  have hlevel (ref : Json) (l : Level) (hl : s.meaning.level ref l) :
      ∀ key ∈ levelKeys ref, (s.remembered? key).isSome := Session.Knows.isSome hl
  have hexpr (ref : Json) (t : Term) (ht : s.meaning.expr ref t) :
      ∀ key ∈ exprKeys ref, (s.remembered? key).isSome := Session.Knows.isSome ht
  obtain ⟨table, id⟩ := key
  cases table <;> cases x <;> first | exact h.elim | skip
  · obtain ⟨record, hrecord, hyields⟩ := h
    rw [Refers, references_of_get?.1 hrecord] at hnext
    exact Recipe.forall_mem_of_yields (Recipe.sameCourse_ofName id record) hyields hname hlevel hexpr
      next hnext
  · obtain ⟨record, hrecord, hyields⟩ := h
    rw [Refers, references_of_get?.2.1 hrecord] at hnext
    exact Recipe.forall_mem_of_yields (Recipe.sameCourse_ofLevel id record) hyields hname hlevel hexpr
      next hnext
  · obtain ⟨record, hrecord, hyields⟩ := h
    rw [Refers, references_of_get?.2.2 hrecord] at hnext
    exact Recipe.forall_mem_of_yields (Recipe.sameCourse_ofExpr id record) hyields hname hlevel hexpr
      next hnext

/-- What holds of a session when a call is made on it. -/
structure Call.Steady (call : Call) (tables : Tables) (s : Session) : Prop where
  /-- No record is both remembered and being built. -/
  apart : ∀ key ∈ s.active, s.remembered? key = none
  /-- Each record being built leads to the reference of the call, and to its record. -/
  leads : ∀ key ∈ s.active, (Json.Fields.get? (tables.records key.1) key.2).isSome ∧
    tables.DependsOn call key ∧ ∀ next ∈ call.references, TransGen tables.Refers key next
  /-- What is remembered of a record is what building it again gives, and all records that it refers to
  are remembered. -/
  rebuilt : ∀ key x, s.remembered? key = some x →
    tables.Rebuilds s key x ∧ ∀ next, tables.Refers key next → (s.remembered? next).isSome
  /-- However the call ends, the same records are being built then, and nothing is forgotten. -/
  restores : ((call.perform tables).after s).active = s.active ∧
    s.RetainedIn ((call.perform tables).after s)

/-- A call in a run is made on a steady session. -/
theorem Tables.Entered.steady (h : tables.Entered call s) : call.Steady tables s := by
  obtain ⟨other, hother, hstands⟩ := h.plainly
  obtain ⟨hs, hdepends⟩ := hother.coherent
  have hcall := call.upholds hs
  refine ⟨hs.idle, fun key hkey => ?_, fun key x hx => ?_, hcall.active_eq, hcall.retained⟩
  · have hkeyDepends := (hdepends key hkey).of_standsFor hstands
    exact ⟨hkeyDepends.isSome, hkeyDepends, fun _ => hkeyDepends.transGen⟩
  · have hbuilds := hs.built key x hx
    exact ⟨hbuilds.rebuilds, fun _ => hbuilds.isSome_remembered⟩

/-- Whenever a name, a level, a term or a declaration is asked for in a run, within other calls or not,
the session is steady. The calls of a run are all that matter: what a call makes of the session is settled
by how the calls listed for it are answered, and the calls by which a dump is loaded are made in a run. -/
theorem entered_calls_are_steady (h : tables.Entered call s) :
    call.Steady tables s ∧
      (∀ loader, (∀ made ∈ call.calls tables tables.loader s, tables.loader.AgreeOn loader made) →
        call.perform tables s = call.step tables loader s) ∧
      ∀ c : Contents, c.tables = tables → ∀ made ∈ (Recipe.ofModule c).calls tables.loader .empty,
        tables.Entered made.1 made.2 := by
  refine ⟨h.steady, fun loader => Call.step_eq_of_agreeOn, ?_⟩
  rintro c rfl made hmade
  exact c.entered_of_mem_calls hmade

/-- A level below the argument of a chain: two records of the chain and the record of the argument are
being built, and the head of the chain is remembered. -/
theorem entered_calls_are_steady_below_chain :
    let tables : Tables := ⟨[], [("l", .object [("kind", .text "zero")])],
      [("x", .object [("kind", .text "bvar"), ("index", .int 0)]),
        ("s", .object [("kind", .text "sort"), ("level", .text "l")]),
        ("f", .object [("kind", .text "app"), ("fn", .text "x"), ("arg", .text "s")]),
        ("g", .object [("kind", .text "app"), ("fn", .text "f"), ("arg", .text "x")])]⟩
    let s : Session := ⟨[], [], [("x", .boundVar 0 0)],
      [(.exprs, "s"), (.exprs, "f"), (.exprs, "g")], 1⟩
    tables.Entered (.level (.text "l")) s ∧ (Call.level (.text "l")).Steady tables s := by
  intro tables s
  let outer : Session := ⟨[], [], [("x", .boundVar 0 0)], [(.exprs, "f"), (.exprs, "g")], 1⟩
  have houter : (Call.expr (.text "s"), outer) ∈
      (Call.expr (.text "g")).calls tables tables.loader Session.empty :=
    .tail _ (.head _)
  have hinner : (Call.level (.text "l"), s) ∈
      (Call.expr (.text "s")).calls tables tables.loader outer := .head _
  have hentered : tables.Entered (.level (.text "l")) s :=
    .within (.within (.after [] (.expr (.text "g"))) houter) hinner
  exact ⟨hentered, (entered_calls_are_steady hentered).1⟩

end TermText.Dump
