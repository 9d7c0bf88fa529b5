import TermText.Proofs.Dump.Recipe

/-!
# Recursion through the tables

Names, levels and terms satisfy the equations of unbounded recursion: the bound on the nesting is
never met. A record that is being built is not entered again, so each nested reference leaves fewer
records to be entered, and two bounds that exceed their number give the same outcome. This holds in
every session, whatever it remembers and whichever records are being built.

Terms are taken by plain recursion here, each application record by its two fields. What becomes of an
error that is met in a record is left open: a way to blame errors is a parameter of the recursion.
-/

namespace TermText.Dump

variable {α β : Type}

/-- A session that a step may leave of another one: the same records are being built, and what was
built before is still remembered. -/
structure Session.Grows (s s' : Session) : Prop where
  active_eq : s'.active = s.active
  names_suffix : s.names <:+ s'.names
  levels_suffix : s.levels <:+ s'.levels
  exprs_suffix : s.exprs <:+ s'.exprs
  next_le : s.next ≤ s'.next

namespace Session.Grows

/-- A session grows into itself. -/
theorem refl (s : Session) : s.Grows s :=
  ⟨rfl, List.suffix_rfl, List.suffix_rfl, List.suffix_rfl, Nat.le_refl _⟩

/-- What grows from a grown session grows from the first one. -/
theorem trans {s s' s'' : Session} (h : s.Grows s') (h' : s'.Grows s'') : s.Grows s'' :=
  ⟨h'.active_eq.trans h.active_eq, h.names_suffix.trans h'.names_suffix,
    h.levels_suffix.trans h'.levels_suffix, h.exprs_suffix.trans h'.exprs_suffix,
    Nat.le_trans h.next_le h'.next_le⟩

/-- Marking a record that is not being built, and unmarking it, only grows a session. -/
theorem stop {s s' : Session} {table : Table} {id : Text} (hidle : s.isActive table id = false)
    (h : (s.start table id).Grows s') : s.Grows (s'.stop table id) := by
  refine ⟨?_, h.names_suffix, h.levels_suffix, h.exprs_suffix, h.next_le⟩
  rw [stop_active_congr h.active_eq, stop_start hidle]

end Session.Grows

namespace Load

/-- The session that a step leaves, however it ends. -/
def after (m : Load α) (s : Session) : Session :=
  match m s with
  | .ok _ s' => s'
  | .error _ s' => s'

/-- After a step that succeeds the session is the one that it leaves. -/
theorem after_of_ok {m : Load α} {s s' : Session} {a : α} (h : m s = .ok a s') : m.after s = s' := by
  rw [after, h]

/-- After one that fails, too. -/
theorem after_of_error {m : Load α} {s s' : Session} {e : Error} (h : m s = .error e s') :
    m.after s = s' := by
  rw [after, h]

/-- A step that only grows every session. -/
def Keeps (m : Load α) : Prop :=
  ∀ s : Session, s.Grows (m.after s)

/-- What a step that only grows the session leaves on success has the same records being built. -/
theorem Keeps.active_eq {m : Load α} (h : m.Keeps) {s s' : Session} {a : α}
    (hs : m s = .ok a s') : s'.active = s.active :=
  after_of_ok hs ▸ (h s).active_eq

/-- A step that keeps what is being built keeps it when it fails. -/
theorem Keeps.active_eq_of_error {m : Load α} (h : m.Keeps) {s s' : Session} {e : Error}
    (hs : m s = .error e s') : s'.active = s.active :=
  after_of_error hs ▸ (h s).active_eq

/-- Giving an answer keeps what is being built. -/
theorem keeps_pure (a : α) : (pure a : Load α).Keeps := fun s => .refl s

/-- So does failing. -/
theorem keeps_throw (e : Error) : (throw e : Load α).Keeps := fun s => .refl s

/-- Two steps keep what is being built if each does. -/
theorem Keeps.bind {m : Load α} {f : α → Load β} (hm : m.Keeps) (hf : ∀ a, (f a).Keeps) :
    (m >>= f).Keeps := by
  intro s
  have hs := hm s
  rw [after, bind_apply]
  cases h : m s with
  | error e s' => exact after_of_error h ▸ hs
  | ok a s' => exact (after_of_ok h ▸ hs).trans (hf a s')

/-- Writing a label keeps what is being built. -/
theorem keeps_written (x : Except Numeral.Error Text) : (written x).Keeps := by
  cases x with
  | ok t => exact keeps_pure t
  | error e => exact keeps_throw _

/-- So does giving out a new number. -/
theorem keeps_fresh : fresh.Keeps := fun _ =>
  ⟨rfl, List.suffix_rfl, List.suffix_rfl, List.suffix_rfl, Nat.le_succ _⟩

/-- Resolving a reference only grows a session if building a record does. -/
theorem keeps_resolve {shelf : Shelf α} {build : Text → Json → Load α}
    (hremember : ∀ id x (s : Session), s.Grows (shelf.remember id x s))
    (hbuild : ∀ id record, (build id record).Keeps) (id : Text) :
    (resolve shelf build id).Keeps := by
  intro s
  unfold after
  rw [resolve_apply]
  cases lookup? (shelf.built s) id with
  | some x => exact .refl s
  | none =>
    cases Json.Fields.get? shelf.records id with
    | none => exact .refl s
    | some record =>
      cases hidle : s.isActive shelf.table id with
      | true => exact .refl s
      | false =>
        have hs := hbuild id record (s.start shelf.table id)
        dsimp only
        cases hstep : build id record (s.start shelf.table id) with
        | error e s' => exact (after_of_error hstep ▸ hs).stop hidle
        | ok x s' => exact ((after_of_ok hstep ▸ hs).stop hidle).trans (hremember id x _)

end Load

/-- What a shelf remembers is added to what was built. -/
theorem Tables.grows_remember (tables : Tables) :
    (∀ id x (s : Session), s.Grows (tables.nameShelf.remember id x s)) ∧
      (∀ id x (s : Session), s.Grows (tables.levelShelf.remember id x s)) ∧
      ∀ id x (s : Session), s.Grows (tables.exprShelf.remember id x s) :=
  ⟨fun _ _ _ => ⟨rfl, List.suffix_cons _ _, List.suffix_rfl, List.suffix_rfl, Nat.le_refl _⟩,
    fun _ _ _ => ⟨rfl, List.suffix_rfl, List.suffix_cons _ _, List.suffix_rfl, Nat.le_refl _⟩,
    fun _ _ _ => ⟨rfl, List.suffix_rfl, List.suffix_rfl, List.suffix_cons _ _, Nat.le_refl _⟩⟩

/-- A loader all of whose steps only grow a session. -/
structure Loader.Keeps (loader : Loader) : Prop where
  name : ∀ ref, (loader.name ref).Keeps
  level : ∀ ref, (loader.level ref).Keeps
  expr : ∀ ref, (loader.expr ref).Keeps

/-- Running a recipe only grows a session if the answers to its requests do. -/
theorem Recipe.keeps_run {loader : Loader} (h : loader.Keeps) (r : Recipe α) :
    (r.run loader).Keeps := by
  induction r with
  | done a => exact Load.keeps_pure a
  | fail e => exact Load.keeps_throw e
  | askName ref next ih => exact (h.name ref).bind ih
  | askLevel ref next ih => exact (h.level ref).bind ih
  | askExpr ref next ih => exact (h.expr ref).bind ih

/-- Two loaders that agree on all references in the sessions of a kind. -/
structure Loader.Agree (P : Session → Prop) (loader loader' : Loader) : Prop where
  name : ∀ ref s, P s → loader.name ref s = loader'.name ref s
  level : ∀ ref s, P s → loader.level ref s = loader'.level ref s
  expr : ∀ ref s, P s → loader.expr ref s = loader'.expr ref s

/-- Steps that agree, the first of which only grows the session, continue to agree. -/
theorem Load.bind_congr_apply {m m' : Load α} {f f' : α → Load β} {s : Session} (hm : m.Keeps)
    (hs : m s = m' s) (hf : ∀ a s', s'.active = s.active → f a s' = f' a s') :
    (m >>= f) s = (m' >>= f') s := by
  rw [bind_apply, bind_apply, ← hs]
  cases h : m s with
  | error e s' => rfl
  | ok a s' => exact hf a s' (hm.active_eq h)

/-- A text that is written is used alike by steps that agree on it. -/
theorem Load.written_bind_congr {x : Except Numeral.Error Text} {f f' : Text → Load α} {s : Session}
    (h : ∀ id, x = .ok id → f id s = f' id s) : (written x >>= f) s = (written x >>= f') s := by
  cases x with
  | ok id => exact h id rfl
  | error e => rfl

/-- A recipe has one outcome for loaders that agree while the same records are being built. -/
theorem Recipe.run_congr {loader loader' : Loader} {active : List (Table × Text)}
    (hkeeps : loader.Keeps) (h : loader.Agree (fun s => s.active = active) loader')
    (r : Recipe α) {s : Session} (hs : s.active = active) : r.run loader s = r.run loader' s := by
  induction r generalizing s with
  | done a => rfl
  | fail e => rfl
  | askName ref next ih =>
    exact Load.bind_congr_apply (hkeeps.name ref) (h.name ref s hs) fun n s' hs' =>
      ih n (hs'.trans hs)
  | askLevel ref next ih =>
    exact Load.bind_congr_apply (hkeeps.level ref) (h.level ref s hs) fun l s' hs' =>
      ih l (hs'.trans hs)
  | askExpr ref next ih =>
    exact Load.bind_congr_apply (hkeeps.expr ref) (h.expr ref s hs) fun t s' hs' =>
      ih t (hs'.trans hs)

/-- How many records of a table may still be entered. -/
def Session.room (s : Session) (table : Table) (records : Json.Fields) : Nat :=
  (records.filter fun record => !s.isActive table record.1).length

/-- There is never more room than there are records. -/
theorem Session.room_le (s : Session) (table : Table) (records : Json.Fields) :
    s.room table records ≤ records.length :=
  List.length_filter_le _ _

/-- The room depends on the records being built only. -/
theorem Session.room_congr {s s' : Session} (h : s'.active = s.active) (table : Table)
    (records : Json.Fields) : s'.room table records = s.room table records := by
  simp only [room, isActive, h]

/-- Entering a record leaves less room. -/
theorem Session.room_start_lt {s : Session} {table : Table} {records : Json.Fields} {id : Text}
    {record : Json} (hidle : s.isActive table id = false)
    (hrecord : Json.Fields.get? records id = some record) :
    (s.start table id).room table records < s.room table records := by
  have hsplit : records.filter (fun record => !(s.start table id).isActive table record.1) =
      (records.filter fun record => !s.isActive table record.1).filter fun record =>
        decide (record.1 ≠ id) := by
    rw [List.filter_filter]
    congr 1
    funext record
    simp [Session.start, Session.isActive, Bool.not_or]
  unfold room
  rw [hsplit, List.length_filter_lt_length_iff_exists]
  refine ⟨(id, record), List.mem_filter.mpr ⟨Json.Fields.exists_mem_of_get? hrecord, by simp [hidle]⟩, by simp⟩

/-- Records are built alike by loaders that agree in the sessions with less room. -/
theorem Load.resolve_run_congr {shelf : Shelf α} {recipe : Text → Json → Recipe β}
    {finish : β → Load α} {loader loader' : Loader} (hkeeps : loader.Keeps) {s : Session}
    (h : loader.Agree (fun s' =>
      s'.room shelf.table shelf.records < s.room shelf.table shelf.records) loader') (id : Text) :
    resolve shelf (fun id record => (recipe id record).run loader >>= finish) id s =
      resolve shelf (fun id record => (recipe id record).run loader' >>= finish) id s := by
  refine resolve_congr fun record hrecord hidle => ?_
  have hless (s' : Session) (hs' : s'.active = (s.start shelf.table id).active) :
      s'.room shelf.table shelf.records < s.room shelf.table shelf.records := by
    rw [Session.room_congr hs']
    exact Session.room_start_lt hidle hrecord
  have hrun := Recipe.run_congr hkeeps
    ⟨fun ref s' hs' => h.name ref s' (hless s' hs'), fun ref s' hs' => h.level ref s' (hless s' hs'),
      fun ref s' hs' => h.expr ref s' (hless s' hs')⟩ (recipe id record) rfl
  rw [bind_apply, bind_apply, hrun]

/-- Steps taken by a bound on the nesting agree for all bounds that exceed the room, if each step
depends on nested ones in sessions with less room only. -/
theorem within_congr {table : Table} {records : Json.Fields} {f : Nat → Json → Load α}
    (hstep : ∀ bound bound' ref s,
      (∀ ref' s', s'.room table records < s.room table records → f bound ref' s' = f bound' ref' s') →
        f (bound + 1) ref s = f (bound' + 1) ref s)
    {bound bound' : Nat} {ref : Json} {s : Session} (h : s.room table records < bound)
    (h' : s.room table records < bound') : f bound ref s = f bound' ref s := by
  induction bound generalizing bound' ref s with
  | zero => omega
  | succ bound ih =>
    cases bound' with
    | zero => omega
    | succ bound' =>
      exact hstep bound bound' ref s fun ref' s' hs' => ih (by omega) (by omega)

/-- A request that nothing answers. -/
def Load.unanswered (_ : Json) : Load α :=
  throw .infinite

/-- A loader that answers requests for names only. -/
def Loader.names (resolve : Json → Load Name) : Loader :=
  ⟨resolve, Load.unanswered, Load.unanswered⟩

/-- A loader that answers requests for names and levels only. -/
def Loader.levels (tables : Tables) (resolve : Json → Load Level) : Loader :=
  ⟨Dump.name tables, resolve, Load.unanswered⟩

/-- A loader that answers all requests. -/
def Loader.exprs (tables : Tables) (resolve : Json → Load Term) : Loader :=
  ⟨Dump.name tables, Dump.level tables, resolve⟩

/-- A loader of names keeps what is being built if its requests do. -/
theorem Loader.keeps_names {resolve : Json → Load Name} (h : ∀ ref, (resolve ref).Keeps) :
    (Loader.names resolve).Keeps :=
  ⟨h, fun _ => Load.keeps_throw _, fun _ => Load.keeps_throw _⟩

/-- A name is built by running its recipe. -/
theorem buildName_eq (resolve : Json → Load Name) :
    buildName resolve = fun id record =>
      (Recipe.ofName id record).run (.names resolve) >>= pure := by
  funext id record
  rw [bind_pure]
  exact buildName_eq_run (.names resolve) id record

/-- A level is built by running its recipe. -/
theorem buildLevel_eq (tables : Tables) (resolve : Json → Load Level) :
    buildLevel tables resolve = fun id record =>
      (Recipe.ofLevel id record).run (.levels tables resolve) >>= pure := by
  funext id record
  rw [bind_pure]
  exact buildLevel_eq_run tables resolve Load.unanswered id record

/-- A term is built by running its recipe and giving the node a number. -/
theorem buildExpr_eq (tables : Tables) (resolve : Json → Load Term) :
    buildExpr tables resolve = fun id record =>
      (Recipe.ofExpr id record).run (.exprs tables resolve) >>= allot := by
  funext id record
  exact buildExpr_eq_run tables resolve id record

/-- A reference that is not null is resolved by its label. -/
theorem nameStep_of_ne (tables : Tables) {resolve : Json → Load Name} {ref : Json} (h : ref ≠ .null) :
    nameStep tables resolve ref =
      Load.written ref.label >>= Load.resolve tables.nameShelf (buildName resolve) := by
  rw [nameStep]
  exact h

/-- Resolving a name only grows a session if resolving its parent does. -/
theorem keeps_nameStep (tables : Tables) {resolve : Json → Load Name}
    (h : ∀ ref, (resolve ref).Keeps) (ref : Json) : (nameStep tables resolve ref).Keeps := by
  have hbuild (id : Text) (record : Json) : (buildName resolve id record).Keeps := by
    rw [buildName_eq]
    exact (Recipe.keeps_run (Loader.keeps_names h) _).bind Load.keeps_pure
  cases ref with
  | null => exact Load.keeps_pure _
  | _ => exact (Load.keeps_written _).bind fun id =>
      Load.keeps_resolve tables.grows_remember.1 hbuild id

/-- Resolving a name within a bound keeps what is being built. -/
theorem keeps_nameWithin (tables : Tables) (bound : Nat) (ref : Json) :
    (nameWithin tables bound ref).Keeps := by
  induction bound generalizing ref with
  | zero => exact Load.keeps_throw _
  | succ bound ih => exact keeps_nameStep tables ih ref

/-- So does resolving a name. -/
theorem keeps_name (tables : Tables) (ref : Json) : (name tables ref).Keeps :=
  keeps_nameWithin tables _ ref

/-- The parent of a name is resolved in sessions with less room. -/
theorem nameStep_congr (tables : Tables) {resolve resolve' : Json → Load Name}
    (hkeeps : ∀ ref, (resolve ref).Keeps) {ref : Json} {s : Session}
    (h : ∀ ref' s', s'.room .names tables.names < s.room .names tables.names →
      resolve ref' s' = resolve' ref' s') :
    nameStep tables resolve ref s = nameStep tables resolve' ref s := by
  have hagree : (Loader.names resolve).Agree
      (fun s' => s'.room .names tables.names < s.room .names tables.names) (.names resolve') :=
    ⟨h, fun _ _ _ => rfl, fun _ _ _ => rfl⟩
  have hresolve (id : Text) : Load.resolve tables.nameShelf (buildName resolve) id s =
      Load.resolve tables.nameShelf (buildName resolve') id s := by
    rw [buildName_eq, buildName_eq]
    exact Load.resolve_run_congr (Loader.keeps_names hkeeps) hagree id
  cases ref with
  | null => rfl
  | _ => exact Load.written_bind_congr fun id _ => hresolve id

/-- The names of a dump satisfy the equation of unbounded recursion. -/
theorem name_eq (tables : Tables) : name tables = nameStep tables (name tables) := by
  funext ref s
  change nameWithin tables (tables.names.length + 1) ref s =
    nameWithin tables (tables.names.length + 2) ref s
  have hroom := s.room_le .names tables.names
  exact within_congr
    (fun bound bound' ref s => nameStep_congr tables (keeps_nameWithin tables bound))
    (by omega) (by omega)

/-- A loader of levels keeps what is being built if its requests do. -/
theorem Loader.keeps_levels (tables : Tables) {resolve : Json → Load Level}
    (h : ∀ ref, (resolve ref).Keeps) : (Loader.levels tables resolve).Keeps :=
  ⟨keeps_name tables, h, fun _ => Load.keeps_throw _⟩

/-- Resolving a level only grows a session if resolving its operands does. -/
theorem keeps_levelStep (tables : Tables) {resolve : Json → Load Level}
    (h : ∀ ref, (resolve ref).Keeps) (ref : Json) : (levelStep tables resolve ref).Keeps := by
  refine (Load.keeps_written _).bind fun id =>
    Load.keeps_resolve tables.grows_remember.2.1 (fun id record => ?_) id
  rw [buildLevel_eq]
  exact (Recipe.keeps_run (Loader.keeps_levels tables h) _).bind Load.keeps_pure

/-- Resolving a level within a bound keeps what is being built. -/
theorem keeps_levelWithin (tables : Tables) (bound : Nat) (ref : Json) :
    (levelWithin tables bound ref).Keeps := by
  induction bound generalizing ref with
  | zero => exact Load.keeps_throw _
  | succ bound ih => exact keeps_levelStep tables ih ref

/-- So does resolving a level. -/
theorem keeps_level (tables : Tables) (ref : Json) : (level tables ref).Keeps :=
  keeps_levelWithin tables _ ref

/-- The operands of a level are resolved in sessions with less room. -/
theorem levelStep_congr (tables : Tables) {resolve resolve' : Json → Load Level}
    (hkeeps : ∀ ref, (resolve ref).Keeps) {ref : Json} {s : Session}
    (h : ∀ ref' s', s'.room .levels tables.levels < s.room .levels tables.levels →
      resolve ref' s' = resolve' ref' s') :
    levelStep tables resolve ref s = levelStep tables resolve' ref s := by
  have hagree : (Loader.levels tables resolve).Agree
      (fun s' => s'.room .levels tables.levels < s.room .levels tables.levels)
      (.levels tables resolve') :=
    ⟨fun _ _ _ => rfl, h, fun _ _ _ => rfl⟩
  unfold levelStep
  rw [buildLevel_eq, buildLevel_eq]
  exact Load.written_bind_congr fun id _ =>
    Load.resolve_run_congr (Loader.keeps_levels tables hkeeps) hagree id

/-- The levels of a dump satisfy the equation of unbounded recursion. -/
theorem level_eq (tables : Tables) : level tables = levelStep tables (level tables) := by
  funext ref s
  change levelWithin tables (tables.levels.length + 1) ref s =
    levelWithin tables (tables.levels.length + 2) ref s
  have hroom := s.room_le .levels tables.levels
  exact within_congr
    (fun bound bound' ref s => levelStep_congr tables (keeps_levelWithin tables bound))
    (by omega) (by omega)

/-- The shelf of terms with another way to blame errors. -/
def Tables.blamingShelf (tables : Tables) (blame : Text → Error → Error) : Shelf Term :=
  { tables.exprShelf with blame }

/-- The term that a reference stands for, its parts being found by `resolve`: it is resolved by itself,
whatever the kind of its record. -/
def nestedStep (tables : Tables) (blame : Text → Error → Error) (resolve : Json → Load Term)
    (ref : Json) : Load Term := do
  let id ← Load.written ref.label
  Load.resolve (tables.blamingShelf blame) (buildExpr tables resolve) id

/-- The term that a reference stands for by recursion, within a bound on the nesting. -/
def nestedWithin (tables : Tables) (blame : Text → Error → Error) : Nat → Json → Load Term
  | 0, _ => throw .unfinished
  | bound + 1, ref => nestedStep tables blame (nestedWithin tables blame bound) ref

/-- The term that a reference stands for by recursion: every reference is resolved by itself, and an
application record is built from its function and its argument. -/
def nestedExpr (tables : Tables) (blame : Text → Error → Error) (ref : Json) : Load Term :=
  nestedWithin tables blame (tables.exprs.length + 1) ref

/-- A loader of terms keeps what is being built if its requests do. -/
theorem Loader.keeps_exprs (tables : Tables) {resolve : Json → Load Term}
    (h : ∀ ref, (resolve ref).Keeps) : (Loader.exprs tables resolve).Keeps :=
  ⟨keeps_name tables, keeps_level tables, h⟩

/-- Giving a node a number keeps what is being built. -/
theorem keeps_allot (make : NodeId → Term) : (allot make).Keeps :=
  Load.keeps_fresh.bind fun node => Load.keeps_pure (make node)

section

variable (tables : Tables) (blame : Text → Error → Error)

/-- Resolving a term only grows a session if resolving its parts does. -/
theorem keeps_nestedStep {resolve : Json → Load Term} (h : ∀ ref, (resolve ref).Keeps) (ref : Json) :
    (nestedStep tables blame resolve ref).Keeps := by
  have hremember : ∀ id x (s : Session), s.Grows ((tables.blamingShelf blame).remember id x s) :=
    tables.grows_remember.2.2
  refine (Load.keeps_written _).bind fun id => Load.keeps_resolve hremember (fun id record => ?_) id
  rw [buildExpr_eq]
  exact (Recipe.keeps_run (Loader.keeps_exprs tables h) _).bind keeps_allot

/-- Resolving a term by recursion within a bound keeps what is being built. -/
theorem keeps_nestedWithin (bound : Nat) (ref : Json) :
    (nestedWithin tables blame bound ref).Keeps := by
  induction bound generalizing ref with
  | zero => exact Load.keeps_throw _
  | succ bound ih => exact keeps_nestedStep tables blame ih ref

/-- So does resolving a term by recursion. -/
theorem keeps_nestedExpr (ref : Json) : (nestedExpr tables blame ref).Keeps :=
  keeps_nestedWithin tables blame _ ref

/-- The parts of a term are resolved in sessions with less room. -/
theorem nestedStep_congr {resolve resolve' : Json → Load Term} (hkeeps : ∀ ref, (resolve ref).Keeps)
    {ref : Json} {s : Session}
    (h : ∀ ref' s', s'.room .exprs tables.exprs < s.room .exprs tables.exprs →
      resolve ref' s' = resolve' ref' s') :
    nestedStep tables blame resolve ref s = nestedStep tables blame resolve' ref s := by
  have hagree : (Loader.exprs tables resolve).Agree
      (fun s' => s'.room .exprs tables.exprs < s.room .exprs tables.exprs)
      (.exprs tables resolve') :=
    ⟨fun _ _ _ => rfl, fun _ _ _ => rfl, h⟩
  unfold nestedStep
  rw [buildExpr_eq, buildExpr_eq]
  exact Load.written_bind_congr fun id _ =>
    Load.resolve_run_congr (Loader.keeps_exprs tables hkeeps) hagree id

/-- Terms taken by recursion satisfy the equation of unbounded recursion. -/
theorem nestedExpr_eq :
    nestedExpr tables blame = nestedStep tables blame (nestedExpr tables blame) := by
  funext ref s
  change nestedWithin tables blame (tables.exprs.length + 1) ref s =
    nestedWithin tables blame (tables.exprs.length + 2) ref s
  have hroom := s.room_le .exprs tables.exprs
  exact within_congr
    (fun bound bound' ref s => nestedStep_congr tables blame (keeps_nestedWithin tables blame bound))
    (by omega) (by omega)

end

end TermText.Dump
