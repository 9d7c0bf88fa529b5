import TermText.Proofs.Dump.Chain
import TermText.Proofs.Dump.Reference

/-!
# Sessions decide what references denote

A session is sound if what it remembers is what the records denote. In all sound sessions with the
same records being built, a reference has one outcome, up to the identities of nodes: what it
denotes, or one error if it denotes nothing. What was remembered makes no difference, as a record
that is remembered denotes an object and so leads to none of the records being built.

The induction is on the number of records that may still be entered. It carries along that every
record being built leads to the reference that is resolved, so one that is met again is on a cycle.
-/

namespace TermText.Dump

open Relation

variable {α β ν : Type} {tables : Tables}

/-- A session that remembers what the records denote. -/
structure Session.Sound (tables : Tables) (s : Session) : Prop where
  names : ∀ id n, lookup? s.names id = some n → DenotesName tables (.text id) n
  levels : ∀ id l, lookup? s.levels id = some l → DenotesLevel tables (.text id) l
  exprs : ∀ id t, lookup? s.exprs id = some t → DenotesExpr tables (.text id) t.tree

/-- A sound session with given records being built. -/
def Session.Fits (tables : Tables) (active : List Key) (s : Session) : Prop :=
  s.Sound tables ∧ s.active = active

/-- A step ends in one way in all sound sessions with given records being built. -/
def Load.Ends (m : Load α) (tables : Tables) (active : List Key) (View : α → ν → Prop) :
    Except Error ν → Prop
  | .ok v => ∀ s : Session, s.Fits tables active →
    ∃ a s', m s = .ok a s' ∧ View a v ∧ s'.Fits tables active
  | .error e => ∀ s : Session, s.Fits tables active →
    ∃ s', m s = .error e s' ∧ s'.Fits tables active

/-- A step that ends in one way, successfully exactly if something is denoted. -/
def Load.Decides (m : Load α) (tables : Tables) (active : List Key) (View : α → ν → Prop)
    (Denotes : ν → Prop) : Prop :=
  ∃ o : Except Error ν, m.Ends tables active View o ∧ ∀ v, o = .ok v ↔ Denotes v

/-- A loader that decides what all references to some of the records denote. -/
structure Loader.Decides (loader : Loader) (tables : Tables) (active keys : List Key) : Prop where
  name : ∀ ref, (∀ key ∈ nameKeys ref, key ∈ keys) →
    (loader.name ref).Decides tables active Eq (DenotesName tables ref)
  level : ∀ ref, (∀ key ∈ levelKeys ref, key ∈ keys) →
    (loader.level ref).Decides tables active Eq (DenotesLevel tables ref)
  expr : ∀ ref, (∀ key ∈ exprKeys ref, key ∈ keys) →
    (loader.expr ref).Decides tables active Recipe.IsTree (DenotesExpr tables ref)

/-- A loader decides fewer references as well. -/
theorem Loader.Decides.mono {loader : Loader} {active keys keys' : List Key}
    (h : loader.Decides tables active keys) (hkeys : ∀ key ∈ keys', key ∈ keys) :
    loader.Decides tables active keys' :=
  ⟨fun ref href => h.name ref fun key hkey => hkeys key (href key hkey),
    fun ref href => h.level ref fun key hkey => hkeys key (href key hkey),
    fun ref href => h.expr ref fun key hkey => hkeys key (href key hkey)⟩

/-- Two steps one after another, the second of which ends in one way wherever the first one ends. -/
theorem Load.Ends.bind {μ : Type} {m : Load α} {f : α → Load β} {active : List Key}
    {View : α → ν → Prop} {View' : β → μ → Prop} {v : ν} {o : Except Error μ}
    (hm : m.Ends tables active View (.ok v))
    (hf : ∀ a, View a v → (f a).Ends tables active View' o) :
    (m >>= f).Ends tables active View' o := by
  cases o with
  | error e =>
    intro s hs
    obtain ⟨a, s', hstep, ha, hs'⟩ := hm s hs
    obtain ⟨s'', hnext, hs''⟩ := hf a ha s' hs'
    exact ⟨s'', by rw [bind_apply, hstep, ← hnext], hs''⟩
  | ok w =>
    intro s hs
    obtain ⟨a, s', hstep, ha, hs'⟩ := hm s hs
    obtain ⟨b, s'', hnext, hb, hs''⟩ := hf a ha s' hs'
    exact ⟨b, s'', by rw [bind_apply, hstep, ← hnext], hb, hs''⟩

/-- A step that fails in one way is not continued. -/
theorem Load.Ends.bind_error {μ : Type} {m : Load α} {f : α → Load β} {active : List Key}
    {View : α → ν → Prop} {V : β → μ → Prop} {e : Error}
    (hm : m.Ends tables active View (.error e)) : (m >>= f).Ends tables active V (.error e) := by
  intro s hs
  obtain ⟨s', hstep, hs'⟩ := hm s hs
  exact ⟨s', by rw [bind_apply, hstep], hs'⟩

/-- A request that is decided, continued by recipes that end in one way for each answer. They go on
alike for answers that are viewed alike. -/
theorem Load.Decides.exists_ends_ask {ρ : Type} {m : Load ρ} {active : List Key}
    {ViewAnswer Alike : ρ → ρ → Prop} {View : α → ν → Prop} {Denotes : ρ → Prop}
    (h : m.Decides tables active ViewAnswer Denotes) (halike : ∀ a v, ViewAnswer a v → Alike v a)
    {next : ρ → Recipe α} {rest : List Key} {loader : Loader} {Yields : ρ → ν → Prop}
    (hnext : ∀ v, ∃ o : Except Error ν,
      (∀ r, (next v).SameCourse View rest r → (r.run loader).Ends tables active View o) ∧
        ∀ w, o = .ok w ↔ Yields v w) :
    ∃ o : Except Error ν,
      (∀ next' : ρ → Recipe α,
        (∀ v v', Alike v v' → (next v).SameCourse View rest (next' v')) →
          (m >>= fun a => (next' a).run loader).Ends tables active View o) ∧
        ∀ w, o = .ok w ↔ ∃ v, Denotes v ∧ Yields v w := by
  obtain ⟨o, hends, hdenotes⟩ := h
  cases o with
  | error e =>
    refine ⟨.error e, fun _ _ => hends.bind_error, fun w => ⟨nofun, fun hdenoted => ?_⟩⟩
    obtain ⟨v, hv, _⟩ := hdenoted
    cases (hdenotes v).mpr hv
  | ok v =>
    obtain ⟨o, hrun, hyields⟩ := hnext v
    refine ⟨o, fun next' hcourse => ?_, fun w => (hyields w).trans ⟨fun hy => ?_, fun hdenoted => ?_⟩⟩
    · exact hends.bind fun a ha => hrun _ (hcourse v a (halike a v ha))
    · exact ⟨v, (hdenotes v).mp rfl, hy⟩
    · obtain ⟨v', hv', hy⟩ := hdenoted
      cases (hdenotes v').mpr hv'
      exact hy

/-- All recipes of the course of one recipe end in one way if its requests are decided, and
successfully exactly if the recipe yields an object. -/
theorem Recipe.exists_ends_run {View : α → ν → Prop} {refs : List Key} {r : Recipe α}
    (hview : ∀ a v v', View a v → View a v' → v = v') (hcourse : r.SameCourse View refs r)
    {loader : Loader} {active : List Key} (h : loader.Decides tables active refs) :
    ∃ o : Except Error ν,
      (∀ r' : Recipe α, r.SameCourse View refs r' → (r'.run loader).Ends tables active View o) ∧
        ∀ v, o = .ok v ↔ r.Yields tables.meaning (View · v) := by
  induction r generalizing refs with
  | done a =>
    obtain ⟨_, v, hv, _⟩ := hcourse
    refine ⟨.ok v, fun r' hr' => ?_, fun w => ?_⟩
    · cases r' with
      | done b =>
        obtain ⟨_, w, ha, hb⟩ := hr'
        exact fun s hs => ⟨b, s, rfl, hview a w v ha hv ▸ hb, hs⟩
      | _ => exact hr'.elim
    · rw [Except.ok.injEq]
      exact ⟨fun hw => hw ▸ hv, hview a v w hv⟩
  | fail e =>
    refine ⟨.error e, fun r' hr' => ?_, fun w => by simp⟩
    cases r' with
    | fail e' => exact fun s hs => ⟨s, by rw [hr'.1]; rfl, hs⟩
    | _ => exact hr'.elim
  | askName ref next ih =>
    obtain ⟨_, rest, rfl, hnext⟩ := hcourse
    have hrest := h.mono fun key hkey => List.mem_append_right _ hkey
    have hasked := h.name ref fun key hkey => List.mem_append_left _ hkey
    obtain ⟨o, hrun, hyields⟩ := hasked.exists_ends_ask (fun _ _ ha => ha.symm)
      fun n => ih n (hnext n) hrest
    refine ⟨o, fun r' hr' => ?_, hyields⟩
    cases r' with
    | askName ref' next' =>
      obtain ⟨rfl, rest', hrefs, hnext'⟩ := hr'
      obtain rfl := List.append_cancel_left hrefs
      exact hrun next' fun n n' hn => hn ▸ hnext' n
    | _ => exact hr'.elim
  | askLevel ref next ih =>
    obtain ⟨_, rest, rfl, hnext⟩ := hcourse
    have hrest := h.mono fun key hkey => List.mem_append_right _ hkey
    have hasked := h.level ref fun key hkey => List.mem_append_left _ hkey
    obtain ⟨o, hrun, hyields⟩ := hasked.exists_ends_ask (fun _ _ ha => ha.symm)
      fun l => ih l (hnext l) hrest
    refine ⟨o, fun r' hr' => ?_, hyields⟩
    cases r' with
    | askLevel ref' next' =>
      obtain ⟨rfl, rest', hrefs, hnext'⟩ := hr'
      obtain rfl := List.append_cancel_left hrefs
      exact hrun next' fun l l' hl => hl ▸ hnext' l
    | _ => exact hr'.elim
  | askExpr ref next ih =>
    obtain ⟨_, rest, rfl, hnext⟩ := hcourse
    have hrest := h.mono fun key hkey => List.mem_append_right _ hkey
    have hasked := h.expr ref fun key hkey => List.mem_append_left _ hkey
    -- The answer may differ from what is denoted in the identities of its nodes.
    have halike (a v : Term) (ha : Recipe.IsTree a v) : v.tree = a.tree := by
      rw [← ha, Term.tree_tree]
    obtain ⟨o, hrun, hyields⟩ := hasked.exists_ends_ask halike fun t => ih t (hnext t t rfl) hrest
    refine ⟨o, fun r' hr' => ?_, hyields⟩
    cases r' with
    | askExpr ref' next' =>
      obtain ⟨rfl, rest', hrefs, hnext'⟩ := hr'
      obtain rfl := List.append_cancel_left hrefs
      exact hrun next' hnext'
    | _ => exact hr'.elim

/-- A sound session stays sound while records are marked and unmarked. -/
theorem Session.Fits.start {s : Session} {active : List Key} {table : Table} {id : Text}
    (h : s.Fits tables active) : (s.start table id).Fits tables ((table, id) :: active) :=
  ⟨⟨h.1.names, h.1.levels, h.1.exprs⟩, congrArg _ h.2⟩

/-- A session fits once a record is no longer being built. -/
theorem Session.Fits.stop {s : Session} {active : List Key} {table : Table} {id : Text}
    (h : s.Fits tables ((table, id) :: active)) (hidle : (table, id) ∉ active) :
    (s.stop table id).Fits tables active := by
  let before : Session := { s with active := active }
  have hbefore : before.isActive table id = false := by simpa [isActive] using hidle
  have hstop : (s.stop table id).active = ((before.start table id).stop table id).active :=
    stop_active_congr h.2
  exact ⟨⟨h.1.names, h.1.levels, h.1.exprs⟩, by rw [hstop, stop_start hbefore]⟩

/-- In a session that fits, exactly the given records are being built. -/
theorem Session.Fits.isActive_iff {s : Session} {active : List Key} (h : s.Fits tables active)
    (table : Table) (id : Text) : s.isActive table id = true ↔ (table, id) ∈ active := by
  simp [isActive, h.2]

section

variable {shelf : Shelf α} {build : Text → Json → Load α} {View : α → ν → Prop} {active : List Key}
  {id : Text} {record : Json}

/-- A reference whose record is built in one way is resolved to the same object, remembered or not. -/
theorem Load.Ends.resolve_ok {v : ν} (hrecord : Json.Fields.get? shelf.records id = some record)
    (hidle : (shelf.table, id) ∉ active)
    (hbuild : (build id record).Ends tables ((shelf.table, id) :: active) View (.ok v))
    (hbuilt : ∀ s x, s.Sound tables → lookup? (shelf.built s) id = some x → View x v)
    (hremember : ∀ s x, s.Fits tables active → View x v →
      (shelf.remember id x s).Fits tables active) :
    (resolve shelf build id).Ends tables active View (.ok v) := by
  intro s hs
  rw [resolve_apply]
  cases hmiss : lookup? (shelf.built s) id with
  | some x => exact ⟨x, s, rfl, hbuilt s x hs.1 hmiss, hs⟩
  | none =>
    obtain ⟨x, s', hstep, hx, hs'⟩ := hbuild _ hs.start
    simp only [hrecord, hs.isActive_iff, hidle, if_false, hstep]
    exact ⟨x, _, rfl, hx, hremember _ x (hs'.stop hidle) hx⟩

/-- A reference whose record fails in one way, and is not remembered, fails in that way. -/
theorem Load.Ends.resolve_error {e : Error}
    (hmiss : ∀ s : Session, s.Sound tables → lookup? (shelf.built s) id = none)
    (hrecord : Json.Fields.get? shelf.records id = some record)
    (hidle : (shelf.table, id) ∉ active)
    (hbuild : (build id record).Ends tables ((shelf.table, id) :: active) View (.error e)) :
    (resolve shelf build id).Ends tables active View
      (.error (shelf.blame id e) : Except Error ν) := by
  intro s hs
  obtain ⟨s', hstep, hs'⟩ := hbuild _ hs.start
  rw [resolve_apply, hmiss s hs.1, hrecord]
  simp only [hs.isActive_iff, hidle, if_false, hstep]
  exact ⟨_, rfl, hs'.stop hidle⟩

/-- A reference to a record that is being built, and is not remembered, is cyclic. -/
theorem Load.ends_resolve_cyclic
    (hmiss : ∀ s : Session, s.Sound tables → lookup? (shelf.built s) id = none)
    (hrecord : Json.Fields.get? shelf.records id = some record)
    (hactive : (shelf.table, id) ∈ active) :
    (resolve shelf build id).Ends tables active View
      (.error (.cyclic shelf.table id) : Except Error ν) := by
  intro s hs
  rw [resolve_apply, hmiss s hs.1, hrecord]
  simp only [hs.isActive_iff, hactive, if_true]
  exact ⟨s, rfl, hs⟩

/-- A reference to no record, of which nothing is remembered, is unknown. -/
theorem Load.ends_resolve_unknown
    (hmiss : ∀ s : Session, s.Sound tables → lookup? (shelf.built s) id = none)
    (hrecord : Json.Fields.get? shelf.records id = none) :
    (resolve shelf build id).Ends tables active View
      (.error (.unknown shelf.table id) : Except Error ν) := by
  intro s hs
  rw [resolve_apply, hmiss s hs.1, hrecord]
  exact ⟨s, rfl, hs⟩

end

/-- Resolving a reference is decided if the requests of its record are, and if nothing is denoted
where the record is being built already. -/
theorem Load.decides_resolve {shelf : Shelf α} {recipe : Text → Json → Recipe β}
    {finish : β → Load α} {refs : Json.Fields → List Key} {View : α → ν → Prop}
    {V : β → ν → Prop} {Denotes : ν → Prop} {loader : Loader} {active : List Key} {id : Text}
    (hview : ∀ b v v', V b v → V b v' → v = v')
    (hcourse : ∀ id record, (recipe id record).SameCourse V (refs record.fields) (recipe id record))
    (hfinish : ∀ b v, V b v → (finish b).Ends tables ((shelf.table, id) :: active) View (.ok v))
    (hbuilt : ∀ s x, s.Sound tables → lookup? (shelf.built s) id = some x →
      ∃ v, View x v ∧ Denotes v)
    (hremember : ∀ s x v, s.Fits tables active → View x v → Denotes v →
      (shelf.remember id x s).Fits tables active)
    (hdenotes : ∀ v, Denotes v ↔ ∃ record, Json.Fields.get? shelf.records id = some record ∧
      (recipe id record).Yields tables.meaning (V · v))
    (hcycle : (∃ v, Denotes v) → (shelf.table, id) ∉ active)
    (hloader : ∀ record, Json.Fields.get? shelf.records id = some record →
      (shelf.table, id) ∉ active →
        loader.Decides tables ((shelf.table, id) :: active) (refs record.fields)) :
    (resolve shelf (fun id record => (recipe id record).run loader >>= finish) id).Decides tables
      active View Denotes := by
  have hrun (record : Json) (hrecord : Json.Fields.get? shelf.records id = some record)
      (hidle : (shelf.table, id) ∉ active) :
      ∃ o, ((recipe id record).run loader).Ends tables ((shelf.table, id) :: active) V o ∧
        ∀ v, o = .ok v ↔ Denotes v := by
    obtain ⟨o, hends, hyields⟩ :=
      Recipe.exists_ends_run hview (hcourse id record) (hloader record hrecord hidle)
    refine ⟨o, hends _ (hcourse id record), fun v => (hyields v).trans ?_⟩
    rw [hdenotes, hrecord]
    simp
  by_cases hfound : ∃ v, Denotes v
  · obtain ⟨v, hv⟩ := hfound
    have hidle := hcycle ⟨v, hv⟩
    obtain ⟨record, hrecord, _⟩ := (hdenotes v).mp hv
    obtain ⟨o, hends, ho⟩ := hrun record hrecord hidle
    obtain rfl := (ho v).mpr hv
    refine ⟨.ok v, .resolve_ok hrecord hidle (hends.bind fun b => hfinish b v) ?_ ?_, ho⟩
    · intro s x hs hx
      obtain ⟨w, hview, hw⟩ := hbuilt s x hs hx
      cases (ho w).mpr hw
      exact hview
    · exact fun s x hs hx => hremember s x v hs hx hv
  · have hmiss (s : Session) (hs : s.Sound tables) : lookup? (shelf.built s) id = none := by
      refine Option.eq_none_iff_forall_ne_some.mpr fun x hx => ?_
      obtain ⟨v, _, hv⟩ := hbuilt s x hs hx
      exact hfound ⟨v, hv⟩
    have hnothing (e : Error) (v : ν) : (.error e : Except Error ν) = .ok v ↔ Denotes v :=
      iff_of_false (by simp) fun h => hfound ⟨v, h⟩
    cases hrecord : Json.Fields.get? shelf.records id with
    | none => exact ⟨_, ends_resolve_unknown hmiss hrecord, hnothing _⟩
    | some record =>
      by_cases hidle : (shelf.table, id) ∈ active
      · exact ⟨_, ends_resolve_cyclic hmiss hrecord hidle, hnothing _⟩
      · obtain ⟨o, hends, ho⟩ := hrun record hrecord hidle
        cases o with
        | ok v => exact absurd ⟨v, (ho v).mp rfl⟩ hfound
        | error e => exact ⟨_, .resolve_error hmiss hrecord hidle hends.bind_error, hnothing _⟩

/-- The records of a table. -/
def Tables.records (tables : Tables) : Table → Json.Fields
  | .names => tables.names
  | .levels => tables.levels
  | .exprs => tables.exprs

/-- How many records of the tables may be entered while given ones are being built. -/
def Tables.room (tables : Tables) (active : List Key) : Nat :=
  let s : Session := { Session.empty with active := active }
  s.room .names tables.names + s.room .levels tables.levels + s.room .exprs tables.exprs

/-- Entering a record leaves less room in all tables together. -/
theorem Tables.room_cons_lt {active : List Key} {table : Table} {id : Text} {record : Json}
    (hidle : (table, id) ∉ active)
    (hrecord : Json.Fields.get? (tables.records table) id = some record) :
    tables.room ((table, id) :: active) < tables.room active := by
  let s : Session := { Session.empty with active := active }
  have hle (table' : Table) (records : Json.Fields) :
      (s.start table id).room table' records ≤ s.room table' records := by
    refine List.Sublist.length_le (List.monotone_filter_right _ fun record => ?_)
    simp [Session.isActive, Session.start]
  have hlt := Session.room_start_lt (s := s) (by simpa [Session.isActive] using hidle) hrecord
  have hnames := hle .names tables.names
  have hlevels := hle .levels tables.levels
  have hexprs := hle .exprs tables.exprs
  change (s.start table id).room .names tables.names + (s.start table id).room .levels tables.levels +
    (s.start table id).room .exprs tables.exprs < s.room .names tables.names +
      s.room .levels tables.levels + s.room .exprs tables.exprs
  cases table <;> simp only [Tables.records] at hlt <;> omega

/-- References to names are resolved by recipes that make the same kind of requests. -/
theorem name_eq_resolve (tables : Tables) {ref : Json} {id : Text} (href : ref ≠ .null)
    (hlabel : ref.label = .ok id) :
    name tables ref = Load.resolve tables.nameShelf (fun id record =>
      (Recipe.ofName id record).run tables.loader >>= pure) id := by
  have hbuild : buildName (name tables) = fun id record =>
      (Recipe.ofName id record).run tables.loader >>= pure := by
    funext id record
    rw [bind_pure]
    exact buildName_eq_run tables.loader id record
  rw [name_eq, nameStep_of_ne tables href, hlabel, hbuild]
  rfl

/-- So are references to levels. -/
theorem level_eq_resolve (tables : Tables) {ref : Json} {id : Text} (hlabel : ref.label = .ok id) :
    level tables ref = Load.resolve tables.levelShelf (fun id record =>
      (Recipe.ofLevel id record).run tables.loader >>= pure) id := by
  have hbuild : buildLevel tables (level tables) = fun id record =>
      (Recipe.ofLevel id record).run tables.loader >>= pure := by
    funext id record
    rw [bind_pure]
    exact buildLevel_eq_run tables (level tables) (expr tables) id record
  rw [level_eq, levelStep, hlabel, hbuild]
  rfl

/-- So are references to terms. -/
theorem expr_eq_resolve (tables : Tables) {ref : Json} {id : Text} (hlabel : ref.label = .ok id) :
    expr tables ref = Load.resolve tables.linkShelf (fun id record =>
      (Recipe.ofExpr id record).run tables.loader >>= allot) id := by
  have hbuild : buildExpr tables (expr tables) = fun id record =>
      (Recipe.ofExpr id record).run tables.loader >>= allot := by
    funext id record
    exact buildExpr_eq_run tables (expr tables) id record
  rw [← hbuild, expr_eq_linkedExpr, linkedExpr_eq, hlabel]
  rfl

/-- A reference without a label is not resolved. -/
theorem name_of_unlabelled (tables : Tables) {ref : Json} {e : Numeral.Error} (hlabel : ref.label = .error e) :
    name tables ref = throw (.fault (.numeral e)) := by
  have href : ref ≠ .null := fun hnull => by
    rw [hnull] at hlabel
    cases hlabel
  rw [name_eq, nameStep_of_ne tables href, hlabel]
  rfl

/-- A reference without a label gives no level. -/
theorem level_of_unlabelled (tables : Tables) {ref : Json} {e : Numeral.Error}
    (hlabel : ref.label = .error e) : level tables ref = throw (.fault (.numeral e)) := by
  rw [level_eq, levelStep, hlabel]
  rfl

/-- A reference without a label gives no term. -/
theorem expr_of_unlabelled (tables : Tables) {ref : Json} {e : Numeral.Error}
    (hlabel : ref.label = .error e) : expr tables ref = throw (.fault (.numeral e)) := by
  rw [expr_eq_linkedExpr, linkedExpr_eq, hlabel]
  rfl

/-- A step that fails at once, where nothing is denoted, is decided. -/
theorem Load.decides_throw {m : Load α} {active : List Key} {View : α → ν → Prop} {Denotes : ν → Prop}
    {e : Error} (hm : m = throw e) (hnone : ∀ v, ¬ Denotes v) : m.Decides tables active View Denotes :=
  ⟨.error e, fun s hs => ⟨s, by rw [hm, throw_apply], hs⟩, fun v => iff_of_false nofun (hnone v)⟩

/-- What is remembered last is found first. -/
theorem lookup?_cons {γ : Type} (built : List (Text × γ)) (id id' : Text) (x : γ) :
    lookup? ((id, x) :: built) id' = if id = id' then some x else lookup? built id' := by
  by_cases h : id = id' <;> simp [lookup?, h]

/-- What holds of all that was built and of one object more holds of all that is built then. -/
theorem forall_lookup?_cons {γ : Type} {P : Text → γ → Prop} {built : List (Text × γ)} {id : Text}
    {x : γ} (hx : P id x) (hbuilt : ∀ id' y, lookup? built id' = some y → P id' y) (id' : Text)
    (y : γ) (hy : lookup? ((id, x) :: built) id' = some y) : P id' y := by
  rw [lookup?_cons] at hy
  split at hy
  · rename_i hid
    cases hy
    exact hid ▸ hx
  · exact hbuilt id' y hy

/-- A session stays sound if it remembers what a record denotes. -/
theorem Session.Fits.remember_name {s : Session} {active : List Key} {id : Text} {n : Name}
    (h : s.Fits tables active) (hn : DenotesName tables (.text id) n) :
    (tables.nameShelf.remember id n s).Fits tables active :=
  ⟨⟨forall_lookup?_cons hn h.1.names, h.1.levels, h.1.exprs⟩, h.2⟩

/-- A session fits with a level that is denoted. -/
theorem Session.Fits.remember_level {s : Session} {active : List Key} {id : Text} {l : Level}
    (h : s.Fits tables active) (hl : DenotesLevel tables (.text id) l) :
    (tables.levelShelf.remember id l s).Fits tables active :=
  ⟨⟨h.1.names, forall_lookup?_cons hl h.1.levels, h.1.exprs⟩, h.2⟩

/-- A session fits with a term whose tree is denoted. -/
theorem Session.Fits.remember_expr {s : Session} {active : List Key} {id : Text} {t : Term}
    (h : s.Fits tables active) (ht : DenotesExpr tables (.text id) t.tree) :
    (tables.exprShelf.remember id t s).Fits tables active := by
  have hexprs := forall_lookup?_cons (P := fun id (t : Term) => DenotesExpr tables (.text id) t.tree)
    ht h.1.exprs
  exact ⟨⟨h.1.names, h.1.levels, hexprs⟩, h.2⟩

/-- All records being built lead to some of the records. -/
def Tables.Leads (tables : Tables) (active keys : List Key) : Prop :=
  ∀ a ∈ active, ∀ key ∈ keys, TransGen tables.Refers a key

/-- A record that is entered leads to those it refers to, and so do the ones that led to it. -/
theorem Tables.Leads.references {active keys : List Key} {key : Key} (h : tables.Leads active keys)
    (hkey : key ∈ keys) : tables.Leads (key :: active) (tables.references key) := by
  intro a ha next hnext
  rcases List.mem_cons.mp ha with rfl | ha
  · exact .single hnext
  · exact .tail (h a ha key hkey) hnext

/-- A grounded record is not being built when it is led to. -/
theorem Tables.Leads.not_mem {active keys : List Key} {key : Key} (h : tables.Leads active keys)
    (hkey : key ∈ keys) (hground : tables.Grounded key) : key ∉ active :=
  fun hactive => hground.not_cyclic (h key hactive key hkey)

/-- The records that a record of a table refers to. -/
theorem Tables.references_of_get? {id : Text} {record : Json} :
    (Json.Fields.get? tables.names id = some record →
      tables.references (.names, id) = nameReferences record.fields) ∧
    (Json.Fields.get? tables.levels id = some record →
      tables.references (.levels, id) = levelReferences record.fields) ∧
    (Json.Fields.get? tables.exprs id = some record →
      tables.references (.exprs, id) = exprReferences record.fields) := by
  refine ⟨fun h => ?_, fun h => ?_, fun h => ?_⟩ <;> rw [Tables.references, h] <;> rfl

section

variable {active keys : List Key} (h : tables.Leads active keys)
  (hentered : ∀ {table id record}, (table, id) ∈ keys →
    Json.Fields.get? (tables.records table) id = some record → (table, id) ∉ active →
      tables.loader.Decides tables ((table, id) :: active) (tables.references (table, id)))

include h hentered

/-- What a reference to a name denotes is decided if the requests of the records are. -/
theorem Tables.decides_name {ref : Json} (href : ∀ key ∈ nameKeys ref, key ∈ keys) :
    (name tables ref).Decides tables active Eq (DenotesName tables ref) := by
  by_cases hnull : ref = .null
  · subst hnull
    refine ⟨.ok .anonymous, fun s hs => ⟨_, s, by rw [name_eq]; rfl, rfl, hs⟩, fun n => ?_⟩
    constructor
    · intro hsame
      cases hsame
      exact .null
    · intro hn
      cases hn with
      | null => rfl
      | root hrecord | text hrecord | number hrecord => exact absurd rfl hrecord.1
  · cases hlabel : ref.label with
    | error e =>
      refine Load.decides_throw (name_of_unlabelled tables hlabel) fun n hn => ?_
      obtain ⟨id, _, hid, _⟩ := (denotesName_iff hnull).mp hn
      cases hlabel.symm.trans hid
    | ok id =>
      have hkey : (.names, id) ∈ nameKeys ref := by simp [nameKeys_of_ne hnull, labelKeys_eq hlabel]
      rw [name_eq_resolve tables hnull hlabel]
      refine Load.decides_resolve (V := Eq) (fun b v v' hv hv' => hv.symm.trans hv')
        Recipe.sameCourse_ofName ?_ ?_ ?_ (fun v => ?_) ?_ ?_
      · intro b v hb s hs
        subst hb
        exact ⟨b, s, rfl, rfl, hs⟩
      · exact fun s x hs hx => ⟨x, rfl, (denotesName_label hnull hlabel).mp (hs.names _ x hx)⟩
      · intro s x v hs hx hv
        subst hx
        exact hs.remember_name ((denotesName_label hnull hlabel).mpr hv)
      · rw [denotesName_iff hnull, hlabel]
        simp [Tables.nameShelf]
      · intro hdenoted
        obtain ⟨v, hv⟩ := hdenoted
        exact h.not_mem (href _ hkey) (hv.grounded _ hkey)
      · intro record hrecord hidle
        rw [← Tables.references_of_get?.1 hrecord]
        exact hentered (href _ hkey) hrecord hidle

/-- What a reference to a level denotes is decided if the requests of the records are. -/
theorem Tables.decides_level {ref : Json} (href : ∀ key ∈ levelKeys ref, key ∈ keys) :
    (level tables ref).Decides tables active Eq (DenotesLevel tables ref) := by
  cases hlabel : ref.label with
  | error e =>
    refine Load.decides_throw (level_of_unlabelled tables hlabel) fun l hl => ?_
    obtain ⟨id, _, hid, _⟩ := denotesLevel_iff.mp hl
    cases hlabel.symm.trans hid
  | ok id =>
    have hkey : (.levels, id) ∈ levelKeys ref := by simp [levelKeys, labelKeys_eq hlabel]
    rw [level_eq_resolve tables hlabel]
    refine Load.decides_resolve (V := Eq) (fun b v v' hv hv' => hv.symm.trans hv')
      Recipe.sameCourse_ofLevel ?_ ?_ ?_ (fun v => ?_) ?_ ?_
    · intro b v hb s hs
      subst hb
      exact ⟨b, s, rfl, rfl, hs⟩
    · exact fun s x hs hx => ⟨x, rfl, (denotesLevel_label hlabel).mp (hs.levels _ x hx)⟩
    · intro s x v hs hx hv
      subst hx
      exact hs.remember_level ((denotesLevel_label hlabel).mpr hv)
    · rw [denotesLevel_iff, hlabel]
      simp [Tables.levelShelf]
    · intro hdenoted
      obtain ⟨v, hv⟩ := hdenoted
      exact h.not_mem (href _ hkey) (hv.grounded _ hkey)
    · intro record hrecord hidle
      rw [← Tables.references_of_get?.2.1 hrecord]
      exact hentered (href _ hkey) hrecord hidle

/-- What a reference to a term denotes is decided if the requests of the records are. -/
theorem Tables.decides_expr {ref : Json} (href : ∀ key ∈ exprKeys ref, key ∈ keys) :
    (expr tables ref).Decides tables active Recipe.IsTree (DenotesExpr tables ref) := by
  cases hlabel : ref.label with
  | error e =>
    refine Load.decides_throw (expr_of_unlabelled tables hlabel) fun t ht => ?_
    obtain ⟨id, _, hid, _⟩ := denotesExpr_iff.mp ht
    cases hlabel.symm.trans hid
  | ok id =>
    have hkey : (.exprs, id) ∈ exprKeys ref := by simp [exprKeys, labelKeys_eq hlabel]
    rw [expr_eq_resolve tables hlabel]
    refine Load.decides_resolve (V := Recipe.MakesTree)
      (fun b v v' hv hv' => (hv 0).symm.trans (hv' 0)) Recipe.sameCourse_ofExpr ?_ ?_ ?_ (fun v => ?_) ?_ ?_
    · intro make v hmake s hs
      exact ⟨make s.next, { s with next := s.next + 1 }, by simp [allot], hmake s.next,
        ⟨hs.1.names, hs.1.levels, hs.1.exprs⟩, hs.2⟩
    · exact fun s x hs hx => ⟨x.tree, rfl, (denotesExpr_label hlabel).mp (hs.exprs _ x hx)⟩
    · intro s x v hs hx hv
      subst hx
      exact hs.remember_expr ((denotesExpr_label hlabel).mpr hv)
    · rw [denotesExpr_iff, hlabel]
      simp [Tables.linkShelf, Tables.blamingShelf, Tables.exprShelf]
    · intro hdenoted
      obtain ⟨v, hv⟩ := hdenoted
      exact h.not_mem (href _ hkey) (hv.grounded _ hkey)
    · intro record hrecord hidle
      rw [← Tables.references_of_get?.2.2 hrecord]
      exact hentered (href _ hkey) hrecord hidle

end

/-- In all sound sessions with the same records being built, what references to records denote is
decided, if the records being built lead to these. -/
theorem Tables.decides (tables : Tables) {active keys : List Key} (h : tables.Leads active keys) :
    tables.loader.Decides tables active keys := by
  induction hroom : tables.room active using Nat.strongRecOn generalizing active keys with
  | _ room ih =>
    have hentered {table : Table} {id : Text} {record : Json} (hkey : (table, id) ∈ keys)
        (hrecord : Json.Fields.get? (tables.records table) id = some record)
        (hidle : (table, id) ∉ active) :
        tables.loader.Decides tables ((table, id) :: active) (tables.references (table, id)) :=
      ih _ (hroom ▸ Tables.room_cons_lt hidle hrecord) (h.references hkey) rfl
    exact ⟨fun ref => Tables.decides_name h hentered, fun ref => Tables.decides_level h hentered,
      fun ref => Tables.decides_expr h hentered⟩

/-- A session that has built nothing is sound. -/
theorem Session.fits_empty (tables : Tables) : Session.empty.Fits tables [] :=
  ⟨⟨nofun, nofun, nofun⟩, rfl⟩

/-- Outside of all records, what any reference denotes is decided. -/
theorem Tables.decides_all (tables : Tables) (keys : List Key) :
    tables.loader.Decides tables [] keys :=
  tables.decides nofun

/-- What a fresh session makes of a reference to some records is settled by what it denotes: the step
ends, it finds an object exactly if one is denoted, and the object is the denoted one written out as
a tree. So it fails if a cycle is reached from the records, and it succeeds if none is and only
well-formed records are reached, provided that the reference has a label. -/
structure Load.Settles (m : Load α) (tables : Tables) (tree : α → α) (Denotes : α → Prop)
    (ref : Json) (keys : List Key) : Prop where
  finishes : ∀ s, m Session.empty ≠ .error .unfinished s
  ok_iff : ∀ x, (∃ y s, m Session.empty = .ok y s ∧ tree y = x) ↔ Denotes x
  rejects_cycle : (∃ key ∈ keys, ∃ next, tables.Reaches key next ∧ tables.Cyclic next) →
    ∃ e s, m Session.empty = .error e s
  accepts_acyclic : ref.isWritable = true → (∀ key ∈ keys, ∀ next, tables.Reaches key next →
    ¬ tables.Cyclic next ∧ tables.WellFormed next) → ∃ y s, m Session.empty = .ok y s

/-- A step that is decided outside of all records is settled. -/
theorem Load.Decides.settles {m : Load α} {View : α → α → Prop} {tree : α → α} {Denotes : α → Prop}
    {ref : Json} {keys : List Key} (h : m.Decides tables [] View Denotes)
    (hview : ∀ x y, View x y ↔ tree x = y) (hfinishes : m.Finishes Session.empty)
    (hground : ∀ x, Denotes x → ∀ key ∈ keys, tables.Grounded key)
    (hdenotes : ref.isWritable = true → (∀ key ∈ keys, tables.DenotesShort key) → ∃ x, Denotes x) :
    m.Settles tables tree Denotes ref keys := by
  obtain ⟨o, hends, ho⟩ := h
  have hok (x : α) : (∃ y s, m Session.empty = .ok y s ∧ tree y = x) ↔ Denotes x := by
    rw [← ho]
    cases o with
    | ok v =>
      obtain ⟨y, s, hstep, hy, _⟩ := hends _ (Session.fits_empty tables)
      simp only [hstep, EStateM.Result.ok.injEq, Except.ok.injEq]
      constructor
      · intro hdenoted
        obtain ⟨_, _, ⟨rfl, _⟩, rfl⟩ := hdenoted
        exact ((hview _ _).mp hy).symm
      · intro heq
        subst heq
        exact ⟨y, s, ⟨rfl, rfl⟩, (hview _ _).mp hy⟩
    | error e =>
      obtain ⟨s, hstep, _⟩ := hends _ (Session.fits_empty tables)
      simp [hstep]
  refine ⟨hfinishes, hok, ?_, fun hwritable hkeys => ?_⟩
  · intro hdenoted
    obtain ⟨key, hkey, next, hreach, hcycle⟩ := hdenoted
    cases hstep : m Session.empty with
    | error e s => exact ⟨e, s, rfl⟩
    | ok y s =>
      have hy := (hok _).mp ⟨y, s, hstep, rfl⟩
      exact absurd hcycle ((hground _ hy key hkey).of_reaches hreach).not_cyclic
  · obtain ⟨x, hx⟩ := hdenotes hwritable fun key hkey =>
      Tables.denotes_of_acyclic (fun next hnext => (hkeys key hkey next hnext).1)
        fun next hnext => (hkeys key hkey next hnext).2
    obtain ⟨y, s, hstep, _⟩ := (hok x).mpr hx
    exact ⟨y, s, hstep⟩

/-- A fresh session settles every reference to a name, a level or a term, whatever the tables hold. -/
theorem fresh_session_settles (tables : Tables) (ref : Json) :
    (name tables ref).Settles tables id (DenotesName tables ref) ref (nameKeys ref) ∧
      (level tables ref).Settles tables id (DenotesLevel tables ref) ref (levelKeys ref) ∧
        (expr tables ref).Settles tables Term.tree (DenotesExpr tables ref) ref (exprKeys ref) := by
  refine ⟨?_, ?_, ?_⟩
  · exact ((tables.decides_all _).name ref fun _ h => h).settles (fun _ _ => Iff.rfl)
      (finishes_name tables ref _) (fun _ hn => hn.grounded)
      fun hwritable h => (exists_denotesName hwritable h).imp fun _ hn => hn.1
  · exact ((tables.decides_all _).level ref fun _ h => h).settles (fun _ _ => Iff.rfl)
      (finishes_level tables ref _) (fun _ hl => hl.grounded) exists_denotesLevel
  · exact ((tables.decides_all _).expr ref fun _ h => h).settles (fun _ _ => Iff.rfl)
      (finishes_expr tables ref _) (fun _ ht => ht.grounded) exists_denotesExpr

end TermText.Dump
