import TermText.Proofs.Dump.Entries

/-!
# Coherent sessions

A session is coherent if nothing is remembered of the records that are being built, and whatever is
remembered of a record is what its recipe makes of the objects remembered for its references. A step on
a coherent session leaves one that is coherent, in which the same records are being built and nothing is
forgotten, and it does so however it ends. The induction is on the records that may still be entered.
-/

namespace TermText.Dump

variable {α β : Type} {tables : Tables}

namespace Session

variable {s s' s'' : Session}

/-- What a session remembers of a record. -/
def remembered? (s : Session) : Key → Option Answer
  | (.names, id) => (lookup? s.names id).map .name
  | (.levels, id) => (lookup? s.levels id).map .level
  | (.exprs, id) => (lookup? s.exprs id).map .expr

/-- All that a session remembers is remembered in another one as well. -/
def RetainedIn (s s' : Session) : Prop :=
  ∀ key x, s.remembered? key = some x → s'.remembered? key = some x

/-- A session retains what it remembers. -/
theorem RetainedIn.refl (s : Session) : s.RetainedIn s := fun _ _ h => h

/-- What is retained by what retains a session is retained. -/
theorem RetainedIn.trans (h : s.RetainedIn s') (h' : s'.RetainedIn s'') : s.RetainedIn s'' :=
  fun key x hx => h' key x (h key x hx)

/-- A session remembers an object of the record that a reference stands for. -/
def Knows (s : Session) (table : Table) (ref : Json) (x : Answer) : Prop :=
  ∃ id, ref.label = .ok id ∧ s.remembered? (table, id) = some x

/-- What is known for a reference stays known. -/
theorem RetainedIn.knows (h : s.RetainedIn s') {table : Table} {ref : Json} {x : Answer}
    (hx : s.Knows table ref x) : s'.Knows table ref x :=
  hx.imp fun _ hx => ⟨hx.1, h _ _ hx.2⟩

/-- What references stand for according to a session: what is remembered of their records. -/
def meaning (s : Session) : Meaning where
  name ref n := ref = .null ∧ n = .anonymous ∨ ref ≠ .null ∧ s.Knows .names ref (.name n)
  level ref l := s.Knows .levels ref (.level l)
  expr ref t := s.Knows .exprs ref (.expr t)

/-- Sessions that remember the same give references the same meaning. -/
theorem meaning_congr (h : s'.remembered? = s.remembered?) : s'.meaning = s.meaning := by
  simp only [meaning, Knows, h]

/-- A name that is remembered is remembered for every reference to its record. -/
theorem RetainedIn.name (h : s.RetainedIn s') {ref : Json} {n : Name} (hn : s.meaning.name ref n) :
    s'.meaning.name ref n :=
  hn.imp_right fun hn => ⟨hn.1, h.knows hn.2⟩

/-- A recipe yields what it yields by fewer objects. -/
theorem RetainedIn.yields (h : s.RetainedIn s') {r : Recipe α} {Q : α → Prop}
    (hr : r.Yields s.meaning Q) : r.Yields s'.meaning Q :=
  hr.mono (fun _ _ => h.name) (fun _ _ => h.knows) (fun _ _ => h.knows)

end Session

/-- An object that the recipe of a record makes of what its references stand for. A term is made with
its own identity. -/
def Tables.Builds (tables : Tables) (M : Meaning) : Key → Answer → Prop
  | (.names, id), .name n => ∃ record, Json.Fields.get? tables.names id = some record ∧
    (Recipe.ofName id record).Yields M (· = n)
  | (.levels, id), .level l => ∃ record, Json.Fields.get? tables.levels id = some record ∧
    (Recipe.ofLevel id record).Yields M (· = l)
  | (.exprs, id), .expr t => ∃ record, Json.Fields.get? tables.exprs id = some record ∧
    (Recipe.ofExpr id record).Yields M fun make => make t.id = t
  | _, _ => False

/-- What is built of a record is still built of it if nothing is forgotten. -/
theorem Session.RetainedIn.builds {s s' : Session} (h : s.RetainedIn s') {key : Key} {x : Answer}
    (hx : tables.Builds s.meaning key x) : tables.Builds s'.meaning key x := by
  obtain ⟨table, id⟩ := key
  cases table <;> cases x <;> first | exact hx.elim | exact hx.imp fun _ hr => ⟨hr.1, h.yields hr.2⟩

/-- A session that remembers nothing of the records being built, and of the others what their recipes
make of the objects that are remembered. -/
structure Session.Coherent (tables : Tables) (s : Session) : Prop where
  idle : ∀ key ∈ s.active, s.remembered? key = none
  built : ∀ key x, s.remembered? key = some x → tables.Builds s.meaning key x

namespace Session

variable {s s' : Session}

/-- A session that remembers nothing is coherent. -/
theorem coherent_empty (tables : Tables) : empty.Coherent tables := by
  refine ⟨nofun, fun key x hx => ?_⟩
  obtain ⟨table, id⟩ := key
  cases table <;> cases hx

/-- Which records are being built may change as long as nothing is remembered of them. -/
theorem Coherent.congr (h : s.Coherent tables) (hremembered : s'.remembered? = s.remembered?)
    (hidle : ∀ key ∈ s'.active, s.remembered? key = none) : s'.Coherent tables := by
  refine ⟨hremembered ▸ hidle, ?_⟩
  rw [meaning_congr hremembered, hremembered]
  exact h.built

/-- A record of which nothing is remembered may be marked as being built. -/
theorem Coherent.start (h : s.Coherent tables) {table : Table} {id : Text}
    (hnew : s.remembered? (table, id) = none) : (s.start table id).Coherent tables :=
  h.congr rfl (List.forall_mem_cons.mpr ⟨hnew, h.idle⟩)

/-- After a record was marked, and no other one, it may be unmarked. -/
theorem Coherent.stop (h : s'.Coherent tables) {table : Table} {id : Text}
    (hidle : s.isActive table id = false) (hactive : s'.active = (s.start table id).active) :
    (s'.stop table id).Coherent tables ∧ (s'.stop table id).active = s.active := by
  refine ⟨h.congr rfl fun key hkey => h.idle key (List.mem_of_mem_filter hkey), ?_⟩
  rw [stop_active_congr hactive, stop_start hidle]

end Session

/-- A shelf that files its objects as answers: it has built what is remembered of the records of its
table, and one object more changes what is remembered of one record only. -/
structure Shelf.Files (shelf : Shelf α) (answer : α → Answer) : Prop where
  remembered_eq : ∀ (s : Session) (id : Text),
    s.remembered? (shelf.table, id) = (lookup? (shelf.built s) id).map answer
  remembered_remember : ∀ (s : Session) (id : Text) (x : α) (key : Key),
    (shelf.remember id x s).remembered? key =
      if (shelf.table, id) = key then some (answer x) else s.remembered? key
  active_remember : ∀ (s : Session) (id : Text) (x : α), (shelf.remember id x s).active = s.active

/-- What is remembered last hides what was remembered under its label before. -/
theorem map_lookup?_cons {γ : Type} (f : α → γ) (built : List (Text × α)) (id id' : Text) (x : α) :
    (lookup? ((id, x) :: built) id').map f =
      if id = id' then some (f x) else (lookup? built id').map f := by
  rw [lookup?_cons, apply_ite (Option.map f)]
  rfl

/-- The shelf of names files what it builds as names. -/
theorem Tables.files_nameShelf (tables : Tables) : tables.nameShelf.Files .name where
  remembered_eq _ _ := rfl
  remembered_remember s id x key := by
    obtain ⟨table, id'⟩ := key
    cases table <;> simp [nameShelf, Session.remembered?, map_lookup?_cons]
  active_remember _ _ _ := rfl

/-- The shelf of levels files what it builds as levels. -/
theorem Tables.files_levelShelf (tables : Tables) : tables.levelShelf.Files .level where
  remembered_eq _ _ := rfl
  remembered_remember s id x key := by
    obtain ⟨table, id'⟩ := key
    cases table <;> simp [levelShelf, Session.remembered?, map_lookup?_cons]
  active_remember _ _ _ := rfl

/-- The shelf of terms files what it builds as terms. -/
theorem Tables.files_exprShelf (tables : Tables) : tables.exprShelf.Files .expr where
  remembered_eq _ _ := rfl
  remembered_remember s id x key := by
    obtain ⟨table, id'⟩ := key
    cases table <;> simp [exprShelf, Session.remembered?, map_lookup?_cons]
  active_remember _ _ _ := rfl

/-- How errors are blamed does not matter to what is filed. -/
theorem Tables.files_linkShelf (tables : Tables) : tables.linkShelf.Files .expr :=
  ⟨tables.files_exprShelf.remembered_eq, tables.files_exprShelf.remembered_remember,
    tables.files_exprShelf.active_remember⟩

section

variable {shelf : Shelf α} {answer : α → Answer} {s : Session} {id : Text} {x : α}

/-- An object that is remembered for a record of which nothing was remembered hides nothing. -/
theorem Shelf.Files.retainedIn_remember (h : shelf.Files answer)
    (hnew : s.remembered? (shelf.table, id) = none) (x : α) : s.RetainedIn (shelf.remember id x s) := by
  intro key y hy
  rw [h.remembered_remember, if_neg, hy]
  rintro rfl
  rw [hnew] at hy
  cases hy

/-- A session stays coherent if it remembers what is built of a record that it knows nothing of, and
that is not being built any more. -/
theorem Shelf.Files.coherent_remember (h : shelf.Files answer) (hs : s.Coherent tables)
    (hnew : s.remembered? (shelf.table, id) = none) (hidle : (shelf.table, id) ∉ s.active)
    (hx : tables.Builds s.meaning (shelf.table, id) (answer x)) :
    (shelf.remember id x s).Coherent tables := by
  have hretained := h.retainedIn_remember hnew x
  refine ⟨fun key hkey => ?_, fun key y hy => ?_⟩
  · rw [h.active_remember] at hkey
    rw [h.remembered_remember, if_neg, hs.idle key hkey]
    rintro rfl
    exact hidle hkey
  · rw [h.remembered_remember] at hy
    split at hy
    · next heq =>
      cases hy
      exact heq ▸ hretained.builds hx
    · exact hretained.builds (hs.built key y hy)

end

/-- A step that keeps up a session however it ends: the session that is left is coherent, the same
records are being built in it, and nothing is forgotten. On success what is found fits the session. -/
structure Load.Upholds (m : Load α) (tables : Tables) (Found : α → Session → Prop) (s : Session) :
    Prop where
  coherent : (m.after s).Coherent tables
  active_eq : (m.after s).active = s.active
  retained : s.RetainedIn (m.after s)
  found : ∀ a s', m s = .ok a s' → Found a s'

namespace Load

variable {s : Session} {Found : α → Session → Prop}

/-- Giving an answer that is found upholds coherence. -/
theorem upholds_pure (hs : s.Coherent tables) {a : α} (ha : Found a s) :
    (pure a : Load α).Upholds tables Found s where
  coherent := hs
  active_eq := rfl
  retained := .refl s
  found := by
    rintro _ _ ⟨⟩
    exact ha

/-- So does failing. -/
theorem upholds_throw (hs : s.Coherent tables) (e : Error) :
    (throw e : Load α).Upholds tables Found s :=
  ⟨hs, rfl, .refl s, fun _ _ h => by cases h⟩

/-- A step that finds answers of a kind finds answers of any kind that includes it. -/
theorem Upholds.mono {m : Load α} {Found' : α → Session → Prop} (h : m.Upholds tables Found s)
    (hfound : ∀ a s', Found a s' → Found' a s') : m.Upholds tables Found' s :=
  ⟨h.coherent, h.active_eq, h.retained, fun a s' hstep => hfound a s' (h.found a s' hstep)⟩

/-- What a step that upholds coherence leaves when it succeeds. -/
theorem Upholds.of_ok {m : Load α} {s' : Session} {a : α} (h : m.Upholds tables Found s)
    (hstep : m s = .ok a s') :
    s'.Coherent tables ∧ s'.active = s.active ∧ s.RetainedIn s' ∧ Found a s' := by
  have hs' := after_of_ok hstep
  exact ⟨hs' ▸ h.coherent, hs' ▸ h.active_eq, hs' ▸ h.retained, h.found a s' hstep⟩

/-- What it leaves when it fails. -/
theorem Upholds.of_error {m : Load α} {s' : Session} {e : Error} (h : m.Upholds tables Found s)
    (hstep : m s = .error e s') : s'.Coherent tables ∧ s'.active = s.active ∧ s.RetainedIn s' := by
  have hs' := after_of_error hstep
  exact ⟨hs' ▸ h.coherent, hs' ▸ h.active_eq, hs' ▸ h.retained⟩

/-- A step keeps up a session if it does in the case that it succeeds and in the case that it fails. -/
theorem upholds_of_cases {m : Load α}
    (hok : ∀ a s', m s = .ok a s' →
      s'.Coherent tables ∧ s'.active = s.active ∧ s.RetainedIn s' ∧ Found a s')
    (herror : ∀ e s', m s = .error e s' →
      s'.Coherent tables ∧ s'.active = s.active ∧ s.RetainedIn s') : m.Upholds tables Found s := by
  cases hstep : m s with
  | ok a s' =>
    obtain ⟨hcoherent, hactive, hretained, -⟩ := hok a s' hstep
    have hs' := after_of_ok hstep
    exact ⟨hs' ▸ hcoherent, hs' ▸ hactive, hs' ▸ hretained, fun b t hb => (hok b t hb).2.2.2⟩
  | error e s' =>
    obtain ⟨hcoherent, hactive, hretained⟩ := herror e s' hstep
    have hs' := after_of_error hstep
    refine ⟨hs' ▸ hcoherent, hs' ▸ hactive, hs' ▸ hretained, fun a t ha => ?_⟩
    rw [hstep] at ha
    cases ha

/-- Two steps one after another keep up a session if both do. What the second one finds may rest on
what the first one found, as that is not forgotten. -/
theorem Upholds.bind {m : Load α} {f : α → Load β} {Found' : α → β → Session → Prop}
    {Final : β → Session → Prop} (hm : m.Upholds tables Found s)
    (hf : ∀ a s', s'.Coherent tables → s'.active = s.active → Found a s' →
      (f a).Upholds tables (Found' a) s')
    (hfinal : ∀ a s' b s'', Found a s' → s'.RetainedIn s'' → Found' a b s'' → Final b s'') :
    (m >>= f).Upholds tables Final s := by
  refine upholds_of_cases (fun b s'' hrun => ?_) fun e s'' hrun => ?_
  · obtain ⟨a, s', hstep, hmore⟩ := bind_ok hrun
    obtain ⟨hs', hactive, hretained, ha⟩ := hm.of_ok hstep
    obtain ⟨hs'', hactive', hretained', hb⟩ := (hf a s' hs' hactive ha).of_ok hmore
    exact ⟨hs'', hactive'.trans hactive, hretained.trans hretained', hfinal a s' b s'' ha hretained' hb⟩
  · rcases bind_error hrun with hstep | ⟨a, s', hstep, hmore⟩
    · exact hm.of_error hstep
    · obtain ⟨hs', hactive, hretained, ha⟩ := hm.of_ok hstep
      obtain ⟨hs'', hactive', hretained'⟩ := (hf a s' hs' hactive ha).of_error hmore
      exact ⟨hs'', hactive'.trans hactive, hretained.trans hretained'⟩

/-- A call that is made first, or after a step, is made on a coherent session if the calls after the step
are. -/
theorem Upholds.coherent_of_mem {m : Load α} {calls : α → Session → List (Call × Session)}
    {first call : Call} {s' : Session} (h : m.Upholds tables Found s) (hs : s.Coherent tables)
    (hmade : (call, s') ∈ (first, s) :: m.callsAfter calls s)
    (hcalls : ∀ a t, t.Coherent tables → t.active = s.active → (call, s') ∈ calls a t →
      s'.Coherent tables ∧ s'.active = t.active) : s'.Coherent tables ∧ s'.active = s.active := by
  rcases List.mem_cons.mp hmade with heq | hmore
  · cases heq
    exact ⟨hs, rfl⟩
  · obtain ⟨a, t, hstep, hcall⟩ := exists_of_mem_callsAfter hmore
    obtain ⟨ht, hsame, -, -⟩ := h.of_ok hstep
    obtain ⟨hs', hactive⟩ := hcalls a t ht hsame hcall
    exact ⟨hs', hactive.trans hsame⟩

end Load

/-- A loader that keeps up coherent sessions with given records being built, and whose answers are
remembered. -/
structure Loader.Upholds (loader : Loader) (tables : Tables) (active : List Key) : Prop where
  name : ∀ ref s, s.Coherent tables → s.active = active →
    (loader.name ref).Upholds tables (fun n s' => s'.meaning.name ref n) s
  level : ∀ ref s, s.Coherent tables → s.active = active →
    (loader.level ref).Upholds tables (fun l s' => s'.meaning.level ref l) s
  expr : ∀ ref s, s.Coherent tables → s.active = active →
    (loader.expr ref).Upholds tables (fun t s' => s'.meaning.expr ref t) s

/-- Running a recipe keeps up a session if answering its requests does, and the recipe yields what it
ends in, by the objects that are remembered then. -/
theorem Recipe.upholds_run {loader : Loader} {active : List Key} (h : loader.Upholds tables active)
    (r : Recipe α) {s : Session} (hs : s.Coherent tables) (hactive : s.active = active) :
    (r.run loader).Upholds tables (fun a s' => r.Yields s'.meaning (· = a)) s := by
  induction r generalizing s with
  | done a => exact Load.upholds_pure hs rfl
  | fail e => exact Load.upholds_throw hs e
  | askName ref next ih =>
    exact (h.name ref s hs hactive).bind
      (fun n s' hs' hsame _ => ih n hs' (hsame.trans hactive))
      fun n s' a s'' hn hretained hyields => ⟨n, hretained.name hn, hyields⟩
  | askLevel ref next ih =>
    exact (h.level ref s hs hactive).bind
      (fun l s' hs' hsame _ => ih l hs' (hsame.trans hactive))
      fun l s' a s'' hl hretained hyields => ⟨l, hretained.knows hl, hyields⟩
  | askExpr ref next ih =>
    exact (h.expr ref s hs hactive).bind
      (fun t s' hs' hsame _ => ih t hs' (hsame.trans hactive))
      fun t s' a s'' ht hretained hyields => ⟨t, hretained.knows ht, hyields⟩

/-- Calls that a recipe makes are made on coherent sessions in which the same records are being
built. -/
theorem Recipe.coherent_of_mem_calls {loader : Loader} {active : List Key}
    (h : loader.Upholds tables active) {r : Recipe α} {s s' : Session} {call : Call}
    (hs : s.Coherent tables) (hactive : s.active = active) (hmade : (call, s') ∈ r.calls loader s) :
    s'.Coherent tables ∧ s'.active = s.active := by
  induction r generalizing s with
  | done a => cases hmade
  | fail e => cases hmade
  | askName ref next ih =>
    exact (h.name ref s hs hactive).coherent_of_mem hs hmade fun n t ht hsame hn =>
      ih n ht (hsame.trans hactive) hn
  | askLevel ref next ih =>
    exact (h.level ref s hs hactive).coherent_of_mem hs hmade fun l t ht hsame hl =>
      ih l ht (hsame.trans hactive) hl
  | askExpr ref next ih =>
    exact (h.expr ref s hs hactive).coherent_of_mem hs hmade fun u t ht hsame hu =>
      ih u ht (hsame.trans hactive) hu

section

variable {shelf : Shelf α} {answer : α → Answer} {s : Session} {id : Text}

/-- A reference fails without a change of the session, or while its record is built. -/
theorem Load.resolve_error {build : Text → Json → Load α} {e : Error} {s' : Session}
    (h : resolve shelf build id s = .error e s') :
    s = s' ∨ ∃ record e' s'', lookup? (shelf.built s) id = none ∧
      Json.Fields.get? shelf.records id = some record ∧ s.isActive shelf.table id = false ∧
      build id record (s.start shelf.table id) = .error e' s'' ∧ s''.stop shelf.table id = s' := by
  rw [resolve_apply] at h
  split at h
  · cases h
  · cases h
    exact .inl rfl
  · next record hnew hrecord =>
    split at h
    · cases h
      exact .inl rfl
    · next hidle =>
      split at h
      · cases h
      · next e' s'' hstep =>
        cases h
        exact .inr ⟨record, e', s'', hnew, hrecord, Bool.eq_false_of_not_eq_true hidle, hstep, rfl⟩

/-- Resolving a reference keeps up a session if running the recipe of its record does: what is made of
it is remembered after the record was unmarked. -/
theorem Load.upholds_resolve {recipe : Text → Json → Recipe β} {finish : β → Load α}
    {loader : Loader} (hfiles : shelf.Files answer)
    (hfinish : ∀ record b x (t t' : Session), Json.Fields.get? shelf.records id = some record →
      (recipe id record).Yields t.meaning (· = b) → finish b t = .ok x t' →
        t'.remembered? = t.remembered? ∧ t'.active = t.active ∧
          tables.Builds t'.meaning (shelf.table, id) (answer x))
    (hsucceeds : ∀ b t e t', finish b t ≠ .error e t')
    (hloader : ∀ record, Json.Fields.get? shelf.records id = some record →
      (shelf.table, id) ∉ s.active → loader.Upholds tables ((shelf.table, id) :: s.active))
    (hs : s.Coherent tables) :
    (resolve shelf (fun id record => (recipe id record).run loader >>= finish) id).Upholds tables
      (fun x s' => s'.remembered? (shelf.table, id) = some (answer x)) s := by
  have hrun (record : Json) (hnew : lookup? (shelf.built s) id = none)
      (hrecord : Json.Fields.get? shelf.records id = some record)
      (hidle : s.isActive shelf.table id = false) :
      ((recipe id record).run loader).Upholds tables
        (fun b t => (recipe id record).Yields t.meaning (· = b)) (s.start shelf.table id) := by
    have hkey : (shelf.table, id) ∉ s.active := by simpa [Session.isActive] using hidle
    have hunknown : s.remembered? (shelf.table, id) = none := by rw [hfiles.remembered_eq, hnew]; rfl
    exact Recipe.upholds_run (hloader record hrecord hkey) _ (hs.start hunknown) rfl
  refine upholds_of_cases (fun x s' h => ?_) fun e s' h => ?_
  · obtain ⟨hbuilt, rfl⟩ | ⟨record, s'', hnew, hrecord, hidle, hbuild, rfl⟩ := resolve_ok h
    · exact ⟨hs, rfl, .refl s, by rw [hfiles.remembered_eq, hbuilt]; rfl⟩
    · obtain ⟨b, t, hstep, hlast⟩ := bind_ok hbuild
      obtain ⟨ht, hactive, hretained, hyields⟩ := (hrun record hnew hrecord hidle).of_ok hstep
      obtain ⟨hremembered, hsame, hx⟩ := hfinish record b x t s'' hrecord hyields hlast
      have hs'' : s''.Coherent tables := ht.congr hremembered fun key hkey => ht.idle key (hsame ▸ hkey)
      obtain ⟨hstopped, hleft⟩ := hs''.stop hidle (hsame.trans hactive)
      have hunknown : (s''.stop shelf.table id).remembered? (shelf.table, id) = none :=
        hs''.idle _ (by rw [hsame, hactive]; exact List.mem_cons_self)
      have hkey : (shelf.table, id) ∉ (s''.stop shelf.table id).active := by simp [Session.stop]
      have hkept := hfiles.retainedIn_remember hunknown x
      have hbefore : s.RetainedIn (s''.stop shelf.table id) := by
        intro key y hy
        exact (congrFun hremembered key).trans (hretained key y hy)
      refine ⟨hfiles.coherent_remember hstopped hunknown hkey hx,
        (hfiles.active_remember _ _ _).trans hleft, hbefore.trans hkept, ?_⟩
      rw [hfiles.remembered_remember, if_pos rfl]
  · obtain rfl | ⟨record, e', s'', hnew, hrecord, hidle, hbuild, rfl⟩ := resolve_error h
    · exact ⟨hs, rfl, .refl s⟩
    · rcases bind_error hbuild with hstep | ⟨b, t, -, hlast⟩
      · obtain ⟨ht, hactive, hretained⟩ := (hrun record hnew hrecord hidle).of_error hstep
        obtain ⟨hstopped, hleft⟩ := ht.stop hidle hactive
        exact ⟨hstopped, hleft, hretained⟩
      · exact absurd hlast (hsucceeds b t _ _)

end

section

variable {active : List Key}
  (hentered : ∀ {table id record}, Json.Fields.get? (tables.records table) id = some record →
    (table, id) ∉ active → tables.loader.Upholds tables ((table, id) :: active))

include hentered

/-- Resolving a reference to a name upholds coherence and finds its meaning. -/
theorem Tables.upholds_name (ref : Json) {s : Session} (hs : s.Coherent tables)
    (hactive : s.active = active) :
    (name tables ref).Upholds tables (fun n s' => s'.meaning.name ref n) s := by
  subst hactive
  by_cases hnull : ref = .null
  · subst hnull
    rw [name_eq]
    exact Load.upholds_pure hs (.inl ⟨rfl, rfl⟩)
  cases hlabel : ref.label with
  | error e =>
    rw [name_of_unlabelled tables hlabel]
    exact Load.upholds_throw hs _
  | ok id =>
    rw [name_eq_resolve tables hnull hlabel]
    refine (Load.upholds_resolve tables.files_nameShelf ?_ ?_
      (fun record hrecord hidle => hentered hrecord hidle) hs).mono
        fun n s' hn => .inr ⟨hnull, id, hlabel, hn⟩
    · intro record b n t t' hrecord hyields h
      cases h
      exact ⟨rfl, rfl, record, hrecord, hyields⟩
    · exact fun _ _ _ _ => nofun

/-- Likewise for a level. -/
theorem Tables.upholds_level (ref : Json) {s : Session} (hs : s.Coherent tables)
    (hactive : s.active = active) :
    (level tables ref).Upholds tables (fun l s' => s'.meaning.level ref l) s := by
  subst hactive
  cases hlabel : ref.label with
  | error e =>
    rw [level_of_unlabelled tables hlabel]
    exact Load.upholds_throw hs _
  | ok id =>
    rw [level_eq_resolve tables hlabel]
    refine (Load.upholds_resolve tables.files_levelShelf ?_ ?_
      (fun record hrecord hidle => hentered hrecord hidle) hs).mono fun l s' hl => ⟨id, hlabel, hl⟩
    · intro record b l t t' hrecord hyields h
      cases h
      exact ⟨rfl, rfl, record, hrecord, hyields⟩
    · exact fun _ _ _ _ => nofun

/-- Likewise for a term. -/
theorem Tables.upholds_expr (ref : Json) {s : Session} (hs : s.Coherent tables)
    (hactive : s.active = active) :
    (expr tables ref).Upholds tables (fun t s' => s'.meaning.expr ref t) s := by
  subst hactive
  cases hlabel : ref.label with
  | error e =>
    rw [expr_of_unlabelled tables hlabel]
    exact Load.upholds_throw hs _
  | ok id =>
    rw [expr_eq_resolve tables hlabel]
    refine (Load.upholds_resolve tables.files_linkShelf ?_ ?_
      (fun record hrecord hidle => hentered hrecord hidle) hs).mono fun t s' ht => ⟨id, hlabel, ht⟩
    · intro record make u t t' hrecord hyields h
      cases h
      refine ⟨rfl, rfl, record, hrecord, Recipe.yields_iff_exists.mpr ⟨make, hyields, ?_⟩⟩
      rw [(Recipe.children_of_yields hrecord hyields t.next).1]
    · exact fun _ _ _ _ => nofun

end

/-- Resolving references keeps up sessions, whichever records are being built. -/
theorem Tables.upholds_loader (tables : Tables) (active : List Key) :
    tables.loader.Upholds tables active := by
  induction hroom : tables.room active using Nat.strongRecOn generalizing active with
  | _ room ih =>
    have hentered {table : Table} {id : Text} {record : Json}
        (hrecord : Json.Fields.get? (tables.records table) id = some record)
        (hidle : (table, id) ∉ active) : tables.loader.Upholds tables ((table, id) :: active) :=
      ih _ (hroom ▸ Tables.room_cons_lt hidle hrecord) _ rfl
    exact ⟨fun ref s => Tables.upholds_name hentered ref, fun ref s => Tables.upholds_level hentered ref,
      fun ref s => Tables.upholds_expr hentered ref⟩

/-- Every call keeps up a coherent session. -/
theorem Call.upholds (call : Call) {s : Session} (hs : s.Coherent tables) :
    (call.perform tables).Upholds tables (fun _ _ => True) s := by
  have hloader := tables.upholds_loader s.active
  have hmap {γ : Type} {m : Load γ} {Found : γ → Session → Prop} (f : γ → Answer)
      (hm : m.Upholds tables Found s) : (f <$> m).Upholds tables (fun _ _ => True) s := by
    have hpure (a : γ) (s' : Session) (hs' : s'.Coherent tables) :
        (pure (f a) : Load Answer).Upholds tables (fun _ _ => True) s' := Load.upholds_pure hs' trivial
    rw [map_eq_pure_bind]
    exact hm.bind (fun a s' hs' _ _ => hpure a s' hs') fun _ _ _ _ _ _ _ => trivial
  cases call with
  | name ref => exact hmap _ (hloader.name ref s hs rfl)
  | level ref => exact hmap _ (hloader.level ref s hs rfl)
  | expr ref => exact hmap _ (hloader.expr ref s hs rfl)
  | declaration record =>
    rw [perform, declaration_eq_run]
    exact hmap _ (Recipe.upholds_run hloader _ hs rfl)

/-- After any calls a session is coherent and no record is being built. -/
theorem Tables.coherent_sessionAfter (tables : Tables) (calls : List Call) :
    (tables.sessionAfter calls).Coherent tables ∧ (tables.sessionAfter calls).active = [] := by
  refine List.foldlRecOn calls _ (motive := fun s : Session => s.Coherent tables ∧ s.active = [])
    ⟨Session.coherent_empty tables, rfl⟩ fun s hs call _ => ?_
  have hcall := call.upholds hs.1
  exact ⟨hcall.coherent, hcall.active_eq.trans hs.2⟩

end TermText.Dump
