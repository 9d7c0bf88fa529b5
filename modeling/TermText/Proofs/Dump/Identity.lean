import Mathlib.Data.Set.Function
import TermText.Proofs.Dump.Slots

/-!
# One object for each record

A session makes one node for each term record that it builds, and it builds a record once. So the
nodes of a loaded module are in bijection with the ids that are reached from its declarations, and
two places hold one node exactly if their references have one id. What is carried through a session
is which terms it has built (`Session.Mirrors`): each was numbered once, and its children are what
was built for the references of its record. Names and levels are remembered as well, but their
objects are not told apart here.
-/

namespace TermText.Dump

variable {α β : Type} {tables : Tables}

namespace Load

/-- A step that builds no term: it leaves the terms and the numbering of nodes as they are. -/
def LeavesTerms (m : Load α) : Prop :=
  ∀ s, (m.after s).exprs = s.exprs ∧ (m.after s).next = s.next

/-- Giving an answer leaves the terms as they are. -/
theorem leavesTerms_pure (a : α) : (pure a : Load α).LeavesTerms := fun _ => ⟨rfl, rfl⟩

/-- So does failing. -/
theorem leavesTerms_throw (e : Error) : (throw e : Load α).LeavesTerms := fun _ => ⟨rfl, rfl⟩

/-- So does writing a label. -/
theorem leavesTerms_written (x : Except Numeral.Error Text) : (written x).LeavesTerms := by
  cases x with
  | ok t => exact leavesTerms_pure t
  | error e => exact leavesTerms_throw _

/-- Two steps leave the terms as they are if each does. -/
theorem LeavesTerms.bind {m : Load α} {f : α → Load β} (hm : m.LeavesTerms)
    (hf : ∀ a, (f a).LeavesTerms) : (m >>= f).LeavesTerms := by
  intro s
  have hs := hm s
  rw [after, bind_apply]
  cases h : m s with
  | error e s' => exact after_of_error h ▸ hs
  | ok a s' =>
    rw [after_of_ok h] at hs
    have hnext := hf a s'
    exact ⟨hnext.1.trans hs.1, hnext.2.trans hs.2⟩

/-- Resolving a reference builds no term if building a record and remembering its object do not. -/
theorem leavesTerms_resolve {shelf : Shelf α} {build : Text → Json → Load α}
    (hremember : ∀ id x (s : Session),
      (shelf.remember id x s).exprs = s.exprs ∧ (shelf.remember id x s).next = s.next)
    (hbuild : ∀ id record, (build id record).LeavesTerms) (id : Text) :
    (resolve shelf build id).LeavesTerms := by
  intro s
  unfold after
  rw [resolve_apply]
  cases lookup? (shelf.built s) id with
  | some x => exact ⟨rfl, rfl⟩
  | none =>
    cases Json.Fields.get? shelf.records id with
    | none => exact ⟨rfl, rfl⟩
    | some record =>
      cases s.isActive shelf.table id with
      | true => exact ⟨rfl, rfl⟩
      | false =>
        have hs := hbuild id record (s.start shelf.table id)
        dsimp only
        cases hstep : build id record (s.start shelf.table id) with
        | error e s' =>
          rw [after_of_error hstep] at hs
          exact hs
        | ok x s' =>
          rw [after_of_ok hstep] at hs
          have hkept := hremember id x (s'.stop shelf.table id)
          exact ⟨hkept.1.trans hs.1, hkept.2.trans hs.2⟩

/-- A reference is resolved to what was built for it before, or its record is built while it is
marked and the object is remembered. -/
theorem resolve_ok {shelf : Shelf α} {build : Text → Json → Load α} {id : Text} {x : α}
    {s s' : Session} (h : resolve shelf build id s = .ok x s') :
    (lookup? (shelf.built s) id = some x ∧ s = s') ∨
      ∃ record s'', lookup? (shelf.built s) id = none ∧
        Json.Fields.get? shelf.records id = some record ∧ s.isActive shelf.table id = false ∧
        build id record (s.start shelf.table id) = .ok x s'' ∧
        shelf.remember id x (s''.stop shelf.table id) = s' := by
  rw [resolve_apply] at h
  cases hbuilt : lookup? (shelf.built s) id with
  | some found =>
    simp only [hbuilt, EStateM.Result.ok.injEq] at h
    exact .inl ⟨congrArg some h.1, h.2⟩
  | none =>
    cases hrecord : Json.Fields.get? shelf.records id with
    | none => simp [hbuilt, hrecord] at h
    | some record =>
      cases hidle : s.isActive shelf.table id with
      | true => simp [hbuilt, hrecord, hidle] at h
      | false =>
        cases hstep : build id record (s.start shelf.table id) with
        | error e s'' => simp [hbuilt, hrecord, hidle, hstep] at h
        | ok y s'' =>
          simp only [hbuilt, hrecord, hidle, hstep, Bool.false_eq_true, if_false,
            EStateM.Result.ok.injEq] at h
          obtain ⟨rfl, hkept⟩ := h
          exact .inr ⟨record, s'', rfl, rfl, rfl, hstep, hkept⟩

end Load

/-- A recipe builds no term if the answers to its requests do not. -/
theorem Recipe.leavesTerms_run {loader : Loader} (hname : ∀ ref, (loader.name ref).LeavesTerms)
    (hlevel : ∀ ref, (loader.level ref).LeavesTerms) (hexpr : ∀ ref, (loader.expr ref).LeavesTerms)
    (r : Recipe α) : (r.run loader).LeavesTerms := by
  induction r with
  | done a => exact Load.leavesTerms_pure a
  | fail e => exact Load.leavesTerms_throw e
  | askName ref next ih => exact (hname ref).bind ih
  | askLevel ref next ih => exact (hlevel ref).bind ih
  | askExpr ref next ih => exact (hexpr ref).bind ih

/-- Resolving a name leaves the terms as they are. -/
theorem leavesTerms_name (tables : Tables) (ref : Json) : (name tables ref).LeavesTerms := by
  suffices hwithin : ∀ bound ref, (nameWithin tables bound ref).LeavesTerms from hwithin _ ref
  intro bound
  induction bound with
  | zero => exact fun ref => Load.leavesTerms_throw _
  | succ bound ih =>
    intro ref
    have hbuild (id : Text) (record : Json) :
        (buildName (nameWithin tables bound) id record).LeavesTerms := by
      rw [buildName_eq]
      exact (Recipe.leavesTerms_run ih (fun _ => Load.leavesTerms_throw _)
        (fun _ => Load.leavesTerms_throw _) _).bind Load.leavesTerms_pure
    cases ref with
    | null => exact Load.leavesTerms_pure _
    | _ => exact (Load.leavesTerms_written _).bind fun id =>
        Load.leavesTerms_resolve (fun _ _ _ => ⟨rfl, rfl⟩) hbuild id

/-- So does resolving a level. -/
theorem leavesTerms_level (tables : Tables) (ref : Json) : (level tables ref).LeavesTerms := by
  suffices hwithin : ∀ bound ref, (levelWithin tables bound ref).LeavesTerms from hwithin _ ref
  intro bound
  induction bound with
  | zero => exact fun ref => Load.leavesTerms_throw _
  | succ bound ih =>
    intro ref
    refine (Load.leavesTerms_written _).bind
      (Load.leavesTerms_resolve (fun _ _ _ => ⟨rfl, rfl⟩) fun id record => ?_)
    rw [buildLevel_eq]
    exact (Recipe.leavesTerms_run (leavesTerms_name tables) ih
      (fun _ => Load.leavesTerms_throw _) _).bind Load.leavesTerms_pure

namespace Session

/-- The term that a session built for a reference, which has a label. -/
def Holds (s : Session) (ref : Json) (t : Term) : Prop :=
  ∃ id, ref.label = .ok id ∧ lookup? s.exprs id = some t

/-- What a session built for references to terms, as a meaning; names and levels are left open. -/
def terms (s : Session) : Meaning :=
  ⟨fun _ _ => True, fun _ _ => True, s.Holds⟩

/-- The terms that a session has built mirror their records: they were built for ids of a kind, none
is still being built, the nodes numbered so far are one for each of them, and their children are the
terms built for the references of their records. -/
structure Mirrors (s : Session) (tables : Tables) (P : Text → Prop) : Prop where
  within : ∀ id t, lookup? s.exprs id = some t → P id
  idle : ∀ id t, lookup? s.exprs id = some t → s.isActive .exprs id = false
  numbered : ∀ node, node < s.next ↔ ∃ id t, lookup? s.exprs id = some t ∧ t.id = node
  distinct : ∀ id id' t t', lookup? s.exprs id = some t → lookup? s.exprs id' = some t' →
    t.id = t'.id → id = id'
  children : ∀ id t, lookup? s.exprs id = some t →
    ∀ i : Nat, Option.Rel s.Holds (tables.childReference? (.text id) i) t.children[i]?

/-- A session that remembers the terms of another one. -/
def Extends (s s' : Session) : Prop :=
  ∀ id t, lookup? s.exprs id = some t → lookup? s'.exprs id = some t

variable {s s' s'' : Session} {P : Text → Prop}

/-- A session extends itself. -/
theorem Extends.refl (s : Session) : s.Extends s := fun _ _ h => h

/-- What extends an extension extends the first session. -/
theorem Extends.trans (h : s.Extends s') (h' : s'.Extends s'') : s.Extends s'' :=
  fun id t ht => h' id t (h id t ht)

/-- What was built for a reference is still what was built for it. -/
theorem Extends.rel (h : s.Extends s') {x : Option Json} {y : Option Term}
    (hrel : Option.Rel s.Holds x y) : Option.Rel s'.Holds x y := by
  cases hrel with
  | none => exact .none
  | some hheld =>
    obtain ⟨id, hlabel, hheld⟩ := hheld
    exact .some ⟨id, hlabel, h _ _ hheld⟩

/-- A session that has built nothing mirrors whatever records there are. -/
theorem mirrors_empty (tables : Tables) (P : Text → Prop) : empty.Mirrors tables P where
  within := nofun
  idle := nofun
  numbered := by
    intro node
    simp [empty, lookup?]
  distinct := nofun
  children := nofun

/-- Terms mirror their records whatever names and levels were built, and whichever other records are
being built. -/
theorem Mirrors.congr (h : s.Mirrors tables P) (hexprs : s'.exprs = s.exprs)
    (hnext : s'.next = s.next)
    (hidle : ∀ id t, lookup? s.exprs id = some t → s'.isActive .exprs id = false) :
    s'.Mirrors tables P := by
  have hholds : s'.Holds = s.Holds := by
    funext ref t
    rw [Holds, Holds, hexprs]
  refine ⟨?_, ?_, ?_, ?_, ?_⟩
  · rw [hexprs]
    exact h.within
  · rw [hexprs]
    exact hidle
  · rw [hexprs, hnext]
    exact h.numbered
  · rw [hexprs]
    exact h.distinct
  · rw [hexprs, hholds]
    exact h.children

/-- A record whose term was not built may be marked as being built. -/
theorem Mirrors.start (h : s.Mirrors tables P) {id : Text} (hnew : lookup? s.exprs id = none) :
    (s.start .exprs id).Mirrors tables P := by
  refine h.congr rfl rfl fun id' t ht => ?_
  have hne : id' ≠ id := by
    intro heq
    rw [heq, hnew] at ht
    cases ht
  have hidle := h.idle id' t ht
  simpa [isActive, Session.start, hne] using hidle

/-- A record that is being built has no term yet. -/
theorem Mirrors.not_built (h : s.Mirrors tables P) {id : Text}
    (hactive : s.isActive .exprs id = true) : lookup? s.exprs id = none := by
  cases hbuilt : lookup? s.exprs id with
  | none => rfl
  | some t =>
    rw [h.idle id t hbuilt] at hactive
    cases hactive

/-- The session that remembers a new node as the term of a record that was being built. -/
def keep (s : Session) (tables : Tables) (id : Text) (make : NodeId → Term) : Session :=
  tables.exprShelf.remember id (make s.next) ({ s with next := s.next + 1 }.stop .exprs id)

/-- What a session with a new term has built. -/
theorem lookup?_keep (s : Session) (tables : Tables) (id id' : Text) (make : NodeId → Term) :
    lookup? (s.keep tables id make).exprs id' =
      if id = id' then some (make s.next) else lookup? s.exprs id' :=
  lookup?_cons s.exprs id id' (make s.next)

/-- What a session with a new term has built is the new term or was built before. -/
theorem of_lookup?_keep {id id' : Text} {make : NodeId → Term} {t : Term}
    (h : lookup? (s.keep tables id make).exprs id' = some t) :
    (id = id' ∧ make s.next = t) ∨ lookup? s.exprs id' = some t := by
  rw [lookup?_keep] at h
  by_cases heq : id = id'
  · rw [if_pos heq] at h
    exact .inl ⟨heq, Option.some.inj h⟩
  · rw [if_neg heq] at h
    exact .inr h

/-- A session that remembers a term for a record that had none remembers all others. -/
theorem extends_keep {id : Text} (hnew : lookup? s.exprs id = none) (tables : Tables)
    (make : NodeId → Term) : s.Extends (s.keep tables id make) := by
  intro id' t ht
  have hne : id ≠ id' := by
    intro heq
    rw [heq, ht] at hnew
    cases hnew
  rw [lookup?_keep, if_neg hne]
  exact ht

/-- A record is being built as before, unless it is the one that was built. -/
theorem isActive_keep (s : Session) (tables : Tables) (id id' : Text) (make : NodeId → Term) :
    (s.keep tables id make).isActive .exprs id' = (s.isActive .exprs id' && decide (id ≠ id')) := by
  by_cases heq : id = id'
  · simp [keep, Tables.exprShelf, isActive, stop, heq]
  · simp [keep, Tables.exprShelf, isActive, stop, heq, Ne.symm heq]

/-- Terms still mirror their records when a record that was being built gets a new node with the
right children. -/
theorem Mirrors.keep (h : s.Mirrors tables P) {id : Text} {make : NodeId → Term}
    (hid : P id) (hactive : s.isActive .exprs id = true) (hmake : ∀ node, (make node).id = node)
    (hchildren : ∀ i : Nat, Option.Rel s.Holds (tables.childReference? (.text id) i)
      (make s.next).children[i]?) : (s.keep tables id make).Mirrors tables P := by
  have hextends := extends_keep (h.not_built hactive) tables make
  have hbefore : ∀ {id' t}, lookup? s.exprs id' = some t → t.id < s.next := fun {id' t} ht =>
    (h.numbered t.id).2 ⟨id', t, ht, rfl⟩
  refine ⟨?_, ?_, ?_, ?_, ?_⟩
  · intro id' t ht
    obtain ⟨rfl, _⟩ | ht := of_lookup?_keep ht
    · exact hid
    · exact h.within id' t ht
  · intro id' t ht
    rw [isActive_keep]
    obtain ⟨rfl, _⟩ | ht := of_lookup?_keep ht
    · simp
    · rw [h.idle id' t ht, Bool.false_and]
  · intro node
    change node < s.next + 1 ↔ _
    constructor
    · intro hlt
      obtain hold | heq := Nat.lt_succ_iff_lt_or_eq.1 hlt
      · obtain ⟨id', t, ht, hnode⟩ := (h.numbered node).1 hold
        exact ⟨id', t, hextends id' t ht, hnode⟩
      · exact ⟨id, make s.next, by rw [lookup?_keep, if_pos rfl], heq ▸ hmake s.next⟩
    · intro hbuilt
      obtain ⟨id', t, ht, rfl⟩ := hbuilt
      obtain ⟨_, rfl⟩ | ht := of_lookup?_keep ht
      · rw [hmake]
        exact Nat.lt_succ_self s.next
      · exact Nat.lt_succ_of_lt (hbefore ht)
  · intro a b t u ht hu hsame
    obtain ⟨rfl, rfl⟩ | ht := of_lookup?_keep ht
    · obtain ⟨rfl, _⟩ | hu := of_lookup?_keep hu
      · rfl
      · rw [hmake] at hsame
        exact absurd hsame (Nat.ne_of_gt (hbefore hu))
    · obtain ⟨rfl, rfl⟩ | hu := of_lookup?_keep hu
      · rw [hmake] at hsame
        exact absurd hsame (Nat.ne_of_lt (hbefore ht))
      · exact h.distinct a b t u ht hu hsame
  · intro id' t ht i
    obtain ⟨rfl, rfl⟩ | ht := of_lookup?_keep ht
    · exact hextends.rel (hchildren i)
    · exact hextends.rel (h.children id' t ht i)

end Session

/-- A step that leaves terms mirroring their records if it succeeds, remembers all that was built and
finds an object of a kind. -/
def Load.Tracks (m : Load α) (tables : Tables) (P : Text → Prop) (Found : α → Session → Prop)
    (s : Session) : Prop :=
  s.Mirrors tables P → ∀ a s', m s = .ok a s' →
    s'.Mirrors tables P ∧ s.Extends s' ∧ Found a s'

section

variable {P : Text → Prop} {s : Session}

/-- A step that builds no term and leaves the records that are being built tracks terms, and what
follows it may track them further. -/
theorem Load.LeavesTerms.tracks_bind {m : Load α} {f : α → Load β} {Found : β → Session → Prop}
    (hm : m.LeavesTerms) (hkeeps : m.Keeps)
    (hf : ∀ a s', s'.active = s.active → (f a).Tracks tables P Found s') :
    (m >>= f).Tracks tables P Found s := by
  intro hmirrors b s'' hrun
  obtain ⟨a, s', hstep, hrest⟩ := bind_ok hrun
  have hactive := hkeeps.active_eq hstep
  have hterms := after_of_ok hstep ▸ hm s
  have hmirrors' : s'.Mirrors tables P := by
    refine hmirrors.congr hterms.1 hterms.2 fun id t ht => ?_
    have hidle := hmirrors.idle id t ht
    rwa [Session.isActive, hactive]
  obtain ⟨hfinal, hextends, hfound⟩ := hf a s' hactive hmirrors' b s'' hrest
  refine ⟨hfinal, fun id t ht => hextends id t ?_, hfound⟩
  rwa [hterms.1]

/-- Running a recipe tracks terms if the answers to its requests for terms do: the recipe yields what
it ends in, by the terms that were built. -/
theorem Recipe.tracks_run {loader : Loader} (hkeeps : loader.Keeps)
    (hname : ∀ ref, (loader.name ref).LeavesTerms) (hlevel : ∀ ref, (loader.level ref).LeavesTerms)
    {active : List Key} (hexpr : ∀ ref s, s.active = active → (∀ id, ref.label = .ok id → P id) →
      (loader.expr ref).Tracks tables P (fun t s' => s'.Holds ref t) s)
    {r : Recipe α} (hasks : r.AsksWithin P) (hs : s.active = active) :
    (r.run loader).Tracks tables P (fun a s' => r.Yields s'.terms (· = a)) s := by
  induction r generalizing s with
  | done a =>
    intro hmirrors a' s' hrun
    cases hrun
    exact ⟨hmirrors, .refl s, rfl⟩
  | fail e =>
    intro _ a s' hrun
    cases hrun
  | askName ref next ih =>
    refine Load.LeavesTerms.tracks_bind (hname ref) (hkeeps.name ref) fun n s' hs' => ?_
    intro hmirrors a s'' hrun
    obtain ⟨hfinal, hextends, hyields⟩ := ih n (hasks n) (hs'.trans hs) hmirrors a s'' hrun
    exact ⟨hfinal, hextends, n, trivial, hyields⟩
  | askLevel ref next ih =>
    refine Load.LeavesTerms.tracks_bind (hlevel ref) (hkeeps.level ref) fun l s' hs' => ?_
    intro hmirrors a s'' hrun
    obtain ⟨hfinal, hextends, hyields⟩ := ih l (hasks l) (hs'.trans hs) hmirrors a s'' hrun
    exact ⟨hfinal, hextends, l, trivial, hyields⟩
  | askExpr ref next ih =>
    intro hmirrors a s'' hrun
    obtain ⟨t, s', hstep, hrest⟩ := Load.bind_ok hrun
    obtain ⟨hmirrors', hextends, hheld⟩ := hexpr ref s hs hasks.1 hmirrors t s' hstep
    have hs' := ((hkeeps.expr ref).active_eq hstep).trans hs
    obtain ⟨hfinal, hextends', hyields⟩ := ih t (hasks.2 t) hs' hmirrors' a s'' hrest
    obtain ⟨id, hlabel, hbuilt⟩ := hheld
    exact ⟨hfinal, hextends.trans hextends', t, ⟨id, hlabel, hextends' _ _ hbuilt⟩, hyields⟩

/-- A reference is answered by the one term of its record, built now or before. The induction is on
the number of records that may still be entered. -/
theorem tracks_expr (hclosed : ∀ a b, P a → tables.Refers (.exprs, a) (.exprs, b) → P b)
    {ref : Json} (href : ∀ id, ref.label = .ok id → P id) :
    (expr tables ref).Tracks tables P (fun t s' => s'.Holds ref t) s := by
  induction hroom : s.room .exprs tables.exprs using Nat.strongRecOn generalizing ref s with
  | ind room ih =>
    intro hmirrors t s' hrun
    cases hlabel : ref.label with
    | error e =>
      rw [expr_of_unlabelled tables hlabel] at hrun
      cases hrun
    | ok id =>
    rw [expr_eq_resolve tables hlabel] at hrun
    obtain ⟨hbuilt, rfl⟩ | ⟨record, s'', hnew, hrecord, hidle, hbuild, rfl⟩ := Load.resolve_ok hrun
    · exact ⟨hmirrors, .refl s, id, hlabel, hbuilt⟩
    · obtain ⟨make, s₁, hmake, hallot⟩ := Load.bind_ok hbuild
      cases hallot
      have hid : P id := href id hlabel
      have hrefs : ∀ next, (.exprs, next) ∈ exprReferences record.fields → P next := by
        intro next hnext
        rw [← Tables.references_of_get?.2.2 hrecord] at hnext
        exact hclosed _ _ hid hnext
      have hasks := (Recipe.sameCourse_ofExpr id record).asksWithin hrefs
      have hless : ∀ s' : Session, s'.active = (s.start .exprs id).active →
          s'.room .exprs tables.exprs < room := by
        intro s' hs'
        rw [← hroom, Session.room_congr hs']
        exact Session.room_start_lt hidle hrecord
      obtain ⟨hmirrors', hextends, hyields⟩ := Recipe.tracks_run tables.keeps_loader
        (leavesTerms_name tables) (leavesTerms_level tables)
        (fun ref' s' hs' href' => ih _ (hless s' hs') href' rfl) hasks rfl
        (hmirrors.start hnew) make s₁ hmake
      have hmarked : s₁.isActive .exprs id = true := by
        have hactive := (Recipe.keeps_run tables.keeps_loader _).active_eq hmake
        rw [Session.isActive, hactive]
        simp [Session.start, Tables.linkShelf, Tables.blamingShelf, Tables.exprShelf]
      have hnode := Recipe.children_of_yields hrecord hyields
      have hnew' := hmirrors'.not_built hmarked
      have hkept := hmirrors'.keep hid hmarked (fun node => (hnode node).1) (hnode s₁.next).2
      refine ⟨hkept, hextends.trans (Session.extends_keep hnew' tables make), id, hlabel, ?_⟩
      change lookup? (s₁.keep tables id make).exprs id = _
      rw [Session.lookup?_keep, if_pos rfl]

/-- A declaration is built of the terms of the references in its slots. -/
theorem tracks_declaration (hclosed : ∀ a b, P a → tables.Refers (.exprs, a) (.exprs, b) → P b)
    {record : Json}
    (hslots : ∀ slot ref id, referenceIn? slot record = some ref → Json.label ref = .ok id → P id) :
    (declaration tables record).Tracks tables P (fun d s' =>
      ∀ slot, Option.Rel s'.Holds (referenceIn? slot record) (d.termIn? slot)) s := by
  intro hmirrors d s' hrun
  rw [declaration_eq_run] at hrun
  obtain ⟨hfinal, hextends, hyields⟩ := Recipe.tracks_run tables.keeps_loader
    (leavesTerms_name tables) (leavesTerms_level tables)
    (fun ref s' _ href => tracks_expr hclosed href)
    (Recipe.asksWithin_ofDeclaration hslots) rfl hmirrors d s' hrun
  exact ⟨hfinal, hextends, Recipe.slots_of_yields hyields⟩

/-- Declarations are built one after another, each of the terms in its slots. -/
theorem tracks_declarations (hclosed : ∀ a b, P a → tables.Refers (.exprs, a) (.exprs, b) → P b)
    {records : List Json}
    (hslots : ∀ record ∈ records, ∀ slot ref id, referenceIn? slot record = some ref →
      Json.label ref = .ok id → P id) :
    (Load.each (declaration tables) records).Tracks tables P (fun ds s' =>
      List.Forall₂ (fun record d => ∀ slot, Option.Rel s'.Holds (referenceIn? slot record)
        (Declaration.termIn? slot d)) records ds) s := by
  induction records generalizing s with
  | nil =>
    intro hmirrors ds s' hrun
    cases hrun
    exact ⟨hmirrors, .refl s, .nil⟩
  | cons record rest ih =>
    intro hmirrors ds s' hrun
    obtain ⟨d, s₁, hfirst, hmore⟩ := Load.bind_ok hrun
    obtain ⟨ds', s₂, hrest, hlast⟩ := Load.bind_ok hmore
    cases hlast
    obtain ⟨hmirrors₁, hextends₁, hd⟩ := tracks_declaration hclosed
      (hslots record List.mem_cons_self) hmirrors d s₁ hfirst
    obtain ⟨hmirrors₂, hextends₂, hds⟩ := ih
      (fun record hmem => hslots record (List.mem_cons_of_mem _ hmem)) hmirrors₁ ds' s' hrest
    exact ⟨hmirrors₂, hextends₁.trans hextends₂, .cons (fun slot => hextends₂.rel (hd slot)) hds⟩

/-- Below a term, what stands on a way down was built for the reference on the same way. -/
theorem Session.Mirrors.rel_below (h : s.Mirrors tables P) {ref : Json} {t : Term}
    (hheld : s.Holds ref t) (way : List Nat) :
    Option.Rel s.Holds (tables.referenceBelow? way ref) (t.below? way) := by
  induction way generalizing ref t with
  | nil => exact .some hheld
  | cons i way ih =>
    obtain ⟨id, hlabel, hbuilt⟩ := hheld
    rw [Tables.referenceBelow?, childReference?_label hlabel]
    exact rel_bind (h.children id t hbuilt i) fun child c hchild => ih hchild

end

/-- What a dump is loaded from: its tables and declaration records, and the session that is left. -/
theorem exists_of_load {dump : Json} {m : Module} (h : load dump = .ok m) :
    ∃ records tables s, recordsOf dump.fields = .ok records ∧ tablesOf dump.fields = .ok tables ∧
      moduleOf tables dump.fields Session.empty = .ok m s := by
  cases dump with
  | object fields =>
    simp only [load] at h
    cases htables : tablesOf fields with
    | error e => simp [htables, bind, Except.bind] at h
    | ok tables =>
      simp only [htables, bind, Except.bind] at h
      cases hrun : moduleOf tables fields Session.empty with
      | error e s => simp [hrun] at h
      | ok m' s =>
        simp only [hrun, Except.ok.injEq] at h
        subst h
        obtain ⟨n, s₁, _, hrest⟩ := Load.bind_ok hrun
        cases hrecords : recordsOf fields with
        | error e => simp [hrecords] at hrest
        | ok records => exact ⟨records, tables, s, hrecords, htables, hrun⟩
  | _ => cases h

/-- A session that a module can be read off: at each place the module holds what was built for the
reference that the dump holds there. -/
def Session.Fills (s : Session) (dump : Json) (m : Module) : Prop :=
  ∀ p, Option.Rel s.Holds (referenceAt? dump p) (m.termAt? p)

/-- The session of a module that was loaded mirrors the records that are reached from its
declarations, and the module holds at each place what was built for the reference there. -/
theorem mirrors_of_moduleOf {dump : Json} {m : Module} {records : List Json} {tables : Tables}
    {s : Session} (hrecords : recordsOf dump.fields = .ok records)
    (htables : tablesOf dump.fields = .ok tables)
    (hrun : moduleOf tables dump.fields Session.empty = .ok m s) :
    s.Mirrors tables (ReachedId dump) ∧ s.Fills dump m := by
  have hslots : ∀ record ∈ records, ∀ slot ref id, referenceIn? slot record = some ref →
      Json.label ref = .ok id → ReachedId dump id := fun record hmem slot ref id href hlabel =>
    ⟨records, tables, hrecords, htables, record, hmem, slot, ref, id, href, hlabel, .refl⟩
  have hclosed : ∀ a b, ReachedId dump a → tables.Refers (.exprs, a) (.exprs, b) →
      ReachedId dump b := by
    intro a b hreached hrefers
    obtain ⟨records', tables', hrecords', htables', record, hmem, slot, ref, root, href, hlabel, hreach⟩ :=
      hreached
    obtain rfl : tables' = tables := Except.ok.inj (htables'.symm.trans htables)
    exact ⟨records', tables', hrecords', htables', record, hmem, slot, ref, root, href, hlabel,
      hreach.tail hrefers⟩
  have htracks : (moduleOf tables dump.fields).Tracks tables (ReachedId dump)
      (fun m s => List.Forall₂ (fun record d => ∀ slot, Option.Rel s.Holds (referenceIn? slot record)
        (Declaration.termIn? slot d)) records m.declarations) Session.empty := by
    refine Load.LeavesTerms.tracks_bind (leavesTerms_name tables _) (keeps_name tables _)
      fun n s' _ => ?_
    rw [hrecords]
    intro hmirrors m s hrun
    obtain ⟨ds, s₁, hds, hlast⟩ := Load.bind_ok hrun
    cases hlast
    exact tracks_declarations hclosed hslots hmirrors ds s hds
  obtain ⟨hmirrors, _, hds⟩ := htracks (Session.mirrors_empty tables _) m s hrun
  refine ⟨hmirrors, fun p => ?_⟩
  simp only [referenceAt?, hrecords, htables, Except.toOption, Option.bind_some]
  refine rel_bind (rel_getElem? hds p.declaration) fun record d hslots => ?_
  exact rel_bind (hslots p.slot) fun ref t hheld => hmirrors.rel_below hheld p.way

section

variable {dump : Json} {m : Module} {s : Session} {p q : Place} {t u : Term} {ref ref' : Json}

/-- A term of the module was built for the reference at its place. -/
theorem Session.Fills.exists_reference (h : s.Fills dump m) (ht : m.termAt? p = some t) :
    ∃ ref, referenceAt? dump p = some ref ∧ s.Holds ref t := by
  have hrel := h p
  rw [ht] at hrel
  generalize referenceAt? dump p = found at hrel
  cases hrel with
  | some hheld => exact ⟨_, rfl, hheld⟩

/-- A reference of the dump is answered at its place in the module. -/
theorem Session.Fills.exists_term (h : s.Fills dump m) (href : referenceAt? dump p = some ref) :
    ∃ t, m.termAt? p = some t ∧ s.Holds ref t := by
  have hrel := h p
  rw [href] at hrel
  generalize m.termAt? p = found at hrel
  cases hrel with
  | some hheld => exact ⟨_, rfl, hheld⟩

/-- A term and a reference at one place belong together. -/
theorem Session.Fills.holds (h : s.Fills dump m) (ht : m.termAt? p = some t)
    (href : referenceAt? dump p = some ref) : s.Holds ref t := by
  obtain ⟨u, hu, hheld⟩ := h.exists_term href
  obtain rfl : t = u := Option.some.inj (ht.symm.trans hu)
  exact hheld

/-- What was built for an id that is reached stands somewhere in the module. -/
theorem Session.Fills.exists_place (h : s.Fills dump m) {id : Text} (hreached : ReachedId dump id) :
    ∃ p t, m.termAt? p = some t ∧ lookup? s.exprs id = some t := by
  obtain ⟨p, ref, href, hlabel⟩ := reachedId_iff.1 hreached
  obtain ⟨t, ht, id', hlabel', hbuilt⟩ := h.exists_term href
  cases hlabel.symm.trans hlabel'
  exact ⟨p, t, ht, hbuilt⟩

/-- The nodes numbered so far are those that stand in the module. -/
theorem Session.Fills.lt_next_iff (h : s.Fills dump m) (hmirrors : s.Mirrors tables (ReachedId dump))
    (node : NodeId) : node < s.next ↔ ∃ p t, m.termAt? p = some t ∧ t.id = node := by
  rw [hmirrors.numbered]
  constructor
  · intro hbuilt
    obtain ⟨id, t, ht, hnode⟩ := hbuilt
    obtain ⟨p, u, hu, hfound⟩ := h.exists_place (hmirrors.within id t ht)
    obtain rfl : u = t := Option.some.inj (hfound.symm.trans ht)
    exact ⟨p, u, hu, hnode⟩
  · intro hstands
    obtain ⟨p, t, ht, hnode⟩ := hstands
    obtain ⟨ref, _, id, _, hbuilt⟩ := h.exists_reference ht
    exact ⟨id, t, hbuilt, hnode⟩

/-- Two places hold one node exactly if their references have one id. -/
theorem Session.Fills.same_iff (h : s.Fills dump m) (hmirrors : s.Mirrors tables (ReachedId dump))
    (ht : m.termAt? p = some t) (hu : m.termAt? q = some u)
    (href : referenceAt? dump p = some ref) (href' : referenceAt? dump q = some ref') :
    t.id = u.id ↔ Json.label ref = Json.label ref' := by
  obtain ⟨id, hlabel, htbuilt⟩ := h.holds ht href
  obtain ⟨id', hlabel', hubuilt⟩ := h.holds hu href'
  rw [hlabel, hlabel', Except.ok.injEq]
  constructor
  · exact hmirrors.distinct _ _ t u htbuilt hubuilt
  · intro heq
    subst heq
    rw [Option.some.inj (htbuilt.symm.trans hubuilt)]

/-- The node of what a session has built for an id. -/
def Session.nodeOf (s : Session) (id : Text) : NodeId :=
  ((lookup? s.exprs id).map Term.id).getD 0

/-- The node of what was built for an id is that of the term that was built. -/
theorem Session.nodeOf_eq {id : Text} (h : lookup? s.exprs id = some t) : s.nodeOf id = t.id := by
  simp [nodeOf, h]

/-- The ids that are reached and the nodes of the module are in bijection. -/
theorem Session.Fills.bijOn_nodeOf (h : s.Fills dump m)
    (hmirrors : s.Mirrors tables (ReachedId dump)) :
    Set.BijOn s.nodeOf {id | ReachedId dump id} {n | ∃ p t, m.termAt? p = some t ∧ t.id = n} := by
  refine ⟨?_, ?_, ?_⟩
  · intro id hreached
    obtain ⟨p, t, ht, hfound⟩ := h.exists_place hreached
    exact ⟨p, t, ht, (Session.nodeOf_eq hfound).symm⟩
  · intro a ha b hb heq
    obtain ⟨_, t, _, ht⟩ := h.exists_place ha
    obtain ⟨_, u, _, hu⟩ := h.exists_place hb
    rw [Session.nodeOf_eq ht, Session.nodeOf_eq hu] at heq
    exact hmirrors.distinct a b t u ht hu heq
  · intro node hstands
    obtain ⟨p, t, ht, hnode⟩ := hstands
    obtain ⟨ref, href, id, hlabel, hbuilt⟩ := h.exists_reference ht
    exact ⟨id, reachedId_iff.2 ⟨p, ref, href, hlabel⟩, (Session.nodeOf_eq hbuilt).trans hnode⟩

end

/-- The nodes of a module are one for each term record that is reached from the declarations of the
dump that it was loaded from. -/
structure OneNodePerRecord (dump : Json) (m : Module) : Prop where
  /-- The module holds terms at the places where the dump holds references. -/
  places : ∀ p, (m.termAt? p).isSome = (referenceAt? dump p).isSome
  /-- Two places hold one node if and only if their references have one id. -/
  same_iff : ∀ p q t u ref ref', m.termAt? p = some t → m.termAt? q = some u →
    referenceAt? dump p = some ref → referenceAt? dump q = some ref' →
      (t.id = u.id ↔ ref.label = ref'.label)
  /-- One node is one term wherever it stands. -/
  consistent : ∀ p q t u, m.termAt? p = some t → m.termAt? q = some u → t.id = u.id → t = u
  /-- The ids that are reached and the nodes are in bijection, the node of an id being the one that
  stands where the id is referred to. -/
  bijective : ∃ node : Text → NodeId,
    (∀ p t ref, m.termAt? p = some t → referenceAt? dump p = some ref →
      ∃ id, ref.label = .ok id ∧ node id = t.id) ∧
      Set.BijOn node {id | ReachedId dump id} {n | ∃ p t, m.termAt? p = some t ∧ t.id = n}
  /-- No other node was made on the way. -/
  made : ∃ tables s, tablesOf dump.fields = .ok tables ∧
    moduleOf tables dump.fields Session.empty = .ok m s ∧
      ∀ n, n < s.next ↔ ∃ p t, m.termAt? p = some t ∧ t.id = n

/-- Whatever a dump holds, loading it builds one node for each term record that is reached from its
declarations, no matter which declaration reaches a record first and whether it is built along a
chain of applications or by itself. -/
theorem load_builds_one_node_per_record {dump : Json} {m : Module} (h : load dump = .ok m) :
    OneNodePerRecord dump m := by
  obtain ⟨records, tables, s, hrecords, htables, hrun⟩ := exists_of_load h
  obtain ⟨hmirrors, hfills⟩ := mirrors_of_moduleOf hrecords htables hrun
  refine ⟨?_, ?_, ?_, ?_, tables, s, htables, hrun, hfills.lt_next_iff hmirrors⟩
  · intro p
    have hrel := hfills p
    generalize referenceAt? dump p = x, m.termAt? p = y at hrel
    cases hrel <;> rfl
  · intro p q t u ref ref' ht hu href href'
    exact hfills.same_iff hmirrors ht hu href href'
  · intro p q t u ht hu heq
    obtain ⟨ref, href, id, hlabel, htbuilt⟩ := hfills.exists_reference ht
    obtain ⟨ref', href', id', hlabel', hubuilt⟩ := hfills.exists_reference hu
    have hsame := (hfills.same_iff hmirrors ht hu href href').1 heq
    rw [hlabel, hlabel', Except.ok.injEq] at hsame
    exact Option.some.inj (htbuilt.symm.trans (hsame ▸ hubuilt))
  · refine ⟨s.nodeOf, ?_, hfills.bijOn_nodeOf hmirrors⟩
    intro p t ref ht href
    obtain ⟨id, hlabel, hbuilt⟩ := hfills.holds ht href
    exact ⟨id, hlabel, Session.nodeOf_eq hbuilt⟩

/-- A pair of one leaf, reached through a binder first and as the value of a theorem later: the pair
is made along a chain, the binder by itself, and there are three nodes in all. -/
theorem load_builds_one_node_for_pair_below_binder :
    let dump : Json := .object
      [("exprs", .object
          [("a", .object [("kind", .text "bvar"), ("index", .int 0)]),
            ("f", .object [("kind", .text "app"), ("fn", .text "a"), ("arg", .text "a")]),
            ("l", .object [("kind", .text "lam"), ("type", .text "f"), ("body", .text "a")])]),
        ("declarations", .list
          [.object [("name", .null), ("type", .text "l"), ("kind", .text "axiom")],
            .object [("name", .null), ("type", .text "a"), ("kind", .text "theorem"),
              ("value", .text "f")]])]
    let pair : Term := .app 1 (.boundVar 0 0) (.boundVar 0 0)
    let m : Module := ⟨.anonymous,
      [.mk .anonymous (.lambda 2 pair (.boundVar 0 0) .anonymous) .assumption,
        .mk .anonymous (.boundVar 0 0) (.proof pair)]⟩
    load dump = .ok m ∧ OneNodePerRecord dump m := by
  intro dump pair m
  have hload : load dump = .ok m := by rfl
  exact ⟨hload, load_builds_one_node_per_record hload⟩

end TermText.Dump
