import TermText.Proofs.Dump.Course
import TermText.Proofs.Dump.Recursion

/-!
# Every reference is settled

No reference is left unsettled for lack of a bound on the nesting: whatever the tables hold, cycles
included, a name, a level or a term is found or a fault of the dump is reported. The induction is on
the number of records that may still be entered.
-/

namespace TermText.Dump

variable {α β ν : Type}

/-- Blaming a record takes no error for the lack of a bound. -/
theorem Error.eq_unfinished_of_blameRecord {table : Table} {id : Text} {e : Error}
    (h : e.blameRecord table id = .unfinished) : e = .unfinished := by
  cases e <;> simp_all [blameRecord]

/-- A step that does not run out of its bound in a session. -/
def Load.Finishes (m : Load α) (s : Session) : Prop :=
  ∀ s', m s ≠ .error .unfinished s'

namespace Load

/-- Giving an answer ends. -/
theorem finishes_pure (a : α) (s : Session) : (pure a : Load α).Finishes s := by
  intro s' h
  cases h

/-- So does failing with an error other than the lack of an end. -/
theorem finishes_throw {e : Error} (he : e ≠ .unfinished) (s : Session) :
    (throw e : Load α).Finishes s := by
  intro s' h
  cases h
  exact he rfl

/-- So does writing a label. -/
theorem finishes_written (x : Except Numeral.Error Text) (s : Session) : (written x).Finishes s := by
  cases x with
  | ok t => exact finishes_pure t s
  | error e => exact finishes_throw (by simp) s

/-- Two steps end if the first does, and the second wherever the first succeeds. -/
theorem Finishes.bind {m : Load α} {f : α → Load β} {s : Session} (hm : m.Finishes s)
    (hf : ∀ a s', m s = .ok a s' → (f a).Finishes s') : (m >>= f).Finishes s := by
  intro s' h
  rcases bind_error h with hstep | ⟨a, s'', hstep, hnext⟩
  · exact hm _ hstep
  · exact hf a s'' hstep s' hnext

/-- Resolving a reference finishes if building its record does, and no other error is taken for the lack
of a bound. -/
theorem finishes_resolve {shelf : Shelf α} {build : Text → Json → Load α} {id : Text} {s : Session}
    (hblame : ∀ id e, shelf.blame id e = .unfinished → e = .unfinished)
    (h : ∀ record, Json.Fields.get? shelf.records id = some record →
      s.isActive shelf.table id = false → (build id record).Finishes (s.start shelf.table id)) :
    (resolve shelf build id).Finishes s := by
  intro s' hs
  rw [resolve_apply] at hs
  cases hbuilt : lookup? (shelf.built s) id with
  | some x => simp [hbuilt] at hs
  | none =>
    cases hrecord : Json.Fields.get? shelf.records id with
    | none => simp [hbuilt, hrecord] at hs
    | some record =>
      cases hidle : s.isActive shelf.table id with
      | true => simp [hbuilt, hrecord, hidle] at hs
      | false =>
        cases hstep : build id record (s.start shelf.table id) with
        | ok x s'' => simp [hbuilt, hrecord, hidle, hstep] at hs
        | error e s'' =>
          simp only [hbuilt, hrecord, hidle, hstep, Bool.false_eq_true, if_false,
            EStateM.Result.error.injEq] at hs
          obtain rfl := hblame id e hs.1
          exact h record hrecord hidle s'' hstep

end Load

/-- A loader all of whose steps finish in the sessions of a kind. -/
structure Loader.Finishes (loader : Loader) (P : Session → Prop) : Prop where
  name : ∀ ref s, P s → (loader.name ref).Finishes s
  level : ∀ ref s, P s → (loader.level ref).Finishes s
  expr : ∀ ref s, P s → (loader.expr ref).Finishes s

/-- A recipe finishes if its requests do while the same records are being built. -/
theorem Recipe.finishes_run {View : α → ν → Prop} {refs : List Key} {r r' : Recipe α}
    (hcourse : r.SameCourse View refs r') {loader : Loader} (hkeeps : loader.Keeps)
    {active : List Key} (h : loader.Finishes fun s => s.active = active) {s : Session}
    (hs : s.active = active) : (r.run loader).Finishes s := by
  induction r generalizing refs r' s with
  | done a => exact Load.finishes_pure a s
  | fail e =>
    cases r' with
    | fail e' => exact Load.finishes_throw hcourse.2 s
    | _ => exact hcourse.elim
  | askName ref next ih =>
    cases r' with
    | askName ref' next' =>
      obtain ⟨_, rest, _, hnext⟩ := hcourse
      exact (h.name ref s hs).bind fun n s' hs' =>
        ih n (hnext n) (((hkeeps.name ref).active_eq hs').trans hs)
    | _ => exact hcourse.elim
  | askLevel ref next ih =>
    cases r' with
    | askLevel ref' next' =>
      obtain ⟨_, rest, _, hnext⟩ := hcourse
      exact (h.level ref s hs).bind fun l s' hs' =>
        ih l (hnext l) (((hkeeps.level ref).active_eq hs').trans hs)
    | _ => exact hcourse.elim
  | askExpr ref next ih =>
    cases r' with
    | askExpr ref' next' =>
      obtain ⟨_, rest, _, hnext⟩ := hcourse
      exact (h.expr ref s hs).bind fun t s' hs' =>
        ih t (hnext t t rfl) (((hkeeps.expr ref).active_eq hs').trans hs)
    | _ => exact hcourse.elim

/-- Resolving a reference finishes if requests finish in sessions with less room. -/
theorem Load.finishes_resolve_run {shelf : Shelf α} {recipe : Text → Json → Recipe β}
    {finish : β → Load α} {View : β → ν → Prop} {refs : Json → List Key}
    (hcourse : ∀ id record, (recipe id record).SameCourse View (refs record) (recipe id record))
    (hfinish : ∀ b s, (finish b).Finishes s)
    (hblame : ∀ id e, shelf.blame id e = .unfinished → e = .unfinished) {loader : Loader}
    (hkeeps : loader.Keeps) {s : Session}
    (h : loader.Finishes fun s' =>
      s'.room shelf.table shelf.records < s.room shelf.table shelf.records) (id : Text) :
    (resolve shelf (fun id record => (recipe id record).run loader >>= finish) id).Finishes s := by
  refine finishes_resolve hblame fun record hrecord hidle => ?_
  have hless (s' : Session) (hs' : s'.active = (s.start shelf.table id).active) :
      s'.room shelf.table shelf.records < s.room shelf.table shelf.records := by
    rw [Session.room_congr hs']
    exact Session.room_start_lt hidle hrecord
  exact (Recipe.finishes_run (hcourse id record) hkeeps
    ⟨fun ref s' hs' => h.name ref s' (hless s' hs'), fun ref s' hs' => h.level ref s' (hless s' hs'),
      fun ref s' hs' => h.expr ref s' (hless s' hs')⟩ rfl).bind fun b s' _ => hfinish b s'

/-- A reference that is left unanswered ends the step. -/
theorem Load.finishes_unanswered (ref : Json) (s : Session) :
    (Load.unanswered ref : Load α).Finishes s :=
  Load.finishes_throw (by simp) s

/-- A name is found or a fault is reported, in every session. -/
theorem finishes_name (tables : Tables) (ref : Json) (s : Session) : (name tables ref).Finishes s := by
  induction hroom : s.room .names tables.names using Nat.strongRecOn generalizing ref s with
  | _ room ih =>
    have hresolve (id : Text) :
        (Load.resolve tables.nameShelf (buildName (name tables)) id).Finishes s := by
      rw [buildName_eq]
      exact Load.finishes_resolve_run Recipe.sameCourse_ofName Load.finishes_pure
        (fun _ _ => Error.eq_unfinished_of_blameRecord) (Loader.keeps_names (keeps_name tables))
        ⟨fun ref' s' hs' => ih _ (hroom ▸ hs') ref' s' rfl,
          fun ref' s' _ => Load.finishes_unanswered ref' s',
          fun ref' s' _ => Load.finishes_unanswered ref' s'⟩ id
    rw [name_eq]
    cases ref with
    | null => exact Load.finishes_pure _ s
    | _ => exact (Load.finishes_written _ s).bind fun id s' hs' =>
        (Load.written_ok hs').2 ▸ hresolve id

/-- A level is found or a fault is reported, in every session. -/
theorem finishes_level (tables : Tables) (ref : Json) (s : Session) :
    (level tables ref).Finishes s := by
  induction hroom : s.room .levels tables.levels using Nat.strongRecOn generalizing ref s with
  | _ room ih =>
    rw [level_eq, levelStep, buildLevel_eq]
    refine (Load.finishes_written _ s).bind fun id s' hs' => (Load.written_ok hs').2 ▸ ?_
    exact Load.finishes_resolve_run Recipe.sameCourse_ofLevel Load.finishes_pure
      (fun _ _ => Error.eq_unfinished_of_blameRecord) (Loader.keeps_levels tables (keeps_level tables))
      ⟨fun ref' s' _ => finishes_name tables ref' s', fun ref' s' hs' => ih _ (hroom ▸ hs') ref' s' rfl,
        fun ref' s' _ => Load.finishes_unanswered ref' s'⟩ _

/-- Giving a node a number ends. -/
theorem finishes_allot (make : NodeId → Term) (s : Session) : (allot make).Finishes s := by
  intro s' h
  simp [allot] at h

/-- A term is found by recursion or a fault is reported, in every session. -/
theorem finishes_nestedExpr (tables : Tables) {blame : Text → Error → Error}
    (hblame : ∀ id e, blame id e = .unfinished → e = .unfinished) (ref : Json) (s : Session) :
    (nestedExpr tables blame ref).Finishes s := by
  induction hroom : s.room .exprs tables.exprs using Nat.strongRecOn generalizing ref s with
  | _ room ih =>
    rw [nestedExpr_eq, nestedStep, buildExpr_eq]
    refine (Load.finishes_written _ s).bind fun id s' hs' => (Load.written_ok hs').2 ▸ ?_
    exact Load.finishes_resolve_run Recipe.sameCourse_ofExpr finishes_allot hblame
      (Loader.keeps_exprs tables (keeps_nestedExpr tables blame))
      ⟨fun ref' s' _ => finishes_name tables ref' s', fun ref' s' _ => finishes_level tables ref' s',
        fun ref' s' hs' => ih _ (hroom ▸ hs') ref' s' rfl⟩ _

end TermText.Dump
