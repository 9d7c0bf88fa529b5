import TermText.Dump.Load
import TermText.Proofs.Json.Fields
import TermText.Proofs.Json.Labels

/-!
# Steps of a session

What each kind of step makes of a session. Of a step that resolves a reference there are four
outcomes: the object was built before, there is no such record, the record is being built, or its
object is built while the record is marked.
-/

namespace TermText.Dump

variable {α β : Type}

/-- What is blamed on a record names it, and is no fault that stands for itself. -/
theorem Error.blameRecord_ne_fault (e : Error) (table : Table) (id : Text) (f : Fault) :
    e.blameRecord table id ≠ .fault f := by
  cases e <;> simp [blameRecord]

/-- Nor is it taken for a field that a declaration lacks. -/
theorem Error.blameDeclaration_of_ne_fault {e : Error} (h : ∀ f, e ≠ .fault f) :
    e.blameDeclaration = e := by
  cases e with
  | fault f => exact absurd rfl (h f)
  | _ => rfl

namespace Session

/-- Unmarking a record that is not being built changes nothing. -/
theorem stop_of_idle {s : Session} {table : Table} {id : Text}
    (hidle : s.isActive table id = false) : s.stop table id = s := by
  have hmem : (table, id) ∉ s.active := by simpa [isActive] using hidle
  have hactive : s.active.filter (· ≠ (table, id)) = s.active := by
    refine List.filter_eq_self.mpr fun key hkey => ?_
    simp only [decide_eq_true_eq]
    intro heq
    subst heq
    exact hmem hkey
  rw [stop, hactive]

/-- Marking a record that is not being built, and unmarking it, changes nothing. -/
theorem stop_start {s : Session} {table : Table} {id : Text}
    (hidle : s.isActive table id = false) : (s.start table id).stop table id = s := by
  have hstop : (s.start table id).stop table id = s.stop table id := by
    simp [stop, start]
  rw [hstop, stop_of_idle hidle]

/-- Unmarking two records may be done in either order. -/
theorem stop_comm (s : Session) (table table' : Table) (id id' : Text) :
    (s.stop table id).stop table' id' = (s.stop table' id').stop table id := by
  simp only [stop, List.filter_filter, Bool.and_comm]

/-- Which records are being built after one was unmarked depends on which were before. -/
theorem stop_active_congr {s s' : Session} (h : s.active = s'.active) {table : Table} {id : Text} :
    (s.stop table id).active = (s'.stop table id).active := by
  rw [stop, stop, h]

end Session

namespace Load

/-- Giving an answer leaves the session as it is. -/
@[simp] theorem pure_apply (a : α) (s : Session) : (pure a : Load α) s = .ok a s := rfl

/-- So does failing. -/
@[simp] theorem throw_apply (e : Error) (s : Session) : (throw e : Load α) s = .error e s := rfl

/-- A step is followed by another one unless it fails. -/
@[simp] theorem bind_apply (m : Load α) (f : α → Load β) (s : Session) :
    (m >>= f) s = match m s with
      | .ok a s' => f a s'
      | .error e s' => .error e s' := by
  change EStateM.bind m f s = _
  unfold EStateM.bind
  cases m s <;> rfl

/-- If a step and what follows it succeed, both do. -/
theorem bind_ok {m : Load α} {f : α → Load β} {s s'' : Session} {b : β}
    (h : (m >>= f) s = .ok b s'') : ∃ a s', m s = .ok a s' ∧ f a s' = .ok b s'' := by
  rw [bind_apply] at h
  cases hstep : m s with
  | ok a s' => exact ⟨a, s', rfl, by rwa [hstep] at h⟩
  | error e s' =>
    rw [hstep] at h
    cases h

/-- If they fail, the step does, or it succeeds and what follows it fails. -/
theorem bind_error {m : Load α} {f : α → Load β} {s s'' : Session} {e : Error}
    (h : (m >>= f) s = .error e s'') :
    m s = .error e s'' ∨ ∃ a s', m s = .ok a s' ∧ f a s' = .error e s'' := by
  rw [bind_apply] at h
  cases hstep : m s with
  | ok a s' => exact .inr ⟨a, s', rfl, by rwa [hstep] at h⟩
  | error e' s' =>
    rw [hstep] at h
    cases h
    exact .inl rfl

/-- An answer is changed in the session that it is found in. -/
@[simp] theorem map_apply (f : α → β) (m : Load α) (s : Session) :
    (f <$> m) s = match m s with
      | .ok a s' => .ok (f a) s'
      | .error e s' => .error e s' := by
  change EStateM.map f m s = _
  unfold EStateM.map
  cases m s <;> rfl

/-- The session is got as it is. -/
@[simp] theorem get_apply (s : Session) : (get : Load Session) s = .ok s s := rfl

/-- A number that is given out is not given out again. -/
@[simp] theorem fresh_apply (s : Session) :
    fresh s = .ok s.next { s with next := s.next + 1 } := rfl

/-- A label is written without regard to the session. -/
@[simp] theorem written_apply (x : Except Numeral.Error Text) (s : Session) :
    written x s = match x with
      | .ok t => .ok t s
      | .error e => .error (.fault (.numeral e)) s := by
  cases x <;> rfl

/-- A text that is written is the one that was given, and the session is left as it is. -/
theorem written_ok {x : Except Numeral.Error Text} {t : Text} {s s' : Session}
    (h : written x s = .ok t s') : x = .ok t ∧ s = s' := by
  cases x with
  | ok t =>
    obtain ⟨rfl, rfl⟩ := EStateM.Result.ok.inj h
    exact ⟨rfl, rfl⟩
  | error e => cases h

/-- An error is blamed in the session that it leaves. -/
@[simp] theorem blaming_apply (blame : Error → Error) (m : Load α) (s : Session) :
    blaming blame m s = match m s with
      | .ok a s' => .ok a s'
      | .error e s' => .error (blame e) s' := by
  simp only [blaming, EStateM.adaptExcept]
  cases m s <;> rfl

/-- The four outcomes of resolving a reference. -/
theorem resolve_apply (shelf : Shelf α) (build : Text → Json → Load α) (id : Text) (s : Session) :
    resolve shelf build id s =
      match lookup? (shelf.built s) id, Json.Fields.get? shelf.records id with
      | some x, _ => .ok x s
      | none, none => .error (.unknown shelf.table id) s
      | none, some record =>
        if s.isActive shelf.table id then .error (.cyclic shelf.table id) s
        else match build id record (s.start shelf.table id) with
          | .ok x s' => .ok x (shelf.remember id x (s'.stop shelf.table id))
          | .error e s' => .error (shelf.blame id e) (s'.stop shelf.table id) := by
  unfold resolve
  rw [bind_apply, get_apply]
  dsimp only
  cases lookup? (shelf.built s) id with
  | some x => rfl
  | none =>
    cases Json.Fields.get? shelf.records id with
    | none => rfl
    | some record =>
      dsimp only
      split
      · rfl
      · simp only [bind_apply, during, List.foldl_cons, List.foldl_nil, blaming_apply]
        cases build id record (s.start shelf.table id) <;> rfl

/-- A fault that stands for itself after a reference was resolved is what blame left of an error that
was met while its record was built. -/
theorem exists_blame_of_resolve {shelf : Shelf α} {build : Text → Json → Load α} {id : Text}
    {s s' : Session} {f : Fault} (h : resolve shelf build id s = .error (.fault f) s') :
    ∃ record e s'', Json.Fields.get? shelf.records id = some record ∧
      build id record (s.start shelf.table id) = .error e s'' ∧ shelf.blame id e = .fault f := by
  rw [resolve_apply] at h
  split at h
  · cases h
  · cases h
  · rename_i record _ hrecord
    split at h
    · cases h
    · split at h
      · cases h
      · rename_i e s'' hstep
        exact ⟨record, e, s'', hrecord, hstep, (EStateM.Result.error.inj h).1⟩

/-- A reference is resolved alike by two ways to build that agree on its record, where that is
entered. -/
theorem resolve_congr {shelf : Shelf α} {build build' : Text → Json → Load α} {id : Text}
    {s : Session}
    (h : ∀ record, Json.Fields.get? shelf.records id = some record →
      s.isActive shelf.table id = false →
        build id record (s.start shelf.table id) = build' id record (s.start shelf.table id)) :
    resolve shelf build id s = resolve shelf build' id s := by
  rw [resolve_apply, resolve_apply]
  cases lookup? (shelf.built s) id with
  | some x => rfl
  | none =>
    cases hrecord : Json.Fields.get? shelf.records id with
    | none => rfl
    | some record =>
      cases hidle : s.isActive shelf.table id with
      | true => rfl
      | false => simp only [h record hrecord hidle]

/-- It does not matter how errors are blamed if the object was built before, or if blame is the same. -/
theorem resolve_congr_blame {shelf : Shelf α} {blame : Text → Error → Error} {build : Text → Json → Load α}
    {id : Text} {s : Session}
    (h : lookup? (shelf.built s) id ≠ none ∨ ∀ e, blame id e = shelf.blame id e) :
    resolve shelf build id s = resolve { shelf with blame } build id s := by
  rw [resolve_apply, resolve_apply]
  dsimp only
  cases hbuilt : lookup? (shelf.built s) id with
  | some x => rfl
  | none => simp only [h.resolve_left (absurd hbuilt)]

end Load

end TermText.Dump
