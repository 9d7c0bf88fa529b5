import TermText.Proofs.Dump.Termination

/-!
# Chains of applications

Building an application along its chain agrees with recursion in every session, if recursion leaves a
reference without a label in an application record to be blamed further out, as the chain does. The walk
down to the head marks the records of the chain in the order in which recursion would enter them,
and folding the chain up unmarks each one where recursion would leave it. So one step of the
walk can be moved into the fold, and the induction is on the bound of the walk.

Arguments are found in sessions where a record of the chain is still marked, so they have less room
than the session that the walk began in.
-/

namespace TermText.Dump

namespace Session

/-- The session with the records of a chain marked as being built. -/
def enter (s : Session) : List (Text × Json) → Session
  | [] => s
  | link :: rest => (s.enter rest).start .exprs link.1

/-- The session with the records of a chain marked as no longer being built. -/
def leave (s : Session) : List (Text × Json) → Session
  | [] => s
  | link :: rest => (s.leave rest).stop .exprs link.1

/-- Entering a chain forgets no term. -/
@[simp] theorem enter_exprs (s : Session) (chain : List (Text × Json)) :
    (s.enter chain).exprs = s.exprs := by
  induction chain with
  | nil => rfl
  | cons link rest ih => exact ih

/-- A chain is entered record by record, the one that was passed first at first. -/
theorem enter_eq_foldl (s : Session) (chain : List (Text × Json)) :
    s.enter chain =
      (chain.reverse.map Prod.fst).foldl (fun s id => s.start .exprs id) s := by
  induction chain with
  | nil => rfl
  | cons link rest ih => rw [List.reverse_cons, List.map_append, List.foldl_append, ← ih]; rfl

/-- Leaving a chain releases its links one by one, from the head outwards. -/
theorem leave_eq_foldl (s : Session) (chain : List (Text × Json)) :
    s.leave chain =
      (chain.reverse.map Prod.fst).foldl (fun s id => s.stop .exprs id) s := by
  induction chain with
  | nil => rfl
  | cons link rest ih => rw [List.reverse_cons, List.map_append, List.foldl_append, ← ih]; rfl

/-- The records of a chain are being built beside those that were. -/
theorem isActive_enter (s : Session) (chain : List (Text × Json)) (id : Text) :
    (s.enter chain).isActive .exprs id =
      (chain.any (fun link => link.1 = id) || s.isActive .exprs id) := by
  induction chain with
  | nil => rfl
  | cons link rest ih =>
    have hstart : ((s.enter rest).start .exprs link.1).isActive .exprs id =
        (decide (link.1 = id) || (s.enter rest).isActive .exprs id) := by
      simp [start, isActive, eq_comm, Bool.decide_or]
    rw [enter, hstart, ih, List.any_cons, Bool.or_assoc]

/-- A record may be unmarked before or after those of a chain. -/
theorem leave_stop (s : Session) (chain : List (Text × Json)) (table : Table) (id : Text) :
    (s.stop table id).leave chain = (s.leave chain).stop table id := by
  induction chain with
  | nil => rfl
  | cons link rest ih => rw [leave, ih, stop_comm, leave]

/-- Which records are being built after a chain was left depends on which were before. -/
theorem leave_active_congr {s s' : Session} (h : s.active = s'.active)
    (chain : List (Text × Json)) : (s.leave chain).active = (s'.leave chain).active := by
  induction chain with
  | nil => exact h
  | cons link rest ih => exact stop_active_congr ih

end Session

/-- A chain of application records none of which was being built when the walk passed it. -/
def Tables.Passed (tables : Tables) (s : Session) : List (Text × Json) → Prop
  | [] => True
  | (id, record) :: rest =>
    (s.enter rest).isActive .exprs id = false ∧ tables.app? id = some record ∧ tables.Passed s rest

variable {tables : Tables} {s : Session} {chain : List (Text × Json)} {id : Text} {record : Json}

/-- An application record is a record of the table whose kind is the word for applications. -/
theorem exists_kind_of_app? (h : tables.app? id = some record) :
    Json.Fields.get? tables.exprs id = some record ∧
      ∃ kind, record.field "kind" = .ok kind ∧ ExprKind.ofJson? kind = some .app := by
  unfold Tables.app? at h
  cases hrecord : Json.Fields.get? tables.exprs id with
  | none => simp [hrecord] at h
  | some found =>
    cases hkind : Json.Fields.get? found.fields "kind" with
    | none => simp [hrecord, hkind] at h
    | some kind =>
      obtain ⟨happ, rfl⟩ : ExprKind.ofJson? kind = some .app ∧ found = record := by
        simpa [hrecord, hkind] using h
      refine ⟨rfl, kind, ?_, happ⟩
      cases found with
      | object fields =>
        have hfields : Json.Fields.get? fields "kind" = some kind := hkind
        simp [Json.field, hfields]
      | _ => simp [Json.fields, Json.Fields.get?] at hkind

/-- An error that is met in a record, as terms blame it that are built along chains: of an application
record a missing field is a fault of the record, but not a reference that has no label. -/
def Tables.blameLink (tables : Tables) (id : Text) (e : Error) : Error :=
  match tables.app? id, e with
  | some _, .fault (.numeral error) => .fault (.numeral error)
  | _, e => e.blameRecord .exprs id

/-- The shelf of terms with errors being blamed as chains blame them. -/
def Tables.linkShelf (tables : Tables) : Shelf Term :=
  tables.blamingShelf tables.blameLink

/-- The term that a reference stands for by recursion, errors being blamed as chains blame them. -/
def linkedExpr (tables : Tables) : Json → Load Term :=
  nestedExpr tables tables.blameLink

/-- The term of the record of an id by the same recursion. -/
def linkedAt (tables : Tables) (id : Text) : Load Term :=
  Load.resolve tables.linkShelf (buildExpr tables (linkedExpr tables)) id

/-- A reference is resolved by its label. -/
theorem linkedExpr_eq (tables : Tables) (ref : Json) :
    linkedExpr tables ref = Load.written ref.label >>= linkedAt tables :=
  congrFun (nestedExpr_eq tables tables.blameLink) ref

/-- A text is its own label. -/
theorem linkedExpr_text (tables : Tables) (id : Text) :
    linkedExpr tables (.text id) = linkedAt tables id :=
  linkedExpr_eq tables (.text id)

/-- Resolving a reference leaves the same records being built. -/
theorem keeps_linkedExpr (tables : Tables) (ref : Json) : (linkedExpr tables ref).Keeps :=
  keeps_nestedExpr tables tables.blameLink ref

/-- A record that is no application is blamed for every fault in it. -/
theorem Tables.blameLink_of_none (happ : tables.app? id = none) (e : Error) :
    tables.blameLink id e = e.blameRecord .exprs id := by
  simp [blameLink, happ]

/-- A fault that stands for itself after blame is a reference without a label in an application record. -/
theorem Tables.exists_app_of_blameLink {e : Error} {f : Fault} (h : tables.blameLink id e = .fault f) :
    (tables.app? id).isSome ∧ e = .fault f ∧ ∃ error, f = .numeral error := by
  unfold blameLink at h
  split at h
  · next happ =>
    obtain rfl := Error.fault.inj h
    exact ⟨by rw [happ]; rfl, rfl, _, rfl⟩
  · exact absurd h (Error.blameRecord_ne_fault _ _ _ _)

/-- Of all faults only a reference without a label stands for itself after a reference was resolved. -/
theorem exists_numeral_of_linkedExpr {ref : Json} {s s' : Session} {f : Fault}
    (h : linkedExpr tables ref s = .error (.fault f) s') : ∃ error, f = .numeral error := by
  rw [linkedExpr_eq, Load.bind_apply, Load.written_apply] at h
  cases hlabel : ref.label with
  | error e =>
    rw [hlabel] at h
    cases h
    exact ⟨e, rfl⟩
  | ok id =>
    rw [hlabel] at h
    obtain ⟨_, e, _, _, _, hblame⟩ := Load.exists_blame_of_resolve h
    exact (Tables.exists_app_of_blameLink hblame).2.2

/-- What is met while the references of an application record are resolved is not blamed on it. -/
theorem Tables.blameLink_of_linkedExpr (happ : tables.app? id = some record) {ref : Json}
    {s s' : Session} {e : Error} (h : linkedExpr tables ref s = .error e s') :
    tables.blameLink id e = e := by
  cases e with
  | fault f =>
    obtain ⟨error, rfl⟩ := exists_numeral_of_linkedExpr h
    simp [blameLink, happ]
  | _ => simp [blameLink, Error.blameRecord]

/-- Building an application record finds its function and then its argument. -/
theorem buildExpr_of_app (happ : tables.app? id = some record) (resolve : Json → Load Term) :
    buildExpr tables resolve id record = (do
      let fn ← resolve (← Load.field "fn" record)
      let arg ← resolve (← Load.field "arg" record)
      return .app (← Load.fresh) fn arg) := by
  obtain ⟨_, kind, hkind, happ⟩ := exists_kind_of_app? happ
  have hfield : Load.field "kind" record = pure kind := by
    rw [Load.field, hkind, Load.ofAccess]
  simp [buildExpr, hfield, happ]

/-- A chain that was passed can be left again, and no mark remains. -/
theorem Tables.Passed.leave_enter (h : tables.Passed s chain) : (s.enter chain).leave chain = s := by
  induction chain with
  | nil => rfl
  | cons link rest ih =>
    rw [Session.leave, ← Session.leave_stop, Session.enter, Session.stop_start h.1, ih h.2.2]

/-- The last record of a chain that was passed leaves less room. -/
theorem Tables.Passed.room_lt (h : tables.Passed s ((id, record) :: chain)) :
    (s.enter ((id, record) :: chain)).room .exprs tables.exprs <
      (s.enter chain).room .exprs tables.exprs :=
  Session.room_start_lt h.1 (exists_kind_of_app? h.2.1).1

/-- All records of a chain that was passed leave less room. -/
theorem Tables.Passed.room_enter_lt (h : tables.Passed s ((id, record) :: chain)) :
    (s.enter ((id, record) :: chain)).room .exprs tables.exprs < s.room .exprs tables.exprs := by
  induction chain generalizing id record with
  | nil => exact h.room_lt
  | cons link rest ih => exact Nat.lt_trans h.room_lt (ih h.2.2)

/-- A record of a chain that was passed was not being built when the walk began. -/
theorem Tables.Passed.idle (h : tables.Passed s ((id, record) :: chain)) :
    s.isActive .exprs id = false := by
  have hidle := h.1
  rw [Session.isActive_enter, Bool.or_eq_false_iff] at hidle
  exact hidle.2

/-- A field is read from its record alone. -/
@[simp] theorem Load.field_apply (key : Text) (record : Json) (s : Session) :
    Load.field key record s = match record.field key with
      | .ok value => .ok value s
      | .error e => .error (.fault (.access e)) s := by
  unfold Load.field
  cases record.field key <;> rfl

/-- So is a field of a link, and the lack of it is blamed on the link. -/
@[simp] theorem linkField_apply (key id : Text) (record : Json) (s : Session) :
    linkField key id record s = match record.field key with
      | .ok value => .ok value s
      | .error e => .error (.malformed .exprs id (.access e)) s := by
  unfold linkField
  rw [Load.blaming_apply, Load.field_apply]
  cases record.field key <;> rfl

/-- The session that remembers an application and lets go of its record; the application carries the
identity that was next. -/
def Tables.keepApp (tables : Tables) (id : Text) (fn arg : Term) (s : Session) : Session :=
  (tables.exprShelf.remember id (.app s.next fn arg) { s with next := s.next + 1 }).stop .exprs id

/-- Letting go of the last record of a chain leaves the others of it being built. -/
theorem Tables.Passed.keepApp_active (h : tables.Passed s ((id, record) :: chain)) {s' : Session}
    (hs' : s'.active = (s.enter ((id, record) :: chain)).active) (fn arg : Term) :
    (tables.keepApp id fn arg s').active = (s.enter chain).active :=
  (Session.stop_active_congr hs').trans (congrArg Session.active (Session.stop_start h.1))

/-- One step of folding a chain up. -/
theorem foldChain_cons_apply (tables : Tables) (resolve : Json → Load Term) (node : Term)
    (id : Text) (record : Json) (rest : List (Text × Json)) (s : Session) :
    foldChain tables resolve node ((id, record) :: rest) s = match record.field "arg" with
      | .error e => .error (.malformed .exprs id (.access e)) s
      | .ok ref => match resolve ref s with
        | .error e s' => .error e s'
        | .ok arg s' =>
          foldChain tables resolve (.app s'.next node arg) rest (tables.keepApp id node arg s') := by
  rw [foldChain, Load.bind_apply, linkField_apply]
  cases record.field "arg" with
  | error e => rfl
  | ok ref =>
    dsimp only
    rw [Load.bind_apply]
    cases resolve ref s <;> rfl

/-- A step taken while the records of a chain are being built, followed by the application of the
term that it finds to the arguments of the chain. -/
def alongChain (tables : Tables) (resolve : Json → Load Term) (head : Load Term)
    (chain : List (Text × Json)) : Load Term :=
  Load.during .exprs (chain.reverse.map Prod.fst) do
    foldChain tables resolve (← head) chain

/-- What is done along a chain is done with its links being built, and they are released in the end. -/
theorem alongChain_apply (tables : Tables) (resolve : Json → Load Term) (head : Load Term)
    (chain : List (Text × Json)) (s : Session) :
    alongChain tables resolve head chain s =
      match (head >>= fun node => foldChain tables resolve node chain) (s.enter chain) with
      | .ok t s' => .ok t (s'.leave chain)
      | .error e s' => .error e (s'.leave chain) := by
  unfold alongChain Load.during
  rw [← Session.enter_eq_foldl]
  simp only [← Session.leave_eq_foldl]
  cases (head >>= fun node => foldChain tables resolve node chain) (s.enter chain) <;> rfl

/-- A chain is folded up alike for two heads that agree while its records are being built. -/
theorem alongChain_congr (tables : Tables) (resolve : Json → Load Term) {head head' : Load Term}
    (h : head (s.enter chain) = head' (s.enter chain)) :
    alongChain tables resolve head chain s = alongChain tables resolve head' chain s := by
  rw [alongChain_apply, alongChain_apply, Load.bind_apply, Load.bind_apply, h]

/-- A head without a chain stands for itself. -/
theorem alongChain_nil (tables : Tables) (resolve : Json → Load Term) (head : Load Term) :
    alongChain tables resolve head [] = head := by
  funext s
  simp only [alongChain_apply, foldChain, bind_pure, Session.enter, Session.leave]
  cases head s <;> rfl

/-- Recursion on an application record that is not being built, however errors are blamed. -/
theorem resolve_app_apply {blame : Text → Error → Error} {resolve : Json → Load Term}
    (happ : tables.app? id = some record) (hmiss : lookup? s.exprs id = none)
    (hidle : s.isActive .exprs id = false) :
    Load.resolve (tables.blamingShelf blame) (buildExpr tables resolve) id s =
      match record.field "fn" with
      | .error e => .error (blame id (.fault (.access e))) s
      | .ok fn => match resolve fn (s.start .exprs id) with
        | .error e s' => .error (blame id e) (s'.stop .exprs id)
        | .ok node s' => match record.field "arg" with
          | .error e => .error (blame id (.fault (.access e))) (s'.stop .exprs id)
          | .ok arg => match resolve arg s' with
            | .error e s'' => .error (blame id e) (s''.stop .exprs id)
            | .ok arg s'' => .ok (.app s''.next node arg) (tables.keepApp id node arg s'') := by
  obtain ⟨hrecord, _⟩ := exists_kind_of_app? happ
  rw [Load.resolve_apply]
  simp only [Tables.blamingShelf, Tables.exprShelf, hmiss, hrecord, hidle, Bool.false_eq_true, if_false,
    buildExpr_of_app happ]
  rw [Load.bind_apply, Load.field_apply]
  cases record.field "fn" with
  | error e =>
    dsimp only
    rw [Session.stop_start hidle]
  | ok fn =>
    dsimp only
    rw [Load.bind_apply]
    cases resolve fn (s.start .exprs id) with
    | error e s' => rfl
    | ok node s' =>
      dsimp only
      rw [Load.bind_apply, Load.field_apply]
      cases record.field "arg" with
      | error e => rfl
      | ok arg =>
        dsimp only
        rw [Load.bind_apply]
        cases resolve arg s' <;> rfl

/-- Recursion on an application record that is not being built, where errors are blamed as chains blame
them. -/
theorem linkedAt_app_apply (happ : tables.app? id = some record)
    (hmiss : lookup? s.exprs id = none) (hidle : s.isActive .exprs id = false) :
    linkedAt tables id s = match record.field "fn" with
      | .error e => .error (.malformed .exprs id (.access e)) s
      | .ok fn => match linkedExpr tables fn (s.start .exprs id) with
        | .error e s' => .error e (s'.stop .exprs id)
        | .ok node s' => match record.field "arg" with
          | .error e => .error (.malformed .exprs id (.access e)) (s'.stop .exprs id)
          | .ok arg => match linkedExpr tables arg s' with
            | .error e s'' => .error e (s''.stop .exprs id)
            | .ok arg s'' => .ok (.app s''.next node arg) (tables.keepApp id node arg s'') := by
  have hmissing (e : Json.AccessError) :
      tables.blameLink id (.fault (.access e)) = .malformed .exprs id (.access e) := by
    simp [Tables.blameLink, Error.blameRecord]
  rw [linkedAt, Tables.linkShelf, resolve_app_apply happ hmiss hidle]
  cases record.field "fn" with
  | error e => exact congrArg (EStateM.Result.error · _) (hmissing e)
  | ok fn =>
    dsimp only
    cases hfn : linkedExpr tables fn (s.start .exprs id) with
    | error e s' => exact congrArg (EStateM.Result.error · _) (Tables.blameLink_of_linkedExpr happ hfn)
    | ok node s' =>
      dsimp only
      cases record.field "arg" with
      | error e => exact congrArg (EStateM.Result.error · _) (hmissing e)
      | ok arg =>
        dsimp only
        cases harg : linkedExpr tables arg s' with
        | error e s'' =>
          exact congrArg (EStateM.Result.error · _) (Tables.blameLink_of_linkedExpr happ harg)
        | ok arg s'' => rfl

/-- A record of a chain, or one that is being built, is a cycle by recursion too. -/
theorem alongChain_cyclic (resolve : Json → Load Term) (h : tables.Passed s chain)
    (hrecord : Json.Fields.get? tables.exprs id = some record) (hmiss : lookup? s.exprs id = none)
    (hactive : (s.enter chain).isActive .exprs id = true) :
    alongChain tables resolve (linkedAt tables id) chain s = .error (.cyclic .exprs id) s := by
  have hlinked : linkedAt tables id (s.enter chain) = .error (.cyclic .exprs id) (s.enter chain) := by
    rw [linkedAt, Load.resolve_apply]
    simp [Tables.linkShelf, Tables.blamingShelf, Tables.exprShelf, hmiss, hrecord, hactive]
  rw [alongChain_apply, Load.bind_apply, hlinked]
  exact congrArg (EStateM.Result.error _) h.leave_enter

/-- A reference without a label is met alike at the end of a chain and on the way to it. -/
theorem alongChain_unlabelled (resolve : Json → Load Term) {ref : Json} {e : Numeral.Error} (h : tables.Passed s chain)
    (hlabel : ref.label = .error e) :
    alongChain tables resolve (linkedExpr tables ref) chain s = .error (.fault (.numeral e)) s := by
  rw [alongChain_apply, Load.bind_apply, linkedExpr_eq, hlabel]
  exact congrArg (EStateM.Result.error _) h.leave_enter

section

variable {resolve : Json → Load Term}
  (hresolve : ∀ ref s', s'.room .exprs tables.exprs < s.room .exprs tables.exprs →
    resolve ref s' = linkedExpr tables ref s')

include hresolve

/-- While the records of a chain are being built, arguments are found by plain recursion. -/
theorem Tables.Passed.resolve_eq (h : tables.Passed s ((id, record) :: chain)) {s' : Session}
    (hs' : s'.active = (s.enter ((id, record) :: chain)).active) (ref : Json) :
    resolve ref s' = linkedExpr tables ref s' := by
  refine hresolve ref s' ?_
  rw [Session.room_congr hs']
  exact h.room_enter_lt

/-- After a chain was folded up and left, the same records are being built as before it. -/
theorem foldChain_active_eq (h : tables.Passed s chain) {s' : Session}
    (hs' : s'.active = (s.enter chain).active) (node : Term) :
    (((foldChain tables resolve node chain).after s').leave chain).active = s.active := by
  induction chain generalizing s' node with
  | nil => exact hs'
  | cons link rest ih =>
    obtain ⟨id, record⟩ := link
    have hleave {s' : Session} (hs' : s'.active = (s.enter ((id, record) :: rest)).active) :
        (s'.leave ((id, record) :: rest)).active = s.active := by
      rw [Session.leave_active_congr hs', h.leave_enter]
    rw [Load.after, foldChain_cons_apply]
    cases record.field "arg" with
    | error e => exact hleave hs'
    | ok ref =>
      dsimp only
      rw [h.resolve_eq hresolve hs']
      cases harg : linkedExpr tables ref s' with
      | error e s'' => exact hleave (((keeps_linkedExpr tables ref).active_eq_of_error harg).trans hs')
      | ok arg s'' =>
        have hs'' := ((keeps_linkedExpr tables ref).active_eq harg).trans hs'
        exact (Session.stop_active_congr (ih h.2.2 (h.keepApp_active hs'' node arg) _)).trans
          (congrArg Session.active (Session.stop_of_idle h.idle))

/-- A record may be taken off the top of a chain and built by recursion, as its chain is. -/
theorem alongChain_linkedAt (h : tables.Passed s ((id, record) :: chain))
    (hmiss : lookup? s.exprs id = none) :
    alongChain tables resolve (linkedAt tables id) chain s =
      (linkField "fn" id record >>= fun fn =>
        alongChain tables resolve (linkedExpr tables fn) ((id, record) :: chain)) s := by
  rw [alongChain_apply, Load.bind_apply, linkedAt_app_apply h.2.1
    (by rw [Session.enter_exprs, hmiss]) h.1, Load.bind_apply, linkField_apply]
  cases record.field "fn" with
  | error e => exact congrArg (EStateM.Result.error _) h.2.2.leave_enter
  | ok fn =>
    dsimp only
    rw [alongChain_apply, Load.bind_apply]
    rw [show (s.enter chain).start .exprs id = s.enter ((id, record) :: chain) from rfl]
    cases hfn : linkedExpr tables fn (s.enter ((id, record) :: chain)) with
    | error e s' => exact congrArg (EStateM.Result.error _) (Session.leave_stop s' chain _ _)
    | ok node s' =>
      have hs' := (keeps_linkedExpr tables fn).active_eq hfn
      dsimp only
      rw [foldChain_cons_apply]
      cases record.field "arg" with
      | error e => exact congrArg (EStateM.Result.error _) (Session.leave_stop s' chain _ _)
      | ok argRef =>
        dsimp only
        rw [h.resolve_eq hresolve hs']
        cases harg : linkedExpr tables argRef s' with
        | error e s'' => exact congrArg (EStateM.Result.error _) (Session.leave_stop s'' chain _ _)
        | ok arg s'' =>
          -- The rest of the chain is folded up alike; the mark of the record is gone by then.
          have hs'' := ((keeps_linkedExpr tables argRef).active_eq harg).trans hs'
          have hleft := foldChain_active_eq hresolve h.2.2 (h.keepApp_active hs'' node arg)
            (.app s''.next node arg)
          have hgone (t : Session) (ht : (t.leave chain).active = s.active) :
              t.leave chain = (t.leave chain).stop .exprs id :=
            (Session.stop_of_idle (by rw [Session.isActive, ht]; exact h.idle)).symm
          dsimp only
          cases hfold : foldChain tables resolve (.app s''.next node arg) chain
              (tables.keepApp id node arg s'') with
          | error e t =>
            rw [Load.after_of_error hfold] at hleft
            exact congrArg (EStateM.Result.error e) (hgone t hleft)
          | ok app t =>
            rw [Load.after_of_ok hfold] at hleft
            exact congrArg (EStateM.Result.ok app) (hgone t hleft)

/-- Walking a chain down to its head and folding it up again is recursion along the chain that was passed
already. -/
theorem walkChain_alongChain {bound : Nat} (h : tables.Passed s chain)
    (hbound : (s.enter chain).room .exprs tables.exprs < bound)
    (hhead : (lookup? s.exprs id = none ∧ (tables.app? id).isSome) ∨
      resolve (.text id) (s.enter chain) = linkedAt tables id (s.enter chain)) :
    (walkChain tables bound chain id >>= fun (chain, head) =>
      alongChain tables resolve (resolve (.text head)) chain) s =
        alongChain tables resolve (linkedAt tables id) chain s := by
  induction bound generalizing chain id with
  | zero => omega
  | succ bound ih =>
    rw [Load.bind_apply, walkChain, Load.bind_apply, Load.get_apply]
    dsimp only
    cases hmiss : lookup? s.exprs id with
    | some x => exact alongChain_congr tables resolve (hhead.resolve_left (by simp [hmiss]))
    | none =>
      cases happ : tables.app? id with
      | none => exact alongChain_congr tables resolve (hhead.resolve_left (by simp [happ]))
      | some record =>
        dsimp only
        rw [← Session.isActive_enter]
        cases hactive : (s.enter chain).isActive .exprs id with
        | true =>
          rw [alongChain_cyclic resolve h (exists_kind_of_app? happ).1 hmiss hactive]
          rfl
        | false =>
          have hpassed : tables.Passed s ((id, record) :: chain) := ⟨hactive, happ, h⟩
          rw [alongChain_linkedAt hresolve hpassed hmiss, Load.bind_apply, linkField_apply]
          rw [if_neg Bool.false_ne_true, Load.bind_apply, linkField_apply]
          cases record.field "fn" with
          | error e => rfl
          | ok fn =>
            dsimp only
            rw [Load.bind_apply, Load.written_apply]
            cases hlabel : fn.label with
            | error e => rw [alongChain_unlabelled resolve hpassed hlabel]
            | ok next =>
              have hroom := hpassed.room_lt
              have hhead := hresolve (.text next) _ hpassed.room_enter_lt
              rw [linkedExpr_text] at hhead
              have hwalk := ih hpassed (by omega) (.inr hhead)
              rw [Load.bind_apply] at hwalk
              rw [linkedExpr_eq, hlabel]
              exact hwalk

/-- A step whose parts agree with recursion in sessions with less room agrees with it. -/
theorem exprStep_eq_linkedExpr (ref : Json) : exprStep tables resolve ref s = linkedExpr tables ref s := by
  rw [linkedExpr_eq, exprStep]
  refine Load.written_bind_congr fun id _ => ?_
  rw [Load.bind_apply, Load.get_apply]
  dsimp only
  have hstep : Load.resolve tables.linkShelf (buildExpr tables resolve) id s =
      linkedAt tables id s :=
    (nestedStep_congr tables tables.blameLink (keeps_linkedExpr tables) fun ref' s' hs' =>
      (hresolve ref' s' hs').symm : nestedStep tables _ _ (.text id) s = _).symm
  cases hmiss : lookup? s.exprs id with
  | some x => exact (Load.resolve_congr_blame (.inl (by simp [Tables.exprShelf, hmiss]))).trans hstep
  | none =>
    cases happ : tables.app? id with
    | none => exact (Load.resolve_congr_blame (.inr (tables.blameLink_of_none happ))).trans hstep
    | some record =>
      have hroom : (s.enter []).room .exprs tables.exprs < tables.exprs.length + 1 :=
        Nat.lt_succ_of_le (s.room_le .exprs tables.exprs)
      have hnone : tables.Passed s [] := trivial
      have hwalk := walkChain_alongChain hresolve hnone hroom (.inl ⟨hmiss, by rw [happ]; rfl⟩)
      exact hwalk.trans (congrFun (alongChain_nil tables resolve _) s)

end

/-- Any bound that exceeds the number of records that may be entered gives recursion. -/
theorem exprWithin_eq_linkedExpr (tables : Tables) {bound : Nat} {ref : Json} {s : Session}
    (h : s.room .exprs tables.exprs < bound) :
    exprWithin tables bound ref s = linkedExpr tables ref s := by
  induction bound generalizing ref s with
  | zero => omega
  | succ bound ih => exact exprStep_eq_linkedExpr (fun ref' s' hs' => ih (by omega)) ref

/-- Terms are found as by recursion. -/
theorem expr_eq_linkedExpr (tables : Tables) : expr tables = linkedExpr tables := by
  funext ref s
  have hroom := s.room_le .exprs tables.exprs
  exact exprWithin_eq_linkedExpr tables (by omega)

/-- A reference stands for the term of its label. -/
theorem expr_eq_of_label (tables : Tables) {ref : Json} {id : Text} (hlabel : ref.label = .ok id) :
    expr tables ref = expr tables (.text id) := by
  rw [expr_eq_linkedExpr, linkedExpr_text, linkedExpr_eq, hlabel]
  rfl

/-- Blame as chains give it takes no error for the lack of a bound. -/
theorem Tables.eq_unfinished_of_blameLink (id : Text) (e : Error)
    (h : tables.blameLink id e = .unfinished) : e = .unfinished := by
  unfold blameLink at h
  split at h
  · cases h
  · exact Error.eq_unfinished_of_blameRecord h

/-- A term is found or a fault is reported, in every session. -/
theorem finishes_expr (tables : Tables) (ref : Json) (s : Session) : (expr tables ref).Finishes s := by
  rw [expr_eq_linkedExpr]
  exact finishes_nestedExpr tables Tables.eq_unfinished_of_blameLink ref s

end TermText.Dump
