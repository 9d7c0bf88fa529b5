import TermText.Proofs.Dump.Calls

/-!
# Which errors escape

A dump that is not loaded is refused with an error of its format, except in three cases. An infinite
double where a record must give an integer is reported as it is. So is a declaration record, or the
record of a constructor, that is no object, and a family whose constructors are no list. Every other
value in any field leads to an error of the format, as long as no integer exceeds the limit for numerals.

Faults of a record are blamed on it wherever a reference to it is resolved, so they stay within the
tables. Not blamed for all of theirs are declaration records, to which nothing refers, and applications,
whose references may have no label; that takes an integer above the limit.
-/

namespace TermText.Dump

variable {α β : Type}

/-- An error that says what is wrong with the format of a dump. -/
def Error.isFormatError : Error → Bool
  | .fault _ | .infinite | .unfinished => false
  | _ => true

/-- Errors of a kind, and faults of a record that are not yet blamed on it. A text is missing only if
the record holds an integer above the limit. -/
def OrFault (E : Error → Prop) (record : Json) (e : Error) : Prop :=
  E e ∨ ∃ f, e = .fault f ∧ ∀ error, f = .numeral error → error = .tooLong ∧ record.isWritable = false

/-- Errors of a kind, and the lack of a label. -/
def OrUnlabelled (E : Error → Prop) (ref : Json) (e : Error) : Prop :=
  E e ∨ e = .fault (.numeral .tooLong) ∧ ref.isWritable = false

/-- A value that gives a text, unless the lack of it is an error of a kind. -/
def WritableOr (E : Error → Prop) (value : Json) : Prop :=
  value.isWritable = false → E (.fault (.numeral .tooLong))

/-- A step all of whose errors are of a kind. -/
def Load.FailsWithin (E : Error → Prop) (m : Load α) : Prop :=
  ∀ s e s', m s = .error e s' → E e

namespace Load

variable {E : Error → Prop}

/-- Giving an answer does not fail. -/
theorem failsWithin_pure (a : α) : (pure a : Load α).FailsWithin E := by
  intro s e s' h
  cases h

/-- Failing with an error of a kind is to fail within the kind. -/
theorem failsWithin_throw {e : Error} (he : E e) : (throw e : Load α).FailsWithin E := by
  intro s e' s' h
  cases h
  exact he

/-- Errors of a kind are of any kind that includes it. -/
theorem FailsWithin.mono {E' : Error → Prop} {m : Load α} (h : m.FailsWithin E)
    (hE : ∀ e, E e → E' e) : m.FailsWithin E' :=
  fun s e s' hs => hE e (h s e s' hs)

/-- Two steps fail within a kind if each does. -/
theorem FailsWithin.bind {m : Load α} {f : α → Load β} (hm : m.FailsWithin E)
    (hf : ∀ a, (f a).FailsWithin E) : (m >>= f).FailsWithin E := by
  intro s e s' h
  rcases bind_error h with hstep | ⟨a, s'', -, hnext⟩
  · exact hm s e s' hstep
  · exact hf a s'' e s' hnext

/-- Steps for several values fail within a kind if each does. -/
theorem failsWithin_each {step : Json → Load α} {values : List Json}
    (h : ∀ value ∈ values, (step value).FailsWithin E) : (each step values).FailsWithin E := by
  induction values with
  | nil => exact failsWithin_pure []
  | cons value rest ih =>
    exact (h value List.mem_cons_self).bind fun x =>
      (ih fun value hvalue => h value (List.mem_cons_of_mem _ hvalue)).bind fun xs =>
        failsWithin_pure _

/-- A reference fails for want of a label, or as its label does. -/
theorem failsWithin_written {ref : Json} {f : Text → Load α}
    (hf : ∀ id, ref.label = .ok id → (f id).FailsWithin E) :
    (written ref.label >>= f).FailsWithin (OrUnlabelled E ref) := by
  intro s e s' h
  rw [bind_apply, written_apply] at h
  cases hlabel : ref.label with
  | ok id =>
    rw [hlabel] at h
    exact .inl (hf id hlabel s e s' h)
  | error error =>
    rw [hlabel] at h
    cases h
    obtain ⟨hwritable, rfl⟩ := Json.label_eq_error.mp hlabel
    exact .inr ⟨rfl, hwritable⟩

/-- A reference with a label fails as its record does, whose faults are blamed. -/
theorem failsWithin_resolve {shelf : Shelf α} {build : Text → Json → Load α} {id : Text}
    (hformat : ∀ e, e.isFormatError = true → E e)
    (hblame : ∀ record e, Json.Fields.get? shelf.records id = some record → OrFault E record e →
      E (shelf.blame id e))
    (h : ∀ record, Json.Fields.get? shelf.records id = some record →
      (build id record).FailsWithin (OrFault E record)) : (resolve shelf build id).FailsWithin E := by
  intro s e s' hs
  rw [resolve_apply] at hs
  split at hs
  · cases hs
  · cases hs
    exact hformat _ rfl
  · next record hmiss hrecord =>
    split at hs
    · cases hs
      exact hformat _ rfl
    · split at hs
      · cases hs
      · next e' s'' hstep =>
        cases hs
        exact hblame record e' hrecord (h record hrecord _ _ _ hstep)

end Load

/-- A fault that is blamed on its record is an error of the format. -/
theorem OrFault.blameRecord {E : Error → Prop} {record : Json} {e : Error}
    (hformat : ∀ e, e.isFormatError = true → E e) (h : OrFault E record e) (table : Table) (id : Text) :
    E (e.blameRecord table id) := by
  cases e with
  | fault f => exact hformat _ rfl
  | _ =>
    rcases h with h | ⟨f, hf, -⟩
    · exact h
    · cases hf

/-- What a record without long integers gives for a field has a text. -/
theorem WritableOr.of_part {E : Error → Prop} {record value : Json}
    (h : record.isWritable = true → value.isWritable = true) : WritableOr (OrFault E record) value := by
  refine fun hvalue => .inr ⟨_, rfl, fun error herror => ⟨(Fault.numeral.inj herror).symm, ?_⟩⟩
  rw [Bool.eq_false_iff] at hvalue ⊢
  exact mt h hvalue

/-- A loader whose errors are of a kind for all references that have labels. -/
structure Loader.FailsWithin (E : Error → Prop) (loader : Loader) : Prop where
  name : ∀ ref, (loader.name ref).FailsWithin (OrUnlabelled E ref)
  level : ∀ ref, (loader.level ref).FailsWithin (OrUnlabelled E ref)
  expr : ∀ ref, (loader.expr ref).FailsWithin (OrUnlabelled E ref)

/-- What a loader fails with is of any kind that includes it. -/
theorem Loader.FailsWithin.mono {E E' : Error → Prop} {loader : Loader} (h : loader.FailsWithin E)
    (hE : ∀ e, E e → E' e) : loader.FailsWithin E' :=
  ⟨fun ref => (h.name ref).mono fun e => Or.imp_left (hE e),
    fun ref => (h.level ref).mono fun e => Or.imp_left (hE e),
    fun ref => (h.expr ref).mono fun e => Or.imp_left (hE e)⟩

namespace Recipe

variable {E : Error → Prop}

/-- A recipe whose own errors are of a kind, whatever answers its requests. That a reference in it has
no label is an error of its own. -/
def FailsWithin (E : Error → Prop) : Recipe α → Prop
  | .done _ => True
  | .fail e => E e
  | .askName ref next => WritableOr E ref ∧ ∀ n, (next n).FailsWithin E
  | .askLevel ref next => WritableOr E ref ∧ ∀ l, (next l).FailsWithin E
  | .askExpr ref next => WritableOr E ref ∧ ∀ t, (next t).FailsWithin E

/-- A request fails as the recipe does that makes it. -/
theorem failsWithin_request {m : Load α} {ref : Json} (hm : m.FailsWithin (OrUnlabelled E ref))
    (href : WritableOr E ref) : m.FailsWithin E :=
  hm.mono fun _ h => h.elim id fun ⟨he, hwritable⟩ => he ▸ href hwritable

/-- A recipe that is run fails as its requests and itself. -/
theorem FailsWithin.run {r : Recipe α} (h : r.FailsWithin E) {loader : Loader}
    (hloader : loader.FailsWithin E) : (r.run loader).FailsWithin E := by
  induction r with
  | done a => exact Load.failsWithin_pure a
  | fail e => exact Load.failsWithin_throw h
  | askName ref next ih => exact (failsWithin_request (hloader.name ref) h.1).bind fun n => ih n (h.2 n)
  | askLevel ref next ih => exact (failsWithin_request (hloader.level ref) h.1).bind fun l => ih l (h.2 l)
  | askExpr ref next ih => exact (failsWithin_request (hloader.expr ref) h.1).bind fun t => ih t (h.2 t)

/-- Errors of a recipe that are of a kind are of any kind that includes it. -/
theorem FailsWithin.mono {E' : Error → Prop} {r : Recipe α} (hr : r.FailsWithin E)
    (hE : ∀ e, E e → E' e) : r.FailsWithin E' := by
  induction r with
  | done a => trivial
  | fail e => exact hE e hr
  | askName ref next ih => exact ⟨fun h => hE _ (hr.1 h), fun n => ih n (hr.2 n)⟩
  | askLevel ref next ih => exact ⟨fun h => hE _ (hr.1 h), fun l => ih l (hr.2 l)⟩
  | askExpr ref next ih => exact ⟨fun h => hE _ (hr.1 h), fun t => ih t (hr.2 t)⟩

/-- Two recipes fail within a kind if each does. -/
theorem FailsWithin.bind {r : Recipe α} {f : α → Recipe β} (hr : r.FailsWithin E)
    (hf : ∀ a, (f a).FailsWithin E) : (r >>= f).FailsWithin E := by
  induction r with
  | done a => exact hf a
  | fail e => exact hr
  | askName ref next ih => exact ⟨hr.1, fun n => ih n (hr.2 n)⟩
  | askLevel ref next ih => exact ⟨hr.1, fun l => ih l (hr.2 l)⟩
  | askExpr ref next ih => exact ⟨hr.1, fun t => ih t (hr.2 t)⟩

/-- The errors of a recipe are blamed, but not that a reference in it has no label. -/
theorem FailsWithin.blaming {E' : Error → Prop} {r : Recipe α} {blame : Error → Error}
    (hr : r.FailsWithin E) (hblame : ∀ e, E e → E' (blame e))
    (hlabel : E (.fault (.numeral .tooLong)) → E' (.fault (.numeral .tooLong))) :
    (r.blaming blame).FailsWithin E' := by
  induction r with
  | done a => trivial
  | fail e => exact hblame e hr
  | askName ref next ih => exact ⟨fun h => hlabel (hr.1 h), fun n => ih n (hr.2 n)⟩
  | askLevel ref next ih => exact ⟨fun h => hlabel (hr.1 h), fun l => ih l (hr.2 l)⟩
  | askExpr ref next ih => exact ⟨fun h => hlabel (hr.1 h), fun t => ih t (hr.2 t)⟩

/-- Recipes for several values fail within a kind if each does. -/
theorem failsWithin_each {step : Json → Recipe α} {values : List Json}
    (h : ∀ value ∈ values, (step value).FailsWithin E) : (each step values).FailsWithin E := by
  induction values with
  | nil => trivial
  | cons value rest ih =>
    exact (h value List.mem_cons_self).bind fun _ =>
      (ih fun value hvalue => h value (List.mem_cons_of_mem _ hvalue)).bind fun _ => trivial

/-- A field that is not reached is a fault; what is made of a field is made of its value. -/
theorem failsWithin_field {key : Text} {record : Json} {f : Json → Recipe β}
    (hf : ∀ value, record.fields.get? key = some value → (f value).FailsWithin (OrFault E record)) :
    (field key record >>= f).FailsWithin (OrFault E record) := by
  unfold field
  cases h : record.field key with
  | error e => exact .inr ⟨_, rfl, nofun⟩
  | ok value => exact hf value (get?_of_field h)

/-- What is not reached in a value is a fault of the record that holds it. -/
theorem failsWithin_access (x : Except Json.AccessError α) (record : Json) :
    (access x).FailsWithin (OrFault E record) := by
  cases x with
  | ok a => trivial
  | error e => exact .inr ⟨_, rfl, nofun⟩

/-- A text that is not written is a fault of the record that holds the value. -/
theorem failsWithin_written {x : Except Numeral.Error Text} {record : Json} {f : Text → Recipe β}
    (hx : ∀ e, x = .error e → e = .tooLong ∧ record.isWritable = false)
    (hf : ∀ t, (f t).FailsWithin (OrFault E record)) :
    (written x >>= f).FailsWithin (OrFault E record) := by
  cases x with
  | ok t => exact hf t
  | error e => exact .inr ⟨_, rfl, fun _ herror => Fault.numeral.inj herror ▸ hx e rfl⟩

/-- What a field refers to is asked for, and has a label if the record holds no long integer. -/
theorem failsWithin_asked {key : Text} {record : Json} {ask : Json → Recipe β}
    (hask : ∀ ref, WritableOr (OrFault E record) ref → (ask ref).FailsWithin (OrFault E record)) :
    (field key record >>= ask).FailsWithin (OrFault E record) :=
  failsWithin_field fun ref hvalue => hask ref (.of_part fun h => Json.isWritable_of_get? h hvalue)

/-- So a name that a field refers to is asked for. -/
theorem failsWithin_named (key : Text) (record : Json) :
    (named key record).FailsWithin (OrFault E record) :=
  failsWithin_asked fun _ href => ⟨href, fun _ => trivial⟩

/-- Likewise for a name that may be left out. -/
theorem failsWithin_optionalName (key : Text) (record : Json) :
    (optionalName key record.fields).FailsWithin (OrFault E record) :=
  ⟨.of_part fun h => Json.isWritable_getD h Json.isWritable_null, fun _ => trivial⟩

/-- Likewise for a level. -/
theorem failsWithin_operand (key : Text) (record : Json) :
    (operand key record).FailsWithin (OrFault E record) :=
  failsWithin_asked fun _ href => ⟨href, fun _ => trivial⟩

/-- Likewise for a term. -/
theorem failsWithin_child (key : Text) (record : Json) :
    (child key record).FailsWithin (OrFault E record) :=
  failsWithin_asked fun _ href => ⟨href, fun _ => trivial⟩

/-- A segment that is not added to a name is a fault of the record that gives it. -/
theorem failsWithin_childName (parent : Name) (segment : Except Name.Error Segment) (hash record : Json) :
    (childName parent segment hash).FailsWithin (OrFault E record) := by
  unfold childName
  split
  · trivial
  · exact .inr ⟨_, rfl, nofun⟩

/-- Only an infinite double is too large for an integer. -/
theorem exists_infinite_of_integer {value : Json}
    (h : value.integer = .error (.truncation .infinite)) :
    ∃ negative, value = .float (.infinite negative) := by
  cases value with
  | float x =>
    cases x with
    | infinite negative => exact ⟨negative, rfl⟩
    | _ => cases h
  | text t =>
    rw [Json.integer] at h
    cases hread : Numeral.readInt t <;> rw [hread] at h <;> cases h
  | _ => cases h

/-- A value gives no integer by a fault, or as it is an infinite double. -/
theorem failsWithin_integer {value : Json} (record : Json)
    (hinfinite : ∀ negative, value = .float (.infinite negative) → E .infinite) :
    (integer value).FailsWithin (OrFault E record) := by
  unfold integer
  split
  · trivial
  · next h =>
    obtain ⟨negative, hvalue⟩ := exists_infinite_of_integer h
    exact .inl (hinfinite negative hvalue)
  · exact .inr ⟨_, rfl, nofun⟩

/-- A bad number that is reported as such is an error of the format. -/
theorem failsWithin_blameNumber (hformat : ∀ e, e.isFormatError = true → E e) {table : Table}
    {id : Text} {record : Json} {r : Recipe α} (hr : r.FailsWithin (OrFault E record)) :
    (r.blaming (.blameNumber table id)).FailsWithin (OrFault E record) := by
  refine hr.blaming (fun e he => ?_) fun h => h
  cases e with
  | fault f =>
    rw [Error.blameNumber]
    split
    · exact .inl (hformat _ rfl)
    · exact he
  | _ => exact he

end Recipe

/-- The field of a term record that gives a number. -/
def ExprKind.numberKey? : ExprKind → Option Text
  | .boundVar | .proj => some "index"
  | .natural => some "value"
  | _ => none

/-- A name record with an infinite double in the place of its hash or its number, or a term record
with one in the place of its number. -/
def Tables.GivesInfinite (tables : Tables) : Prop :=
  (∃ (id key : Text) (fields : Json.Fields) (negative : Bool),
    Json.Fields.get? tables.names id = some (.object fields) ∧
      (key = "hash" ∨ key = "num") ∧ fields.get? key = some (.float (.infinite negative))) ∨
  ∃ (id key : Text) (fields : Json.Fields) (kind : ExprKind) (negative : Bool),
    Json.Fields.get? tables.exprs id = some (.object fields) ∧
      fields.get? "kind" = some (.text kind.word) ∧ kind.numberKey? = some key ∧
        fields.get? key = some (.float (.infinite negative))

/-- A record that is there and holds an integer above the limit for numerals. -/
def Tables.HoldsLong (tables : Tables) (key : Key) : Prop :=
  ∃ record, Json.Fields.get? (tables.records key.1) key.2 = some record ∧ record.isWritable = false

/-- What resolving a reference may fail with: an error of the format, an infinite double where a record
has one, or a reference without a label that was not blamed on its record. -/
def Tables.Raises (tables : Tables) (e : Error) : Prop :=
  e.isFormatError = true ∨ e = .unfinished ∨ e = .infinite ∧ tables.GivesInfinite ∨
    e = .fault (.numeral .tooLong) ∧ ∃ key, tables.HoldsLong key

namespace Recipe

variable {tables : Tables}

/-- An error of the format may be raised by any tables. -/
theorem raises_of_isFormatError (e : Error) (h : e.isFormatError = true) : tables.Raises e :=
  .inl h

/-- A name record fails with errors of the format and faults, if its numbers are finite. -/
theorem failsWithin_ofName {id : Text} {record : Json}
    (hrecord : Json.Fields.get? tables.names id = some record) :
    (ofName id record).FailsWithin (OrFault tables.Raises record) := by
  cases record with
  | object fields =>
    have hinfinite {key : Text} (hkey : key = "hash" ∨ key = "num") {value : Json}
        (hvalue : Json.Fields.get? fields key = some value) (negative : Bool)
        (h : value = .float (.infinite negative)) : tables.Raises .infinite :=
      .inr (.inr (.inl ⟨rfl, .inl ⟨id, key, fields, negative, hrecord, hkey, h ▸ hvalue⟩⟩))
    have hhash : (recordedHash fields).FailsWithin (OrFault tables.Raises (.object fields)) := by
      unfold recordedHash
      split
      · trivial
      · trivial
      · next value hnull hvalue =>
        exact (failsWithin_integer _ (hinfinite (.inl rfl) hvalue)).bind fun _ => trivial
    change FailsWithin _ (optionalName "parent" (Json.object fields).fields >>= _)
    refine (failsWithin_optionalName "parent" _).bind fun parent => hhash.bind fun hash => ?_
    split
    · exact failsWithin_childName _ _ _ _
    · next value hstr hvalue =>
      exact failsWithin_blameNumber raises_of_isFormatError
        ((failsWithin_integer _ (hinfinite (.inr rfl) hvalue)).bind fun n =>
          failsWithin_childName _ _ _ _)
    · split
      · exact .inl (.inl rfl)
      · trivial
  | _ => exact .inr ⟨_, rfl, nofun⟩

/-- A kind that is unknown is shown, or the record holds a long integer. -/
theorem failsWithin_unknownKind {E : Error → Prop} {record value : Json} {key : Text} {error : Text → Error}
    (hvalue : Json.Fields.get? record.fields key = some value)
    (herror : ∀ shown, OrFault E record (error shown)) :
    (written value.describe >>= fun shown => (.fail (error shown) : Recipe α)).FailsWithin
      (OrFault E record) := by
  refine failsWithin_written (fun e he => ?_) herror
  obtain ⟨hlong, rfl⟩ := Json.describe_eq_error.mp he
  rw [Bool.eq_false_iff] at hlong ⊢
  exact ⟨rfl, mt (Json.isWritable_of_get? · hvalue) hlong⟩

/-- A level record fails with errors of the format and faults. -/
theorem failsWithin_ofLevel (id : Text) (record : Json) :
    (ofLevel id record).FailsWithin (OrFault tables.Raises record) := by
  refine failsWithin_field fun value hvalue => ?_
  cases LevelKind.ofJson? value with
  | none => exact failsWithin_unknownKind hvalue fun _ => .inl (.inl rfl)
  | some kind =>
    cases kind with
    | zero => trivial
    | succ => exact (failsWithin_operand _ _).bind fun _ => trivial
    | max | imax =>
      exact (failsWithin_operand _ _).bind fun _ => (failsWithin_operand _ _).bind fun _ => trivial
    | param | metaVar => exact (failsWithin_named _ _).bind fun _ => trivial

/-- A term record fails with errors of the format and faults, if its number is finite. -/
theorem failsWithin_ofExpr {id : Text} {record : Json}
    (hrecord : Json.Fields.get? tables.exprs id = some record) :
    (ofExpr id record).FailsWithin (OrFault tables.Raises record) := by
  refine failsWithin_field fun value hkind => ?_
  cases hnamed : ExprKind.ofJson? value with
  | none => exact failsWithin_unknownKind hkind fun _ => .inl (.inl rfl)
  | some kind =>
    obtain rfl := ExprKind.ofJson?_eq_some.mp hnamed
    have hnumber {key : Text} (hkey : kind.numberKey? = some key) {given : Json}
        (hgiven : Json.Fields.get? record.fields key = some given) :
        (integer given).FailsWithin (OrFault tables.Raises record) := by
      refine failsWithin_integer _ fun negative h => ?_
      cases record with
      | object fields =>
        exact .inr (.inr (.inl ⟨rfl, .inr ⟨id, key, fields, kind, negative, hrecord, hkind, hkey,
          h ▸ hgiven⟩⟩))
      | _ => cases hgiven
    have hnatural {key : Text} (hkey : kind.numberKey? = some key)
        (refusal : Int → Term.NumberError) :
        (natural id key record refusal).FailsWithin (OrFault tables.Raises record) := by
      refine failsWithin_blameNumber raises_of_isFormatError (failsWithin_field fun given hgiven => ?_)
      refine (hnumber hkey hgiven).bind fun n => ?_
      split
      · exact .inr ⟨_, rfl, by simp⟩
      · trivial
    have hbinder := failsWithin_optionalName (E := tables.Raises) "binder" record
    cases kind with
    | boundVar => exact (hnatural rfl _).bind fun _ => trivial
    | natural => exact (hnatural rfl _).bind fun _ => trivial
    | freeVar | metaVar => exact (failsWithin_named _ _).bind fun _ => trivial
    | sort => exact (failsWithin_operand _ _).bind fun _ => trivial
    | const =>
      simp only [Json.listed]
      cases hlisted : ((Json.Fields.get? record.fields "levels").getD (.list [])).listed? with
      | none => exact .inr ⟨_, rfl, by simp⟩
      | some refs =>
        have hlevels : (each (askLevel · .done) refs).FailsWithin (OrFault tables.Raises record) := by
          refine failsWithin_each fun ref href => ⟨.of_part fun h => ?_, fun _ => trivial⟩
          exact Json.isWritable_of_mem_listed? (Json.isWritable_getD h rfl) hlisted href
        exact hlevels.bind fun _ => (failsWithin_named _ _).bind fun _ => trivial
    | app =>
      exact (failsWithin_child _ _).bind fun _ => (failsWithin_child _ _).bind fun _ => trivial
    | lambda | pi =>
      exact (failsWithin_child _ _).bind fun _ => (failsWithin_child _ _).bind fun _ =>
        hbinder.bind fun _ => trivial
    | letIn =>
      exact (failsWithin_child _ _).bind fun _ => (failsWithin_child _ _).bind fun _ =>
        (failsWithin_child _ _).bind fun _ => hbinder.bind fun _ => trivial
    | text =>
      refine failsWithin_field fun given hgiven => failsWithin_written (fun e he => ?_) fun _ => trivial
      obtain ⟨hlong, rfl⟩ := Json.label_eq_error.mp he
      rw [Bool.eq_false_iff] at hlong ⊢
      exact ⟨rfl, mt (Json.isWritable_of_get? · hgiven) hlong⟩
    | annotated =>
      exact (failsWithin_access _ _).bind fun _ => (failsWithin_child _ _).bind fun _ => trivial
    | proj =>
      exact (failsWithin_named _ _).bind fun _ => failsWithin_field fun given hgiven =>
        (hnumber rfl hgiven).bind fun _ => (failsWithin_child _ _).bind fun _ => trivial

end Recipe

/-- A request that no record makes, answered by an error of the format. -/
theorem Load.failsWithin_unasked (tables : Tables) (ref : Json) :
    (throw .notAnObject : Load α).FailsWithin (OrUnlabelled tables.Raises ref) :=
  Load.failsWithin_throw (.inl (.inl rfl))

/-- What a chain blames on a record, or leaves, is raised by the tables. -/
theorem Tables.raises_blameLink {tables : Tables} {id : Text} {record : Json} {e : Error}
    (hrecord : Json.Fields.get? tables.exprs id = some record)
    (h : OrFault tables.Raises record e) : tables.Raises (tables.blameLink id e) := by
  unfold Tables.blameLink
  split
  · next error _ =>
    rcases h with h | ⟨f, hf, hnumeral⟩
    · exact h
    · cases hf
      obtain ⟨rfl, hlong⟩ := hnumeral error rfl
      exact .inr (.inr (.inr ⟨rfl, (.exprs, id), record, hrecord, hlong⟩))
  · exact h.blameRecord Recipe.raises_of_isFormatError .exprs id

/-- A name fails with errors of the format, if the numbers of the tables are finite. -/
theorem failsWithin_name (tables : Tables) (ref : Json) :
    (name tables ref).FailsWithin (OrUnlabelled tables.Raises ref) := by
  suffices hwithin : ∀ bound ref,
      (nameWithin tables bound ref).FailsWithin (OrUnlabelled tables.Raises ref) from hwithin _ ref
  intro bound
  induction bound with
  | zero => exact fun ref => Load.failsWithin_throw (.inl (.inr (.inl rfl)))
  | succ bound ih =>
    intro ref
    have hloader : Loader.FailsWithin tables.Raises
        ⟨nameWithin tables bound, fun _ => throw .notAnObject, fun _ => throw .notAnObject⟩ :=
      ⟨ih, Load.failsWithin_unasked tables, Load.failsWithin_unasked tables⟩
    have hresolve (id : Text) : (Load.resolve tables.nameShelf
        (buildName (nameWithin tables bound)) id).FailsWithin tables.Raises := by
      refine Load.failsWithin_resolve Recipe.raises_of_isFormatError
        (fun _ _ _ h => h.blameRecord Recipe.raises_of_isFormatError .names id) fun record hrecord => ?_
      rw [buildName_eq_run ⟨nameWithin tables bound, fun _ => throw .notAnObject,
        fun _ => throw .notAnObject⟩]
      exact (Recipe.failsWithin_ofName hrecord).run (hloader.mono fun _ => .inl)
    by_cases href : ref = .null
    · subst href
      exact Load.failsWithin_pure _
    · change (nameStep tables _ ref).FailsWithin _
      rw [nameStep_of_ne tables href]
      exact Load.failsWithin_written fun id _ => hresolve id

/-- A level fails with errors of the format, if the numbers of the tables are finite. -/
theorem failsWithin_level (tables : Tables) (ref : Json) :
    (level tables ref).FailsWithin (OrUnlabelled tables.Raises ref) := by
  suffices hwithin : ∀ bound ref,
      (levelWithin tables bound ref).FailsWithin (OrUnlabelled tables.Raises ref) from hwithin _ ref
  intro bound
  induction bound with
  | zero => exact fun ref => Load.failsWithin_throw (.inl (.inr (.inl rfl)))
  | succ bound ih =>
    intro ref
    have hloader : Loader.FailsWithin tables.Raises
        ⟨name tables, levelWithin tables bound, fun _ => throw .notAnObject⟩ :=
      ⟨failsWithin_name tables, ih, Load.failsWithin_unasked tables⟩
    refine Load.failsWithin_written fun id _ => Load.failsWithin_resolve Recipe.raises_of_isFormatError
      (fun _ _ _ h => h.blameRecord Recipe.raises_of_isFormatError .levels id) fun record hrecord => ?_
    rw [buildLevel_eq_run tables _ fun _ => throw .notAnObject]
    exact (Recipe.failsWithin_ofLevel _ record).run (hloader.mono fun _ => .inl)

/-- A term fails with errors of the format, if the numbers of the tables are finite. -/
theorem failsWithin_expr (tables : Tables) (ref : Json) :
    (expr tables ref).FailsWithin (OrUnlabelled tables.Raises ref) := by
  rw [expr_eq_linkedExpr]
  suffices hwithin : ∀ bound ref, (nestedWithin tables tables.blameLink bound ref).FailsWithin
      (OrUnlabelled tables.Raises ref) from hwithin _ ref
  intro bound
  induction bound with
  | zero => exact fun ref => Load.failsWithin_throw (.inl (.inr (.inl rfl)))
  | succ bound ih =>
    intro ref
    have hloader : Loader.FailsWithin tables.Raises
        ⟨name tables, level tables, nestedWithin tables tables.blameLink bound⟩ :=
      ⟨failsWithin_name tables, failsWithin_level tables, ih⟩
    refine Load.failsWithin_written fun id _ => Load.failsWithin_resolve Recipe.raises_of_isFormatError
      (fun _ _ => Tables.raises_blameLink) fun record hrecord => ?_
    have hallot (make : NodeId → Term) : (allot make).FailsWithin (OrFault tables.Raises record) := by
      intro s e s' h
      simp [allot] at h
    rw [buildExpr_eq_run]
    exact ((Recipe.failsWithin_ofExpr hrecord).run (hloader.mono fun _ => .inl)).bind hallot

/-- What a record gives for the constructors of a family. -/
def constructorsOf (record : Json) : Json :=
  (Json.Fields.get? record.fields "constructors").getD (.list [])

/-- A record that declares something: one of given records, or one that a family among them lists. -/
inductive Declared (records : List Json) : Json → Prop where
  | listed {record : Json} (h : record ∈ records) : Declared records record
  | nested {outer record : Json} {constructors : List Json} (houter : Declared records outer)
      (hkind : Json.Fields.get? outer.fields "kind" = some (.text DeclarationKind.family.word))
      (hconstructors : (constructorsOf outer).listed? = some constructors)
      (h : record ∈ constructors) : Declared records record

/-- The errors that are not of the format: an infinite double, and the faults of declaration records
that are no objects and of families whose constructors are not listed. -/
inductive Escapes (tables : Tables) (records : List Json) : Error → Prop where
  | infinite (h : tables.GivesInfinite) : Escapes tables records .infinite
  | notAnObject {record : Json} {e : Json.AccessError} (hdeclared : Declared records record)
      (hobject : ∀ fields, record ≠ .object fields) (he : record.field "name" = .error e) :
      Escapes tables records (.fault (.access e))
  | notListed {record : Json} (hdeclared : Declared records record)
      (hkind : Json.Fields.get? record.fields "kind" = some (.text DeclarationKind.family.word))
      (hconstructors : (constructorsOf record).listed? = none) :
      Escapes tables records (.fault (.access (.notListed (constructorsOf record).kindName)))

/-- What loading declaration records may fail with: also for want of a label, if a record of the tables
or one that declares something holds an integer above the limit. -/
def Tables.RaisesDeclaring (tables : Tables) (records : List Json) (e : Error) : Prop :=
  e.isFormatError = true ∨ e = .unfinished ∨ Escapes tables records e ∨
    e = .fault (.numeral .tooLong) ∧
      ((∃ key, tables.HoldsLong key) ∨ ∃ record, Declared records record ∧ record.isWritable = false)

/-- Errors of a kind, and a field that a declaration lacks, which is not yet reported as such. -/
def OrMissing (E : Error → Prop) (e : Error) : Prop :=
  E e ∨ ∃ key, e = .fault (.access (.missing key))

/-- No field is reached in what is no object, and it is not for lack of the field. -/
theorem exists_field_error {record : Json} (h : ∀ fields, record ≠ .object fields) (key : Text) :
    ∃ e, record.field key = .error e ∧ ∀ key', e ≠ .missing key' := by
  cases record with
  | object fields => exact absurd rfl (h fields)
  | _ => exact ⟨_, rfl, by simp⟩

/-- A fault of a declaration other than a missing field is left as it is. -/
theorem blameDeclaration_access {e : Json.AccessError} (h : ∀ key, e ≠ .missing key) :
    (Error.fault (.access e)).blameDeclaration = .fault (.access e) := by
  cases e with
  | missing key => exact absurd rfl (h key)
  | _ => rfl

section

variable {tables : Tables} {records : List Json}

/-- What resolving references raises, declaring may raise. -/
theorem Tables.Raises.declaring {e : Error} (h : tables.Raises e) :
    tables.RaisesDeclaring records e := by
  rcases h with h | h | ⟨rfl, h⟩ | ⟨rfl, h⟩
  · exact .inl h
  · exact .inr (.inl h)
  · exact .inr (.inr (.inl (.infinite h)))
  · exact .inr (.inr (.inr ⟨rfl, .inl h⟩))

/-- A reference in a record that declares something has a label, or the record holds a long integer. -/
theorem WritableOr.of_declared {record value : Json} (hdeclared : Declared records record)
    (h : record.isWritable = true → value.isWritable = true) :
    WritableOr (OrMissing (tables.RaisesDeclaring records)) value := by
  refine fun hvalue => .inl (.inr (.inr (.inr ⟨rfl, .inr ⟨record, hdeclared, ?_⟩⟩)))
  rw [Bool.eq_false_iff] at hvalue ⊢
  exact mt h hvalue

/-- What a declaration is blamed for, or excused from, stays of its kind. -/
theorem raisesDeclaring_blameDeclaration {e : Error}
    (h : OrMissing (tables.RaisesDeclaring records) e) :
    tables.RaisesDeclaring records e.blameDeclaration := by
  rcases h with h | ⟨key, rfl⟩
  · have hsame : e.blameDeclaration = e := by
      rcases h with h | rfl | h | ⟨rfl, -⟩
      · exact Error.blameDeclaration_of_ne_fault fun f hf => by simp [hf, Error.isFormatError] at h
      · rfl
      rotate_left
      · rfl
      · cases h with
        | infinite _ => rfl
        | notAnObject _ hobject he =>
          obtain ⟨e', he', hmissing⟩ := exists_field_error hobject "name"
          obtain rfl := Except.error.inj (he.symm.trans he')
          exact blameDeclaration_access hmissing
        | notListed _ _ _ => rfl
    rw [hsame]
    exact h
  · exact .inl rfl

namespace Recipe

/-- A field of an object is missing, or what is made of it is made of its value. -/
theorem failsWithin_objectField {E : Error → Prop} {key : Text} {fields : Json.Fields}
    {f : Json → Recipe β}
    (hf : ∀ value, Json.Fields.get? fields key = some value → (f value).FailsWithin (OrMissing E)) :
    (field key (.object fields) >>= f).FailsWithin (OrMissing E) := by
  unfold field
  cases h : (Json.object fields).field key with
  | ok value => exact hf value (get?_of_field h)
  | error e =>
    rw [Json.field] at h
    split at h
    · cases h
    · cases h
      exact .inr ⟨key, rfl⟩

/-- The references in the fields of an object that declares something are resolved, or its own error is
raised. -/
theorem failsWithin_declaredName {fields : Json.Fields} (hdeclared : Declared records (.object fields))
    (key : Text) :
    (named key (.object fields)).FailsWithin (OrMissing (tables.RaisesDeclaring records)) :=
  failsWithin_objectField fun _ hvalue =>
    ⟨.of_declared hdeclared fun h => Json.isWritable_of_get? h hvalue, fun _ => trivial⟩

/-- A reference to a term in a declaration fails as resolving it does, or for want of the field. -/
theorem failsWithin_declaredChild {fields : Json.Fields} (hdeclared : Declared records (.object fields))
    (key : Text) :
    (child key (.object fields)).FailsWithin (OrMissing (tables.RaisesDeclaring records)) :=
  failsWithin_objectField fun _ hvalue =>
    ⟨.of_declared hdeclared fun h => Json.isWritable_of_get? h hvalue, fun _ => trivial⟩

/-- A kind that is unknown is reported, or the record holds a long integer. -/
theorem failsWithin_declaredKind {fields : Json.Fields} {key : Text} {value : Json} {error : Text → Error}
    (hdeclared : Declared records (.object fields)) (hvalue : Json.Fields.get? fields key = some value)
    (herror : ∀ shown, (error shown).isFormatError = true) :
    (written value.describe >>= fun shown => (.fail (error shown) : Recipe α)).FailsWithin
      (OrMissing (tables.RaisesDeclaring records)) := by
  cases hshown : value.describe with
  | ok shown => exact .inl (.inl (herror shown))
  | error e =>
    obtain ⟨hlong, rfl⟩ := Json.describe_eq_error.mp hshown
    exact WritableOr.of_declared hdeclared (Json.isWritable_of_get? · hvalue) hlong

/-- The payload of a record that declares something fails as its constructors and its own fields. -/
theorem failsWithin_ofPayload {declare : Json → Recipe Declaration} {fields : Json.Fields}
    (hdeclared : Declared records (.object fields))
    (h : ∀ record, Declared records record →
      (declare record).FailsWithin (tables.RaisesDeclaring records)) :
    (ofPayload declare (.object fields)).FailsWithin
      (OrMissing (tables.RaisesDeclaring records)) := by
  refine failsWithin_objectField fun value hkind => ?_
  cases hword : Json.kindNamed? DeclarationKind.all DeclarationKind.word value with
  | none => exact failsWithin_declaredKind hdeclared hkind fun _ => rfl
  | some kind =>
    cases kind with
    | assumption | eliminator => trivial
    | definition | proof | sealed => exact (failsWithin_declaredChild hdeclared _).bind fun _ => trivial
    | constructor => exact (failsWithin_declaredName hdeclared _).bind fun _ => trivial
    | quotient =>
      refine failsWithin_objectField fun given hgiven => ?_
      cases QuotientKind.ofJson? given with
      | none => exact failsWithin_declaredKind hdeclared hgiven fun _ => rfl
      | some quotient => exact (failsWithin_declaredName hdeclared _).bind fun _ => trivial
    | family =>
      obtain rfl := eq_of_kindNamed? hword
      change FailsWithin _ (access (constructorsOf (.object fields)).listed >>= _)
      unfold Json.listed
      cases hlisted : (constructorsOf (.object fields)).listed? with
      | none => exact .inl (.inr (.inr (.inl (.notListed hdeclared hkind hlisted))))
      | some constructors =>
        change FailsWithin _ (each declare constructors >>= _)
        refine (failsWithin_each fun record hrecord => ?_).bind fun _ => trivial
        exact (h record (.nested hdeclared hkind hlisted hrecord)).mono fun _ => .inl

/-- The recipe of a record that declares something fails with errors of the format, if what it
declares has the shape of a declaration and the numbers of the tables are finite. -/
theorem failsWithin_ofDeclaration {bound : Nat} {record : Json}
    (hdeclared : Declared records record) :
    (ofDeclaration bound record).FailsWithin (tables.RaisesDeclaring records) := by
  induction bound generalizing record with
  | zero => exact .inr (.inl rfl)
  | succ bound ih =>
    by_cases hobject : ∃ fields, record = .object fields
    · obtain ⟨fields, rfl⟩ := hobject
      refine FailsWithin.blaming ?_ (fun e => raisesDeclaring_blameDeclaration)
        fun h => raisesDeclaring_blameDeclaration h
      exact (failsWithin_declaredName hdeclared _).bind fun _ =>
        (failsWithin_declaredChild hdeclared _).bind fun _ =>
          (failsWithin_ofPayload hdeclared fun _ => ih).bind fun _ => trivial
    · have hobject' : ∀ fields, record ≠ .object fields := fun fields h => hobject ⟨fields, h⟩
      obtain ⟨e, he, hmissing⟩ := exists_field_error hobject' "name"
      have hfail : ofDeclaration (bound + 1) record = .fail (.fault (.access e)) := by
        rw [ofDeclaration, named, field, he]
        exact congrArg _ (blameDeclaration_access hmissing)
      rw [hfail]
      exact .inr (.inr (.inl (.notAnObject hdeclared hobject' he)))

end Recipe

/-- A declaration record that is loaded fails as its recipe and its references. -/
theorem failsWithin_declaration {record : Json} (hdeclared : Declared records record) :
    (declaration tables record).FailsWithin (tables.RaisesDeclaring records) := by
  rw [declaration_eq_run]
  have hloader : tables.loader.FailsWithin tables.Raises :=
    ⟨failsWithin_name tables, failsWithin_level tables, failsWithin_expr tables⟩
  exact (Recipe.failsWithin_ofDeclaration hdeclared).run (hloader.mono fun _ => Tables.Raises.declaring)

end

/-- Loading declarations one after another finishes. -/
theorem finishes_each (tables : Tables) (records : List Json) (s : Session) :
    (Load.each (declaration tables) records).Finishes s := by
  induction records generalizing s with
  | nil => exact Load.finishes_pure [] s
  | cons record rest ih =>
    exact (finishes_declaration tables record s).bind fun d s' _ =>
      (ih s').bind fun ds s'' _ => Load.finishes_pure _ s''

/-- What is wrong with the tables or with the list of declarations is wrong with the format. -/
theorem isFormatError_of_tablesOf {dump : Json.Fields} {e : Error} (h : tablesOf dump = .error e) :
    e.isFormatError = true := by
  obtain ⟨table, htable⟩ := exists_of_tablesOf_error h
  unfold tableOf at htable
  split at htable <;> cases htable
  rfl

/-- If the declarations of a dump are not listed, this is an error of the format. -/
theorem isFormatError_of_recordsOf {dump : Json.Fields} {e : Error}
    (h : recordsOf dump = .error e) : e.isFormatError = true := by
  unfold recordsOf at h
  split at h <;> cases h
  rfl

/-- The declaration records of a dump; none if they are no list. -/
def declarationRecords (dump : Json.Fields) : List Json :=
  match recordsOf dump with
  | .ok records => records
  | .error _ => []

/-- A module fails with errors of the format, unless something escapes it or its name has no label. -/
theorem failsWithin_moduleOf (tables : Tables) (dump : Json.Fields) :
    (moduleOf tables dump).FailsWithin (OrUnlabelled (tables.RaisesDeclaring (declarationRecords dump))
      ((dump.get? "module").getD .null)) := by
  refine ((failsWithin_name tables _).mono fun _ => Or.imp_left Tables.Raises.declaring).bind fun n => ?_
  unfold declarationRecords
  cases hrecords : recordsOf dump with
  | error e => exact Load.failsWithin_throw (.inl (.inl (isFormatError_of_recordsOf hrecords)))
  | ok records =>
    refine Load.FailsWithin.mono ?_ fun _ => Or.inl
    exact (Load.failsWithin_each fun record h => failsWithin_declaration (.listed h)).bind fun _ =>
      Load.failsWithin_pure _

/-- The records of a dump without long integers have none. -/
theorem isWritable_of_tablesOf {dump : Json.Fields} {tables : Tables} {table : Table} {id : Text}
    {record : Json} (h : (Json.object dump).isWritable = true) (htables : tablesOf dump = .ok tables)
    (hrecord : Json.Fields.get? (tables.records table) id = some record) : record.isWritable = true := by
  obtain ⟨hnames, hlevels, hexprs⟩ := tablesOf_eq_ok htables
  have htable : tableOf dump table = .ok (tables.records table) := by
    cases table
    · exact hnames
    · exact hlevels
    · exact hexprs
  unfold tableOf at htable
  split at htable
  · rw [← Except.ok.inj htable] at hrecord
    cases hrecord
  · next records hfound =>
    rw [← Except.ok.inj htable] at hrecord
    have hrecords : (Json.object records).isWritable = true :=
      Json.isWritable_of_get? h hfound
    exact Json.isWritable_of_get? hrecords hrecord
  · cases htable

/-- Nor has what its declaration records declare. -/
theorem isWritable_of_declared {dump : Json.Fields} {record : Json}
    (h : (Json.object dump).isWritable = true) (hdeclared : Declared (declarationRecords dump) record) :
    record.isWritable = true := by
  induction hdeclared with
  | listed hmem =>
    unfold declarationRecords recordsOf at hmem
    split at hmem
    · next records hrecords =>
      split at hrecords
      · cases hrecords
        cases hmem
      · next hlist =>
        cases hrecords
        exact Json.isWritable_of_mem_listed? (Json.isWritable_of_get? h hlist) rfl hmem
      · cases hrecords
    · cases hmem
  | nested _ _ hconstructors hmem ih =>
    exact Json.isWritable_of_mem_listed? (Json.isWritable_getD ih rfl) hconstructors hmem

/-- A module is loaded or an error is reported. -/
theorem finishes_moduleOf (tables : Tables) (dump : Json.Fields) (s : Session) :
    (moduleOf tables dump).Finishes s := by
  refine (finishes_name tables _ s).bind fun n s' _ => ?_
  cases hrecords : recordsOf dump with
  | error e =>
    refine Load.finishes_throw ?_ s'
    rintro rfl
    cases isFormatError_of_recordsOf hrecords
  | ok records =>
    exact (finishes_each tables records s').bind fun ds s'' _ => Load.finishes_pure _ s''

/-- The errors that escape from a dump. -/
def EscapesFrom (dump : Json) (e : Error) : Prop :=
  ∃ (fields : Json.Fields) (tables : Tables), dump = .object fields ∧
    tablesOf fields = .ok tables ∧ Escapes tables (declarationRecords fields) e

/-- Every dump is loaded, or refused with an error of its format, or it has an infinite double where a
record must give an integer, or what it declares is not of the shape of declarations. That an integer has
no text is reported only of a dump that holds one above the limit for numerals. -/
theorem load_or_isFormatError_or_escapes (dump : Json) :
    (∃ m, load dump = .ok m) ∨
      ∃ e, load dump = .error e ∧ (e.isFormatError = true ∨ EscapesFrom dump e ∨
        e = .fault (.numeral .tooLong) ∧ dump.isWritable = false) := by
  cases dump with
  | object fields =>
    cases htables : tablesOf fields with
    | error e =>
      refine .inr ⟨e, ?_, .inl (isFormatError_of_tablesOf htables)⟩
      rw [load, htables]
      rfl
    | ok tables =>
      rw [load_eq_outcome htables, Load.outcome]
      cases hmodule : moduleOf tables fields Session.empty with
      | ok m s => exact .inl ⟨m, rfl⟩
      | error e s =>
        refine .inr ⟨e, rfl, ?_⟩
        have hlong {value : Json} (hpart : (Json.object fields).isWritable = true → value.isWritable = true)
            (hvalue : value.isWritable = false) : (Json.object fields).isWritable = false := by
          rw [Bool.eq_false_iff] at hvalue ⊢
          exact mt hpart hvalue
        rcases failsWithin_moduleOf tables fields _ e s hmodule with (h | rfl | h | ⟨rfl, h⟩) | ⟨rfl, h⟩
        · exact .inl h
        · exact absurd hmodule (finishes_moduleOf tables fields Session.empty s)
        · exact .inr (.inl ⟨fields, tables, rfl, htables, h⟩)
        · refine .inr (.inr ⟨rfl, ?_⟩)
          rcases h with ⟨key, record, hrecord, hrecordLong⟩ | ⟨record, hdeclared, hrecordLong⟩
          · exact hlong (isWritable_of_tablesOf · htables hrecord) hrecordLong
          · exact hlong (isWritable_of_declared · hdeclared) hrecordLong
        · exact .inr (.inr ⟨rfl, hlong (Json.isWritable_getD · rfl) h⟩)
  | _ => exact .inr ⟨_, rfl, .inl rfl⟩

/-- Not every dump is loaded or refused with an error of its format: a number in the list of
declarations escapes, and so does an infinite index. -/
theorem not_load_or_isFormatError :
    let number : Json := .object [("declarations", .list [.int 5])]
    let infinite : Json := .object
      [("exprs", .object [("e", .object [("kind", .text "bvar"), ("index", .float (.infinite false))])]),
        ("declarations", .list [.object [("name", .null), ("type", .text "e"), ("kind", .text "axiom")]])]
    (¬ ((∃ m, load number = .ok m) ∨ ∃ e, load number = .error e ∧ e.isFormatError = true)) ∧
      ¬ ((∃ m, load infinite = .ok m) ∨ ∃ e, load infinite = .error e ∧ e.isFormatError = true) := by
  intro number infinite
  have hnumber : load number = .error (.fault (.access (.notSubscriptable "int"))) := rfl
  have hinfinite : load infinite = .error .infinite := rfl
  rw [hnumber, hinfinite]
  simp [Error.isFormatError]

end TermText.Dump
