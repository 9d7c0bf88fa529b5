import Mathlib.Data.List.Forall2
import TermText.Proofs.Dump.Course

/-!
# What references denote

The least relations by which references denote names, levels and terms, read off the formats of the
records. They mention neither sessions nor an order in which references are followed. A reference
that lies on a cycle denotes nothing, as no derivation ends. Terms are denoted as trees.
-/

namespace TermText.Dump

/-- The hash that a name record gives: null, or the integer of its field. -/
inductive GivesHash (fields : Json.Fields) : Json → Prop where
  | missing (hhash : fields.get? "hash" = none) : GivesHash fields .null
  | null (hhash : fields.get? "hash" = some .null) : GivesHash fields .null
  | integer {value : Json} {n : Int} (hhash : fields.get? "hash" = some value)
      (hvalue : value.integer = .ok n) : GivesHash fields (.int n)

/-- A reference stands for a name record with given fields. -/
def Tables.NameRecord (tables : Tables) (ref : Json) (fields : Json.Fields) : Prop :=
  ref ≠ .null ∧ ∃ id, ref.label = .ok id ∧ Json.Fields.get? tables.names id = some (.object fields)

/-- A reference stands for a level record of a kind with given fields. -/
def Tables.LevelRecord (tables : Tables) (kind : LevelKind) (ref : Json) (fields : Json.Fields) :
    Prop :=
  (∃ id, ref.label = .ok id ∧ Json.Fields.get? tables.levels id = some (.object fields)) ∧
    fields.get? "kind" = some (.text kind.word)

/-- A reference stands for a term record of a kind with given fields. -/
def Tables.ExprRecord (tables : Tables) (kind : ExprKind) (ref : Json) (fields : Json.Fields) :
    Prop :=
  (∃ id, ref.label = .ok id ∧ Json.Fields.get? tables.exprs id = some (.object fields)) ∧
    fields.get? "kind" = some (.text kind.word)

section

variable (tables : Tables)

/-- The name that a reference denotes. -/
inductive DenotesName : Json → Name → Prop where
  | null : DenotesName .null .anonymous
  | root {ref hash : Json} {fields : Json.Fields} (hrecord : tables.NameRecord ref fields)
      (hparent : fields.get? "parent" = none) (hhash : GivesHash fields hash)
      (hstr : fields.get? "str" = none) (hnum : fields.get? "num" = none) :
      DenotesName ref .anonymous
  | text {ref hash : Json} {fields : Json.Fields} {parent n : Name} {t : Text}
      (hrecord : tables.NameRecord ref fields)
      (hparent : DenotesName ((fields.get? "parent").getD .null) parent)
      (hhash : GivesHash fields hash) (hstr : fields.get? "str" = some (.text t))
      (hchild : parent.child (.text t) hash = .ok n) : DenotesName ref n
  | number {ref hash value : Json} {fields : Json.Fields} {parent n : Name} {k : Nat}
      (hrecord : tables.NameRecord ref fields)
      (hparent : DenotesName ((fields.get? "parent").getD .null) parent)
      (hhash : GivesHash fields hash) (hstr : fields.get? "str" = none)
      (hnum : fields.get? "num" = some value) (hvalue : value.integer = .ok (k : Int))
      (hchild : parent.child (.number k) hash = .ok n) : DenotesName ref n

/-- The level that a reference denotes. -/
inductive DenotesLevel : Json → Level → Prop where
  | zero {ref : Json} {fields : Json.Fields} (hrecord : tables.LevelRecord .zero ref fields) :
      DenotesLevel ref .zero
  | succ {ref of : Json} {fields : Json.Fields} {l : Level}
      (hrecord : tables.LevelRecord .succ ref fields) (hof : fields.get? "of" = some of)
      (h : DenotesLevel of l) : DenotesLevel ref (.succ l)
  | max {ref lhs rhs : Json} {fields : Json.Fields} {l r : Level}
      (hrecord : tables.LevelRecord .max ref fields) (hlhs : fields.get? "lhs" = some lhs)
      (hl : DenotesLevel lhs l) (hrhs : fields.get? "rhs" = some rhs) (hr : DenotesLevel rhs r) :
      DenotesLevel ref (.max l r)
  | imax {ref lhs rhs : Json} {fields : Json.Fields} {l r : Level}
      (hrecord : tables.LevelRecord .imax ref fields) (hlhs : fields.get? "lhs" = some lhs)
      (hl : DenotesLevel lhs l) (hrhs : fields.get? "rhs" = some rhs) (hr : DenotesLevel rhs r) :
      DenotesLevel ref (.imax l r)
  | param {ref name : Json} {fields : Json.Fields} {n : Name}
      (hrecord : tables.LevelRecord .param ref fields) (hname : fields.get? "name" = some name)
      (hn : DenotesName tables name n) : DenotesLevel ref (.param n)
  | metaVar {ref name : Json} {fields : Json.Fields} {n : Name}
      (hrecord : tables.LevelRecord .metaVar ref fields) (hname : fields.get? "name" = some name)
      (hn : DenotesName tables name n) : DenotesLevel ref (.metaVar n)

/-- The term that a reference denotes, as a tree. -/
inductive DenotesExpr : Json → Term → Prop where
  | boundVar {ref value : Json} {fields : Json.Fields} {index : Nat}
      (hrecord : tables.ExprRecord .boundVar ref fields) (hindex : fields.get? "index" = some value)
      (hvalue : value.integer = .ok (index : Int)) : DenotesExpr ref (.boundVar 0 index)
  | freeVar {ref name : Json} {fields : Json.Fields} {n : Name}
      (hrecord : tables.ExprRecord .freeVar ref fields) (hname : fields.get? "name" = some name)
      (hn : DenotesName tables name n) : DenotesExpr ref (.freeVar 0 n)
  | metaVar {ref name : Json} {fields : Json.Fields} {n : Name}
      (hrecord : tables.ExprRecord .metaVar ref fields) (hname : fields.get? "name" = some name)
      (hn : DenotesName tables name n) : DenotesExpr ref (.metaVar 0 n)
  | sort {ref level : Json} {fields : Json.Fields} {l : Level}
      (hrecord : tables.ExprRecord .sort ref fields) (hlevel : fields.get? "level" = some level)
      (hl : DenotesLevel tables level l) : DenotesExpr ref (.sort 0 l)
  | const {ref name : Json} {fields : Json.Fields} {n : Name} {refs : List Json}
      {levels : List Level} (hrecord : tables.ExprRecord .const ref fields)
      (hrefs : ((fields.get? "levels").getD (.list [])).listed? = some refs)
      (hlevels : List.Forall₂ (DenotesLevel tables) refs levels)
      (hname : fields.get? "name" = some name) (hn : DenotesName tables name n) :
      DenotesExpr ref (.const 0 n levels)
  | app {ref fn arg : Json} {fields : Json.Fields} {f a : Term}
      (hrecord : tables.ExprRecord .app ref fields) (hfn : fields.get? "fn" = some fn)
      (hf : DenotesExpr fn f) (harg : fields.get? "arg" = some arg) (ha : DenotesExpr arg a) :
      DenotesExpr ref (.app 0 f a)
  | lambda {ref type body : Json} {fields : Json.Fields} {t b : Term} {n : Name}
      (hrecord : tables.ExprRecord .lambda ref fields) (htype : fields.get? "type" = some type)
      (ht : DenotesExpr type t) (hbody : fields.get? "body" = some body) (hb : DenotesExpr body b)
      (hn : DenotesName tables ((fields.get? "binder").getD .null) n) :
      DenotesExpr ref (.lambda 0 t b n)
  | pi {ref type body : Json} {fields : Json.Fields} {t b : Term} {n : Name}
      (hrecord : tables.ExprRecord .pi ref fields) (htype : fields.get? "type" = some type)
      (ht : DenotesExpr type t) (hbody : fields.get? "body" = some body) (hb : DenotesExpr body b)
      (hn : DenotesName tables ((fields.get? "binder").getD .null) n) :
      DenotesExpr ref (.pi 0 t b n)
  | letIn {ref type value body : Json} {fields : Json.Fields} {t v b : Term} {n : Name}
      (hrecord : tables.ExprRecord .letIn ref fields) (htype : fields.get? "type" = some type)
      (ht : DenotesExpr type t) (hvalue : fields.get? "value" = some value)
      (hv : DenotesExpr value v) (hbody : fields.get? "body" = some body) (hb : DenotesExpr body b)
      (hn : DenotesName tables ((fields.get? "binder").getD .null) n) :
      DenotesExpr ref (.letIn 0 t v b n)
  | natural {ref given : Json} {fields : Json.Fields} {value : Nat}
      (hrecord : tables.ExprRecord .natural ref fields) (hgiven : fields.get? "value" = some given)
      (hvalue : given.integer = .ok (value : Int)) : DenotesExpr ref (.natural 0 value)
  | text {ref given : Json} {fields : Json.Fields} {t : Text}
      (hrecord : tables.ExprRecord .text ref fields) (hgiven : fields.get? "value" = some given)
      (hlabel : given.label = .ok t) : DenotesExpr ref (.text 0 t)
  | annotated {ref expr : Json} {fields : Json.Fields} {data : Json.Fields} {t : Term}
      (hrecord : tables.ExprRecord .annotated ref fields)
      (hdata : (fields.get? "data").getD (.object []) = .object data)
      (hexpr : fields.get? "expr" = some expr) (ht : DenotesExpr expr t) :
      DenotesExpr ref (.annotated 0 t data.sort)
  | proj {ref name value struct : Json} {fields : Json.Fields} {n : Name} {index : Int} {t : Term}
      (hrecord : tables.ExprRecord .proj ref fields) (hname : fields.get? "type_name" = some name)
      (hn : DenotesName tables name n) (hindex : fields.get? "index" = some value)
      (hvalue : value.integer = .ok index) (hstruct : fields.get? "struct" = some struct)
      (ht : DenotesExpr struct t) : DenotesExpr ref (.proj 0 n index t)

end

/-- What references stand for, as relations. -/
structure Meaning where
  name : Json → Name → Prop
  level : Json → Level → Prop
  expr : Json → Term → Prop

/-- What references to the tables denote. -/
def Tables.meaning (tables : Tables) : Meaning :=
  ⟨DenotesName tables, DenotesLevel tables, DenotesExpr tables⟩

namespace Recipe

variable {α β : Type} {M : Meaning}

/-- A recipe ends in an object of a kind if its requests are answered by what references stand for. -/
def Yields (M : Meaning) (Q : α → Prop) : Recipe α → Prop
  | .done a => Q a
  | .fail _ => False
  | .askName ref next => ∃ n, M.name ref n ∧ (next n).Yields M Q
  | .askLevel ref next => ∃ l, M.level ref l ∧ (next l).Yields M Q
  | .askExpr ref next => ∃ t, M.expr ref t ∧ (next t).Yields M Q

/-- A recipe that is done yields its result. -/
@[simp] theorem yields_done (Q : α → Prop) (a : α) : (done a).Yields M Q ↔ Q a := Iff.rfl

/-- A recipe that fails yields nothing. -/
@[simp] theorem yields_fail (Q : α → Prop) (e : Error) : (fail e).Yields M Q ↔ False := Iff.rfl

/-- What two recipes yield one after the other. -/
@[simp] theorem yields_bind (Q : β → Prop) (r : Recipe α) (f : α → Recipe β) :
    (r >>= f).Yields M Q ↔ r.Yields M fun a => (f a).Yields M Q := by
  induction r with
  | done a => exact Iff.rfl
  | fail e => exact Iff.rfl
  | askName ref next ih => exact exists_congr fun n => and_congr_right fun _ => ih n
  | askLevel ref next ih => exact exists_congr fun l => and_congr_right fun _ => ih l
  | askExpr ref next ih => exact exists_congr fun t => and_congr_right fun _ => ih t

/-- A recipe yields what it yields by fewer answers. -/
theorem Yields.mono {M M' : Meaning} {Q : α → Prop} {r : Recipe α} (h : r.Yields M Q)
    (hname : ∀ ref n, M.name ref n → M'.name ref n)
    (hlevel : ∀ ref l, M.level ref l → M'.level ref l)
    (hexpr : ∀ ref t, M.expr ref t → M'.expr ref t) : r.Yields M' Q := by
  induction r with
  | done a => exact h
  | fail e => exact h
  | askName ref next ih =>
    obtain ⟨n, hn, h⟩ := h
    exact ⟨n, hname ref n hn, ih n h⟩
  | askLevel ref next ih =>
    obtain ⟨l, hl, h⟩ := h
    exact ⟨l, hlevel ref l hl, ih l h⟩
  | askExpr ref next ih =>
    obtain ⟨t, ht, h⟩ := h
    exact ⟨t, hexpr ref t ht, ih t h⟩

/-- A recipe that yields an object of a kind yields one of every wider kind. -/
theorem Yields.imp {Q Q' : α → Prop} {r : Recipe α} (h : r.Yields M Q) (hQ : ∀ a, Q a → Q' a) :
    r.Yields M Q' := by
  induction r with
  | done a => exact hQ a h
  | fail e => exact h
  | askName ref next ih =>
    obtain ⟨n, hn, h⟩ := h
    exact ⟨n, hn, ih n h⟩
  | askLevel ref next ih =>
    obtain ⟨l, hl, h⟩ := h
    exact ⟨l, hl, ih l h⟩
  | askExpr ref next ih =>
    obtain ⟨t, ht, h⟩ := h
    exact ⟨t, ht, ih t h⟩

/-- It makes no difference to what is yielded how errors are blamed. -/
@[simp] theorem yields_blaming (Q : α → Prop) (blame : Error → Error) (r : Recipe α) :
    (r.blaming blame).Yields M Q ↔ r.Yields M Q := by
  induction r with
  | done a => exact Iff.rfl
  | fail e => exact Iff.rfl
  | askName ref next ih => exact exists_congr fun n => and_congr_right fun _ => ih n
  | askLevel ref next ih => exact exists_congr fun l => and_congr_right fun _ => ih l
  | askExpr ref next ih => exact exists_congr fun t => and_congr_right fun _ => ih t

/-- Reaching into a value yields what is reached. -/
@[simp] theorem yields_access (Q : α → Prop) (x : Except Json.AccessError α) :
    (access x).Yields M Q ↔ ∃ a, x = .ok a ∧ Q a := by
  cases x <;> simp [access]

/-- Writing a text yields the text that is written. -/
@[simp] theorem yields_written (Q : Text → Prop) (x : Except Numeral.Error Text) :
    (written x).Yields M Q ↔ ∃ t, x = .ok t ∧ Q t := by
  cases x <;> simp [written]

/-- Reading an integer yields the integer that the value gives. -/
@[simp] theorem yields_integer (Q : Int → Prop) (value : Json) :
    (integer value).Yields M Q ↔ ∃ n, value.integer = .ok n ∧ Q n := by
  unfold integer
  split <;> simp_all

/-- A field that must be there is reached in an object that has it. -/
@[simp] theorem yields_field (Q : Json → Prop) (key : Text) (record : Json) :
    (field key record).Yields M Q ↔
      ∃ fields value, record = .object fields ∧ Json.Fields.get? fields key = some value ∧ Q value := by
  rw [field, yields_access]
  cases record with
  | object fields => cases hvalue : Json.Fields.get? fields key <;> simp [Json.field, hvalue]
  | _ => simp [Json.field]

/-- Reading the hash of a record yields the hash that it gives. -/
@[simp] theorem yields_recordedHash (Q : Json → Prop) (fields : Json.Fields) :
    (recordedHash fields).Yields M Q ↔ ∃ hash, GivesHash fields hash ∧ Q hash := by
  unfold recordedHash
  split
  · rename_i hhash
    refine ⟨fun hq => ⟨_, .missing hhash, hq⟩, ?_⟩
    intro hyields
    obtain ⟨hash, hgives, hq⟩ := hyields
    cases hgives <;> simp_all
  · rename_i hhash
    refine ⟨fun hq => ⟨_, .null hhash, hq⟩, ?_⟩
    intro hyields
    obtain ⟨hash, hgives, hq⟩ := hyields
    cases hgives <;> simp_all [Json.integer]
  · rename_i value hnull hhash
    simp only [yields_bind, yields_integer, pure_eq_done, yields_done]
    constructor
    · intro hyields
      obtain ⟨n, hvalue, hq⟩ := hyields
      exact ⟨_, .integer hhash hvalue, hq⟩
    · intro hyields
      obtain ⟨hash, hgives, hq⟩ := hyields
      cases hgives with
      | missing h => simp_all
      | null h => simp_all
      | integer h hvalue =>
        obtain rfl : value = _ := by simpa [hhash] using h
        exact ⟨_, hvalue, hq⟩

/-- Adding a segment yields the longer name, if there is a segment and a hash. -/
theorem yields_childName (Q : Name → Prop) (parent : Name) (segment : Except Name.Error Segment)
    (hash : Json) : (childName parent segment hash).Yields M Q ↔
      ∃ s n, segment = .ok s ∧ parent.child s hash = .ok n ∧ Q n := by
  unfold childName Name.childOrError
  cases segment with
  | error e => simp [Except.bind]
  | ok s => cases hchild : parent.child s hash <;> simp [Except.bind, Except.mapError, hchild]

/-- Adding the text of a value yields the longer name, if the value is a text. -/
@[simp] theorem yields_textName (Q : Name → Prop) (parent : Name) (value hash : Json) :
    (childName parent (Name.textSegment value) hash).Yields M Q ↔
      ∃ t n, value = .text t ∧ parent.child (.text t) hash = .ok n ∧ Q n := by
  rw [yields_childName]
  cases value <;> simp [Name.textSegment]

/-- Adding the number of a value yields the longer name, if the value gives a natural number. -/
@[simp] theorem yields_numberedName (Q : Name → Prop) (id : Text) (parent : Name)
    (hash value : Json) : (numberedName id parent hash value).Yields M Q ↔
      ∃ (k : Nat) (n : Name), value.integer = .ok (k : Int) ∧
        parent.child (.number k) hash = .ok n ∧ Q n := by
  simp only [numberedName, yields_blaming, yields_bind, yields_integer, yields_childName]
  constructor
  · intro hyields
    obtain ⟨i, hi, s, n, hs, hn, hq⟩ := hyields
    cases i with
    | ofNat k =>
      cases hs
      exact ⟨k, n, hi, hn, hq⟩
    | negSucc k => cases hs
  · intro hyields
    obtain ⟨k, n, hk, hn, hq⟩ := hyields
    exact ⟨k, hk, _, n, rfl, hn, hq⟩

/-- Reading a natural number yields the one that the field gives. -/
@[simp] theorem yields_natural (Q : Nat → Prop) (id key : Text) (record : Json)
    (refusal : Int → Term.NumberError) : (natural id key record refusal).Yields M Q ↔
      ∃ (fields : Json.Fields) (value : Json) (n : Nat), record = .object fields ∧
        fields.get? key = some value ∧ value.integer = .ok (n : Int) ∧ Q n := by
  simp only [natural, yields_blaming, yields_bind, yields_field, yields_integer]
  constructor
  · intro hyields
    obtain ⟨fields, value, hrecord, hvalue, i, hi, hq⟩ := hyields
    split at hq
    · exact hq.elim
    · exact ⟨fields, value, i.toNat, hrecord, hvalue, by rw [hi]; congr 1; omega, hq⟩
  · intro hyields
    obtain ⟨fields, value, n, hrecord, hvalue, hi, hq⟩ := hyields
    exact ⟨fields, value, hrecord, hvalue, n, hi, by rwa [if_neg (by omega)]⟩

/-- A field that refers to a name yields what its reference means. -/
@[simp] theorem yields_named (Q : Name → Prop) (key : Text) (record : Json) :
    (named key record).Yields M Q ↔ ∃ (fields : Json.Fields) (ref : Json), record = .object fields ∧
      fields.get? key = some ref ∧ ∃ n, M.name ref n ∧ Q n := by
  simp [named, Yields]

/-- So does a field that may be missing, as if it were null then. -/
@[simp] theorem yields_optionalName (Q : Name → Prop) (key : Text) (fields : Json.Fields) :
    (optionalName key fields).Yields M Q ↔ ∃ n, M.name ((fields.get? key).getD .null) n ∧ Q n :=
  Iff.rfl

/-- A field that refers to a level yields what its reference means. -/
@[simp] theorem yields_operand (Q : Level → Prop) (key : Text) (record : Json) :
    (operand key record).Yields M Q ↔ ∃ (fields : Json.Fields) (ref : Json),
      record = .object fields ∧ fields.get? key = some ref ∧ ∃ l, M.level ref l ∧ Q l := by
  simp [operand, Yields]

/-- A field that refers to a term yields what its reference means. -/
@[simp] theorem yields_child (Q : Term → Prop) (key : Text) (record : Json) :
    (child key record).Yields M Q ↔ ∃ (fields : Json.Fields) (ref : Json),
      record = .object fields ∧ fields.get? key = some ref ∧ ∃ t, M.expr ref t ∧ Q t := by
  simp [child, Yields]

/-- Several references to levels yield what each of them means. -/
@[simp] theorem yields_operands (Q : List Level → Prop) (refs : List Json) :
    (each (askLevel · .done) refs).Yields M Q ↔ ∃ ls, List.Forall₂ M.level refs ls ∧ Q ls := by
  induction refs generalizing Q with
  | nil => simp [each]
  | cons ref rest ih =>
    simp only [each, askLevel_bind, done_bind, Yields, yields_bind, ih, pure_eq_done]
    constructor
    · intro hyields
      obtain ⟨l, hl, ls, hls, hq⟩ := hyields
      exact ⟨l :: ls, .cons hl hls, hq⟩
    · intro hyields
      obtain ⟨_, hls, hq⟩ := hyields
      cases hls with
      | cons hl hrest => exact ⟨_, hl, _, hrest, hq⟩

/-- What a recipe yields is some object that it yields. -/
theorem yields_iff_exists {Q : α → Prop} {r : Recipe α} :
    r.Yields M Q ↔ ∃ a, r.Yields M (· = a) ∧ Q a := by
  induction r with
  | done a => exact ⟨fun hq => ⟨a, rfl, hq⟩, fun ⟨b, hb, hq⟩ => (hb : a = b) ▸ hq⟩
  | fail e => simp
  | askName ref next ih =>
    simp only [Yields, ih]
    exact ⟨fun ⟨n, hn, a, ha, hq⟩ => ⟨a, ⟨n, hn, ha⟩, hq⟩, fun ⟨a, ⟨n, hn, ha⟩, hq⟩ => ⟨n, hn, a, ha, hq⟩⟩
  | askLevel ref next ih =>
    simp only [Yields, ih]
    exact ⟨fun ⟨l, hl, a, ha, hq⟩ => ⟨a, ⟨l, hl, ha⟩, hq⟩, fun ⟨a, ⟨l, hl, ha⟩, hq⟩ => ⟨l, hl, a, ha, hq⟩⟩
  | askExpr ref next ih =>
    simp only [Yields, ih]
    exact ⟨fun ⟨t, ht, a, ha, hq⟩ => ⟨a, ⟨t, ht, ha⟩, hq⟩, fun ⟨a, ⟨t, ht, ha⟩, hq⟩ => ⟨t, ht, a, ha, hq⟩⟩

/-- Recipes for several values yield an object for each of them. -/
theorem yields_each {step : Json → Recipe α} {Q : List α → Prop} {values : List Json} :
    (each step values).Yields M Q ↔
      ∃ xs, List.Forall₂ (fun value x => (step value).Yields M (· = x)) values xs ∧ Q xs := by
  induction values generalizing Q with
  | nil => simp [each]
  | cons value rest ih =>
    simp only [each, yields_bind, pure_eq_done, yields_done, ih]
    constructor
    · intro hyields
      obtain ⟨x, hx, xs, hxs, hq⟩ := yields_iff_exists.mp hyields
      exact ⟨x :: xs, .cons hx hxs, hq⟩
    · intro hyields
      obtain ⟨_, hall, hq⟩ := hyields
      cases hall with
      | cons hx hxs => exact yields_iff_exists.mpr ⟨_, hx, _, hxs, hq⟩

end Recipe

/-- The kind that a value names is one whose word the value is. -/
theorem eq_of_kindNamed? {κ : Type} {all : List κ} {word : κ → Text} {value : Json} {kind : κ}
    (h : Json.kindNamed? all word value = some kind) : value = .text (word kind) := by
  cases value with
  | text t =>
    have hword : word kind = t := by simpa using List.find?_some h
    rw [hword]
  | _ => cases h

/-- A value names a kind of levels exactly if it is the word for it. -/
theorem LevelKind.ofJson?_eq_some {value : Json} {kind : LevelKind} :
    LevelKind.ofJson? value = some kind ↔ value = .text kind.word := by
  refine ⟨eq_of_kindNamed?, ?_⟩
  intro heq
  subst heq
  cases kind <;> rfl

/-- A value names a kind of terms exactly if it is the word for it. -/
theorem ExprKind.ofJson?_eq_some {value : Json} {kind : ExprKind} :
    ExprKind.ofJson? value = some kind ↔ value = .text kind.word := by
  refine ⟨eq_of_kindNamed?, ?_⟩
  intro heq
  subst heq
  cases kind <;> rfl

/-- A recipe that reads the kind of a record goes on by the kind that the record names. -/
theorem Recipe.yields_ofKind {α κ : Type} {M : Meaning} {Q : α → Prop} {read : Json → Option κ}
    {word : κ → Text}
    (hread : ∀ {value kind}, read value = some kind ↔ value = .text (word kind))
    {f : Json → Recipe α} (hnone : ∀ value, read value = none → ¬ (f value).Yields M Q)
    (record : Json) : (field "kind" record >>= f).Yields M Q ↔
      ∃ (fields : Json.Fields) (kind : κ), record = .object fields ∧
        fields.get? "kind" = some (.text (word kind)) ∧ (f (.text (word kind))).Yields M Q := by
  rw [yields_bind, yields_field]
  refine ⟨fun hyields => ?_, fun hyields => ?_⟩
  · obtain ⟨fields, value, hrecord, hvalue, h⟩ := hyields
    cases hkind : read value with
    | none => exact absurd h (hnone value hkind)
    | some kind =>
      obtain rfl := hread.mp hkind
      exact ⟨fields, kind, hrecord, hvalue, h⟩
  · obtain ⟨fields, kind, hrecord, hvalue, h⟩ := hyields
    exact ⟨fields, _, hrecord, hvalue, h⟩

/-- A name is yielded by the recipe of an object that names its parent, its hash and a segment. -/
theorem yields_ofName {M : Meaning} (Q : Name → Prop) (id : Text) (record : Json) :
    (Recipe.ofName id record).Yields M Q ↔ ∃ fields : Json.Fields, record = .object fields ∧
      ∃ parent, M.name ((fields.get? "parent").getD .null) parent ∧
        ∃ hash, GivesHash fields hash ∧ match fields.get? "str", fields.get? "num" with
          | some value, _ => ∃ t n, value = .text t ∧ parent.child (.text t) hash = .ok n ∧ Q n
          | none, some value => ∃ (k : Nat) (n : Name), value.integer = .ok (k : Int) ∧
            parent.child (.number k) hash = .ok n ∧ Q n
          | none, none => fields.get? "parent" = none ∧ Q .anonymous := by
  cases record with
  | object fields =>
    simp only [Recipe.ofName, Json.fieldsFor, Recipe.yields_bind, Recipe.yields_access,
      Recipe.yields_optionalName, Recipe.yields_recordedHash, Except.ok.injEq, exists_eq_left',
      Json.object.injEq]
    refine exists_congr fun parent => and_congr_right fun _ => exists_congr fun hash =>
      and_congr_right fun _ => ?_
    cases Json.Fields.get? fields "str" with
    | some value => simp
    | none =>
      cases Json.Fields.get? fields "num" with
      | some value => simp
      | none => cases Json.Fields.get? fields "parent" <;> simp
  | _ => simp [Recipe.ofName, Json.fieldsFor]

/-- A name is denoted if the recipe of its record yields it, the parents being names that are denoted
and of which a statement was proved already. -/
theorem DenotesName.induct {tables : Tables} {motive : Json → Name → Prop}
    (null : motive .null .anonymous)
    (step : ∀ {ref id record n}, ref ≠ .null → ref.label = .ok id →
      Json.Fields.get? tables.names id = some record → (Recipe.ofName id record).Yields
        ⟨fun ref n => DenotesName tables ref n ∧ motive ref n, fun _ _ => False, fun _ _ => False⟩
        (· = n) → motive ref n)
    {ref : Json} {n : Name} (h : DenotesName tables ref n) : motive ref n := by
  induction h with
  | null => exact null
  | root hrecord hparent hhash hstr hnum =>
    obtain ⟨href, id, hlabel, hrecord⟩ := hrecord
    refine step href hlabel hrecord ((yields_ofName _ _ _).mpr ?_)
    exact ⟨_, rfl, _, by rw [hparent]; exact ⟨.null, null⟩, _, hhash, by simp [hstr, hnum, hparent]⟩
  | text hrecord hparent hhash hstr hchild ih =>
    obtain ⟨href, id, hlabel, hrecord⟩ := hrecord
    refine step href hlabel hrecord ((yields_ofName _ _ _).mpr ?_)
    exact ⟨_, rfl, _, ⟨hparent, ih⟩, _, hhash, by simp [hstr, hchild]⟩
  | number hrecord hparent hhash hstr hnum hvalue hchild ih =>
    obtain ⟨href, id, hlabel, hrecord⟩ := hrecord
    refine step href hlabel hrecord ((yields_ofName _ _ _).mpr ?_)
    exact ⟨_, rfl, _, ⟨hparent, ih⟩, _, hhash, by rw [hstr, hnum]; exact ⟨_, _, hvalue, hchild, rfl⟩⟩

/-- A reference denotes what the recipe of its record yields. -/
theorem DenotesName.of_yields {tables : Tables} {ref record : Json} {id : Text} {n : Name} (href : ref ≠ .null)
    (hlabel : ref.label = .ok id) (hrecord : Json.Fields.get? tables.names id = some record)
    (h : (Recipe.ofName id record).Yields tables.meaning (· = n)) :
    DenotesName tables ref n := by
  obtain ⟨fields, rfl, parent, hparent, hash, hhash, h⟩ := (yields_ofName _ _ _).mp h
  cases hstr : fields.get? "str" with
  | some value =>
    rw [hstr] at h
    obtain ⟨t, n, rfl, hchild, rfl⟩ := h
    exact .text ⟨href, id, hlabel, hrecord⟩ hparent hhash hstr hchild
  | none =>
    cases hnum : fields.get? "num" with
    | some value =>
      rw [hstr, hnum] at h
      obtain ⟨k, n, hvalue, hchild, rfl⟩ := h
      exact .number ⟨href, id, hlabel, hrecord⟩ hparent hhash hstr hnum hvalue hchild
    | none =>
      rw [hstr, hnum] at h
      obtain ⟨hnone, rfl⟩ := h
      exact .root ⟨href, id, hlabel, hrecord⟩ hnone hhash hstr hnum

/-- A level is yielded by the recipe of an object that names a kind and the operands of the kind. -/
theorem yields_ofLevel {M : Meaning} (Q : Level → Prop) (id : Text) (record : Json) :
    (Recipe.ofLevel id record).Yields M Q ↔ ∃ (fields : Json.Fields) (kind : LevelKind),
      record = .object fields ∧ fields.get? "kind" = some (.text kind.word) ∧ match kind with
        | .zero => Q .zero
        | .succ => ∃ of, fields.get? "of" = some of ∧ ∃ l, M.level of l ∧ Q (.succ l)
        | .max => ∃ lhs, fields.get? "lhs" = some lhs ∧ ∃ l, M.level lhs l ∧
          ∃ rhs, fields.get? "rhs" = some rhs ∧ ∃ r, M.level rhs r ∧ Q (.max l r)
        | .imax => ∃ lhs, fields.get? "lhs" = some lhs ∧ ∃ l, M.level lhs l ∧
          ∃ rhs, fields.get? "rhs" = some rhs ∧ ∃ r, M.level rhs r ∧ Q (.imax l r)
        | .param => ∃ name, fields.get? "name" = some name ∧ ∃ n, M.name name n ∧ Q (.param n)
        | .metaVar => ∃ name, fields.get? "name" = some name ∧ ∃ n, M.name name n ∧ Q (.metaVar n) := by
  rw [Recipe.ofLevel, Recipe.yields_ofKind LevelKind.ofJson?_eq_some fun value hkind => by simp [hkind]]
  refine exists_congr fun fields => exists_congr fun kind => and_congr_right fun hrecord =>
    and_congr_right fun _ => ?_
  rw [LevelKind.ofJson?_eq_some.mpr rfl, hrecord]
  cases kind <;> simp

/-- What a value lists is got exactly if it lists anything. -/
theorem listed_eq_ok_iff {value : Json} {items : List Json} :
    value.listed = .ok items ↔ value.listed? = some items := by
  unfold Json.listed
  cases value.listed? <;> simp

/-- Only an object has fields. -/
theorem fieldsFor_eq_ok_iff {member : Text} {value : Json} {fields : Json.Fields} :
    value.fieldsFor member = .ok fields ↔ value = .object fields := by
  cases value <;> simp [Json.fieldsFor]

/-- A term is yielded by the recipe of an object that names a kind and the parts of the kind. -/
theorem yields_ofExpr {M : Meaning} (Q : (NodeId → Term) → Prop) (id : Text) (record : Json) :
    (Recipe.ofExpr id record).Yields M Q ↔ ∃ (fields : Json.Fields) (kind : ExprKind),
      record = .object fields ∧ fields.get? "kind" = some (.text kind.word) ∧ match kind with
        | .boundVar => ∃ value, fields.get? "index" = some value ∧
          ∃ k : Nat, value.integer = .ok (k : Int) ∧ Q (.boundVar · k)
        | .freeVar => ∃ name, fields.get? "name" = some name ∧ ∃ n, M.name name n ∧ Q (.freeVar · n)
        | .metaVar => ∃ name, fields.get? "name" = some name ∧ ∃ n, M.name name n ∧ Q (.metaVar · n)
        | .sort => ∃ level, fields.get? "level" = some level ∧ ∃ l, M.level level l ∧ Q (.sort · l)
        | .const => ∃ refs, ((fields.get? "levels").getD (.list [])).listed? = some refs ∧
          ∃ ls, List.Forall₂ M.level refs ls ∧
            ∃ name, fields.get? "name" = some name ∧ ∃ n, M.name name n ∧ Q (.const · n ls)
        | .app => ∃ fn, fields.get? "fn" = some fn ∧ ∃ f, M.expr fn f ∧
          ∃ arg, fields.get? "arg" = some arg ∧ ∃ a, M.expr arg a ∧ Q (.app · f a)
        | .lambda => ∃ type, fields.get? "type" = some type ∧ ∃ t, M.expr type t ∧
          ∃ body, fields.get? "body" = some body ∧ ∃ b, M.expr body b ∧
            ∃ n, M.name ((fields.get? "binder").getD .null) n ∧ Q (.lambda · t b n)
        | .pi => ∃ type, fields.get? "type" = some type ∧ ∃ t, M.expr type t ∧
          ∃ body, fields.get? "body" = some body ∧ ∃ b, M.expr body b ∧
            ∃ n, M.name ((fields.get? "binder").getD .null) n ∧ Q (.pi · t b n)
        | .letIn => ∃ type, fields.get? "type" = some type ∧ ∃ t, M.expr type t ∧
          ∃ value, fields.get? "value" = some value ∧ ∃ v, M.expr value v ∧
            ∃ body, fields.get? "body" = some body ∧ ∃ b, M.expr body b ∧
              ∃ n, M.name ((fields.get? "binder").getD .null) n ∧ Q (.letIn · t v b n)
        | .natural => ∃ given, fields.get? "value" = some given ∧
          ∃ k : Nat, given.integer = .ok (k : Int) ∧ Q (.natural · k)
        | .text => ∃ given, fields.get? "value" = some given ∧
          ∃ t, given.label = .ok t ∧ Q (.text · t)
        | .annotated => ∃ data : Json.Fields, (fields.get? "data").getD (.object []) = .object data ∧
            ∃ expr, fields.get? "expr" = some expr ∧
              ∃ t, M.expr expr t ∧ Q (.annotated · t data.sort)
        | .proj => ∃ name, fields.get? "type_name" = some name ∧ ∃ n, M.name name n ∧
          ∃ value, fields.get? "index" = some value ∧ ∃ index, value.integer = .ok index ∧
            ∃ struct, fields.get? "struct" = some struct ∧
              ∃ t, M.expr struct t ∧ Q (.proj · n index t) := by
  rw [Recipe.ofExpr, Recipe.yields_ofKind ExprKind.ofJson?_eq_some fun value hkind => by simp [hkind]]
  refine exists_congr fun fields => exists_congr fun kind => and_congr_right fun hrecord =>
    and_congr_right fun _ => ?_
  rw [ExprKind.ofJson?_eq_some.mpr rfl, hrecord]
  cases kind <;> simp [Json.fields, listed_eq_ok_iff, fieldsFor_eq_ok_iff]

/-- A level is denoted if the recipe of its record yields it, the operands being levels that are
denoted and of which a statement was proved already. -/
theorem DenotesLevel.induct {tables : Tables} {motive : Json → Level → Prop}
    (step : ∀ {ref id record l}, ref.label = .ok id →
      Json.Fields.get? tables.levels id = some record → (Recipe.ofLevel id record).Yields
        ⟨DenotesName tables, fun ref l => DenotesLevel tables ref l ∧ motive ref l,
          fun _ _ => False⟩ (· = l) → motive ref l)
    {ref : Json} {l : Level} (h : DenotesLevel tables ref l) : motive ref l := by
  have hstep {ref : Json} {fields : Json.Fields} {kind : LevelKind} {l : Level}
      (hrecord : tables.LevelRecord kind ref fields) h :=
    have ⟨⟨_, hlabel, hfields⟩, hkind⟩ := hrecord
    step hlabel hfields ((yields_ofLevel (· = l) _ _).mpr ⟨fields, kind, rfl, hkind, h⟩)
  induction h with
  | zero hrecord => exact hstep hrecord rfl
  | succ hrecord hof h ih => exact hstep hrecord ⟨_, hof, _, ⟨h, ih⟩, rfl⟩
  | max hrecord hlhs hl hrhs hr ihl ihr =>
    exact hstep hrecord ⟨_, hlhs, _, ⟨hl, ihl⟩, _, hrhs, _, ⟨hr, ihr⟩, rfl⟩
  | imax hrecord hlhs hl hrhs hr ihl ihr =>
    exact hstep hrecord ⟨_, hlhs, _, ⟨hl, ihl⟩, _, hrhs, _, ⟨hr, ihr⟩, rfl⟩
  | param hrecord hname hn => exact hstep hrecord ⟨_, hname, _, hn, rfl⟩
  | metaVar hrecord hname hn => exact hstep hrecord ⟨_, hname, _, hn, rfl⟩

/-- A reference denotes the level that the recipe of its record yields. -/
theorem DenotesLevel.of_yields {tables : Tables} {ref record : Json} {id : Text} {l : Level}
    (hlabel : ref.label = .ok id) (hrecord : Json.Fields.get? tables.levels id = some record)
    (h : (Recipe.ofLevel id record).Yields tables.meaning (· = l)) :
    DenotesLevel tables ref l := by
  obtain ⟨fields, kind, rfl, hkind, h⟩ := (yields_ofLevel _ _ _).mp h
  cases kind with
  | zero =>
    obtain rfl : Level.zero = l := h
    exact .zero ⟨⟨id, hlabel, hrecord⟩, hkind⟩
  | succ =>
    obtain ⟨of, hof, l, hl, rfl⟩ := h
    exact .succ ⟨⟨id, hlabel, hrecord⟩, hkind⟩ hof hl
  | max =>
    obtain ⟨lhs, hlhs, l, hl, rhs, hrhs, r, hr, rfl⟩ := h
    exact .max ⟨⟨id, hlabel, hrecord⟩, hkind⟩ hlhs hl hrhs hr
  | imax =>
    obtain ⟨lhs, hlhs, l, hl, rhs, hrhs, r, hr, rfl⟩ := h
    exact .imax ⟨⟨id, hlabel, hrecord⟩, hkind⟩ hlhs hl hrhs hr
  | param =>
    obtain ⟨name, hname, n, hn, rfl⟩ := h
    exact .param ⟨⟨id, hlabel, hrecord⟩, hkind⟩ hname hn
  | metaVar =>
    obtain ⟨name, hname, n, hn, rfl⟩ := h
    exact .metaVar ⟨⟨id, hlabel, hrecord⟩, hkind⟩ hname hn

/-- What a reference denotes is a tree. -/
theorem DenotesExpr.tree_eq {tables : Tables} {ref : Json} {t : Term}
    (h : DenotesExpr tables ref t) : t.tree = t := by
  induction h <;> simp_all [Term.tree]

/-- A term is denoted if the recipe of its record yields it, the parts being terms that are denoted
and of which a statement was proved already. -/
theorem DenotesExpr.induct {tables : Tables} {motive : Json → Term → Prop}
    (step : ∀ {ref id record t}, ref.label = .ok id →
      Json.Fields.get? tables.exprs id = some record → (Recipe.ofExpr id record).Yields
        ⟨DenotesName tables, DenotesLevel tables,
          fun ref t => DenotesExpr tables ref t ∧ motive ref t⟩ (Recipe.MakesTree · t) → motive ref t)
    {ref : Json} {t : Term} (h : DenotesExpr tables ref t) : motive ref t := by
  have hstep {ref : Json} {fields : Json.Fields} {kind : ExprKind} {t : Term}
      (hrecord : tables.ExprRecord kind ref fields) h :=
    have ⟨⟨_, hlabel, hfields⟩, hkind⟩ := hrecord
    step hlabel hfields
      ((yields_ofExpr (Recipe.MakesTree · t) _ _).mpr ⟨fields, kind, rfl, hkind, h⟩)
  induction h with
  | boundVar hrecord hindex hvalue => exact hstep hrecord ⟨_, hindex, _, hvalue, fun _ => rfl⟩
  | freeVar hrecord hname hn => exact hstep hrecord ⟨_, hname, _, hn, fun _ => rfl⟩
  | metaVar hrecord hname hn => exact hstep hrecord ⟨_, hname, _, hn, fun _ => rfl⟩
  | sort hrecord hlevel hl => exact hstep hrecord ⟨_, hlevel, _, hl, fun _ => rfl⟩
  | const hrecord hrefs hlevels hname hn =>
    exact hstep hrecord ⟨_, hrefs, _, hlevels, _, hname, _, hn, fun _ => rfl⟩
  | app hrecord hfn hf harg ha ihf iha =>
    exact hstep hrecord ⟨_, hfn, _, ⟨hf, ihf⟩, _, harg, _, ⟨ha, iha⟩, fun _ => by
      rw [Term.tree, hf.tree_eq, ha.tree_eq]⟩
  | lambda hrecord htype ht hbody hb hn iht ihb =>
    exact hstep hrecord ⟨_, htype, _, ⟨ht, iht⟩, _, hbody, _, ⟨hb, ihb⟩, _, hn, fun _ => by
      rw [Term.tree, ht.tree_eq, hb.tree_eq]⟩
  | pi hrecord htype ht hbody hb hn iht ihb =>
    exact hstep hrecord ⟨_, htype, _, ⟨ht, iht⟩, _, hbody, _, ⟨hb, ihb⟩, _, hn, fun _ => by
      rw [Term.tree, ht.tree_eq, hb.tree_eq]⟩
  | letIn hrecord htype ht hvalue hv hbody hb hn iht ihv ihb =>
    exact hstep hrecord ⟨_, htype, _, ⟨ht, iht⟩, _, hvalue, _, ⟨hv, ihv⟩, _, hbody, _, ⟨hb, ihb⟩, _,
      hn, fun _ => by rw [Term.tree, ht.tree_eq, hv.tree_eq, hb.tree_eq]⟩
  | natural hrecord hgiven hvalue => exact hstep hrecord ⟨_, hgiven, _, hvalue, fun _ => rfl⟩
  | text hrecord hgiven hlabel => exact hstep hrecord ⟨_, hgiven, _, hlabel, fun _ => rfl⟩
  | annotated hrecord hdata hexpr ht iht =>
    exact hstep hrecord ⟨_, hdata, _, hexpr, _, ⟨ht, iht⟩, fun _ => by rw [Term.tree, ht.tree_eq]⟩
  | proj hrecord hname hn hindex hvalue hstruct ht iht =>
    exact hstep hrecord ⟨_, hname, _, hn, _, hindex, _, hvalue, _, hstruct, _, ⟨ht, iht⟩, fun _ => by
      rw [Term.tree, ht.tree_eq]⟩

/-- A reference denotes the tree of the terms that the recipe of its record yields. -/
theorem DenotesExpr.of_yields {tables : Tables} {ref record : Json} {id : Text} {t : Term}
    (hlabel : ref.label = .ok id) (hrecord : Json.Fields.get? tables.exprs id = some record)
    (h : (Recipe.ofExpr id record).Yields tables.meaning (Recipe.MakesTree · t)) :
    DenotesExpr tables ref t := by
  obtain ⟨fields, kind, rfl, hkind, h⟩ := (yields_ofExpr _ _ _).mp h
  cases kind with
  | boundVar =>
    obtain ⟨value, hindex, k, hvalue, h⟩ := h
    exact h 0 ▸ .boundVar ⟨⟨id, hlabel, hrecord⟩, hkind⟩ hindex hvalue
  | freeVar =>
    obtain ⟨name, hname, n, hn, h⟩ := h
    exact h 0 ▸ .freeVar ⟨⟨id, hlabel, hrecord⟩, hkind⟩ hname hn
  | metaVar =>
    obtain ⟨name, hname, n, hn, h⟩ := h
    exact h 0 ▸ .metaVar ⟨⟨id, hlabel, hrecord⟩, hkind⟩ hname hn
  | sort =>
    obtain ⟨level, hlevel, l, hl, h⟩ := h
    exact h 0 ▸ .sort ⟨⟨id, hlabel, hrecord⟩, hkind⟩ hlevel hl
  | const =>
    obtain ⟨refs, hrefs, ls, hlevels, name, hname, n, hn, h⟩ := h
    exact h 0 ▸ .const ⟨⟨id, hlabel, hrecord⟩, hkind⟩ hrefs hlevels hname hn
  | app =>
    obtain ⟨fn, hfn, f, hf, arg, harg, a, ha, h⟩ := h
    rw [← h 0, Term.tree, hf.tree_eq, ha.tree_eq]
    exact .app ⟨⟨id, hlabel, hrecord⟩, hkind⟩ hfn hf harg ha
  | lambda =>
    obtain ⟨type, htype, u, hu, body, hbody, b, hb, n, hn, h⟩ := h
    rw [← h 0, Term.tree, hu.tree_eq, hb.tree_eq]
    exact .lambda ⟨⟨id, hlabel, hrecord⟩, hkind⟩ htype hu hbody hb hn
  | pi =>
    obtain ⟨type, htype, u, hu, body, hbody, b, hb, n, hn, h⟩ := h
    rw [← h 0, Term.tree, hu.tree_eq, hb.tree_eq]
    exact .pi ⟨⟨id, hlabel, hrecord⟩, hkind⟩ htype hu hbody hb hn
  | letIn =>
    obtain ⟨type, htype, u, hu, value, hvalue, v, hv, body, hbody, b, hb, n, hn, h⟩ := h
    rw [← h 0, Term.tree, hu.tree_eq, hv.tree_eq, hb.tree_eq]
    exact .letIn ⟨⟨id, hlabel, hrecord⟩, hkind⟩ htype hu hvalue hv hbody hb hn
  | natural =>
    obtain ⟨given, hgiven, k, hvalue, h⟩ := h
    exact h 0 ▸ .natural ⟨⟨id, hlabel, hrecord⟩, hkind⟩ hgiven hvalue
  | text =>
    obtain ⟨given, hgiven, t, ht, h⟩ := h
    exact h 0 ▸ .text ⟨⟨id, hlabel, hrecord⟩, hkind⟩ hgiven ht
  | annotated =>
    obtain ⟨data, hdata, expr, hexpr, u, hu, h⟩ := h
    rw [← h 0, Term.tree, hu.tree_eq]
    exact .annotated ⟨⟨id, hlabel, hrecord⟩, hkind⟩ hdata hexpr hu
  | proj =>
    obtain ⟨name, hname, n, hn, value, hindex, index, hvalue, struct, hstruct, u, hu, h⟩ := h
    rw [← h 0, Term.tree, hu.tree_eq]
    exact .proj ⟨⟨id, hlabel, hrecord⟩, hkind⟩ hname hn hindex hvalue hstruct hu

section

variable {tables : Tables} {ref : Json}

/-- A reference that is not null denotes the names that the recipe of its record yields. -/
theorem denotesName_iff {n : Name} (href : ref ≠ .null) : DenotesName tables ref n ↔
    ∃ id record, ref.label = .ok id ∧ Json.Fields.get? tables.names id = some record ∧
      (Recipe.ofName id record).Yields tables.meaning (· = n) := by
  constructor
  · intro h
    refine DenotesName.induct (motive := fun ref n => ref ≠ .null → ∃ id record, ref.label = .ok id ∧
      Json.Fields.get? tables.names id = some record ∧
        (Recipe.ofName id record).Yields tables.meaning (· = n)) (absurd rfl) ?_ h href
    intro ref id record n _ hlabel hrecord hyields _
    exact ⟨id, record, hlabel, hrecord,
      hyields.mono (fun _ _ h => h.1) (fun _ _ h => h.elim) (fun _ _ h => h.elim)⟩
  · intro hyields
    obtain ⟨id, record, hlabel, hrecord, hyields⟩ := hyields
    exact .of_yields href hlabel hrecord hyields

/-- A reference denotes the levels that the recipe of its record yields. -/
theorem denotesLevel_iff {l : Level} : DenotesLevel tables ref l ↔
    ∃ id record, ref.label = .ok id ∧ Json.Fields.get? tables.levels id = some record ∧
      (Recipe.ofLevel id record).Yields tables.meaning (· = l) := by
  constructor
  · refine DenotesLevel.induct (motive := fun ref l => ∃ id record, ref.label = .ok id ∧
      Json.Fields.get? tables.levels id = some record ∧
        (Recipe.ofLevel id record).Yields tables.meaning (· = l)) fun hlabel hrecord hyields =>
      ⟨_, _, hlabel, hrecord, ?_⟩
    exact hyields.mono (fun _ _ h => h) (fun _ _ h => h.1) (fun _ _ h => h.elim)
  · intro hyields
    obtain ⟨id, record, hlabel, hrecord, hyields⟩ := hyields
    exact .of_yields hlabel hrecord hyields

/-- A reference denotes the trees of the terms that the recipe of its record yields. -/
theorem denotesExpr_iff {t : Term} : DenotesExpr tables ref t ↔
    ∃ id record, ref.label = .ok id ∧ Json.Fields.get? tables.exprs id = some record ∧
      (Recipe.ofExpr id record).Yields tables.meaning (Recipe.MakesTree · t) := by
  constructor
  · refine DenotesExpr.induct (motive := fun ref t => ∃ id record, ref.label = .ok id ∧
      Json.Fields.get? tables.exprs id = some record ∧
        (Recipe.ofExpr id record).Yields tables.meaning (Recipe.MakesTree · t))
      fun hlabel hrecord hyields => ⟨_, _, hlabel, hrecord, ?_⟩
    exact hyields.mono (fun _ _ h => h) (fun _ _ h => h) (fun _ _ h => h.1)
  · intro hyields
    obtain ⟨id, record, hlabel, hrecord, hyields⟩ := hyields
    exact .of_yields hlabel hrecord hyields

/-- What a reference denotes depends on its label only, unless it is null. -/
theorem denotesName_label {id : Text} {n : Name} (href : ref ≠ .null) (hlabel : ref.label = .ok id) :
    DenotesName tables (.text id) n ↔ DenotesName tables ref n := by
  rw [denotesName_iff href, denotesName_iff (by simp), hlabel]
  rfl

/-- What a reference to a level denotes depends on its label only. -/
theorem denotesLevel_label {id : Text} {l : Level} (hlabel : ref.label = .ok id) :
    DenotesLevel tables (.text id) l ↔ DenotesLevel tables ref l := by
  rw [denotesLevel_iff, denotesLevel_iff, hlabel]
  rfl

/-- What a reference to a term denotes depends on its label only. -/
theorem denotesExpr_label {id : Text} {t : Term} (hlabel : ref.label = .ok id) :
    DenotesExpr tables (.text id) t ↔ DenotesExpr tables ref t := by
  rw [denotesExpr_iff, denotesExpr_iff, hlabel]
  rfl

end

end TermText.Dump
