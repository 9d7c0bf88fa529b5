import TermText.Proofs.Declaration.Numbers
import TermText.Proofs.Dump.Calls
import TermText.Proofs.Dump.Identity
import TermText.Proofs.Json.Digits
import TermText.Proofs.Name.Default

/-!
# The numbers of a module that was loaded

A loaded module consists of declarations of the model, and its numbers come from the dump or are made
in one of a few ways: default hashes, truth values, integer parts of doubles, numerals in texts. So a
property that all these have is one of all numbers of the module, if all integers of the dump have it.
-/

namespace TermText

namespace Json

section

variable (P : Int → Prop)

mutual

/-- A document all of whose integers have a property. -/
def IntegersIn : Json → Prop
  | .int n => P n
  | .list items => ItemsIntegersIn items
  | .object fields => FieldsIntegersIn fields
  | _ => True

/-- Items all of whose integers have a property. -/
def ItemsIntegersIn : List Json → Prop
  | [] => True
  | item :: rest => IntegersIn item ∧ ItemsIntegersIn rest

/-- Fields all of whose integers have a property. -/
def FieldsIntegersIn : List (Text × Json) → Prop
  | [] => True
  | (_, value) :: rest => IntegersIn value ∧ FieldsIntegersIn rest

end

end

variable {P : Int → Prop}

/-- The integers in fields are of a kind exactly if those in each are. -/
theorem fieldsIntegersIn_iff {fields : Json.Fields} :
    FieldsIntegersIn P fields ↔ ∀ field ∈ fields, field.2.IntegersIn P := by
  induction fields with
  | nil => simp [FieldsIntegersIn]
  | cons field rest ih => simp [FieldsIntegersIn, ih]

/-- The integers of a field are among those of the object. -/
theorem IntegersIn.of_get? {fields : Json.Fields} {key : Text} {value : Json}
    (h : (Json.object fields).IntegersIn P) (hvalue : fields.get? key = some value) :
    value.IntegersIn P :=
  fieldsIntegersIn_iff.mp h _ (Json.Fields.exists_mem_of_get? hvalue)

mutual

/-- All integers are integers of some kind. -/
theorem integersIn_true (value : Json) : value.IntegersIn fun _ => True := by
  cases value with
  | list items => exact itemsIntegersIn_true items
  | object fields => exact fieldsIntegersIn_true fields
  | _ => trivial

/-- Likewise for the items of a list. -/
theorem itemsIntegersIn_true (items : List Json) : ItemsIntegersIn (fun _ => True) items := by
  cases items with
  | nil => trivial
  | cons item rest => exact ⟨integersIn_true item, itemsIntegersIn_true rest⟩

/-- Likewise for the fields of an object. -/
theorem fieldsIntegersIn_true (fields : List (Text × Json)) :
    FieldsIntegersIn (fun _ => True) fields := by
  cases fields with
  | nil => trivial
  | cons field rest => exact ⟨integersIn_true field.2, fieldsIntegersIn_true rest⟩

end

end Json

namespace Dump

/-- A property of all integers that a dump may give in another way than as integers. -/
structure Admits (P : Int → Prop) : Prop where
  root : P Name.anonymousHash
  digest : ∀ message : List UInt8, P (Blake2b.digest8 message)
  truth : ∀ b : Bool, P b.toNat
  double : ∀ x : Finite64, P x.truncate
  numeral : ∀ t n, Numeral.readInt t = .ok n → P n

/-- All of them fit. -/
theorem admits_fits : Admits Numeral.Fits where
  root := Numeral.fits_of_lt_pow 4 (by decide) (by decide)
  digest := Blake2b.fits_digest8
  truth b := Numeral.fits_of_lt_pow 1 (by decide) (by cases b <;> decide)
  double := Finite64.fits_truncate
  numeral _ _ h := Numeral.fits_of_readInt h

/-- What follows for each of two related members holds of all members that are related one by one. -/
theorem forall_mem_of_forall₂ {α β : Type} {R : α → β → Prop} {Q : β → Prop} {xs : List α}
    {ys : List β} (h : List.Forall₂ R xs ys) (hR : ∀ x y, R x y → Q y) : ∀ y ∈ ys, Q y := by
  induction h with
  | nil => exact List.forall_mem_nil _
  | cons hfirst _ ih => exact List.forall_mem_cons.mpr ⟨hR _ _ hfirst, ih⟩

/-- Tables all of whose integers that names and terms are made of have a property. -/
structure Tables.IntegersIn (P : Int → Prop) (tables : Tables) : Prop where
  names : ∀ id record, Json.Fields.get? tables.names id = some record → record.IntegersIn P
  exprs : ∀ id record, Json.Fields.get? tables.exprs id = some record → record.IntegersIn P

section

variable {P : Int → Prop} {tables : Tables} {ref : Json} {fields : Json.Fields}

/-- The record that a reference to a name stands for is one of the tables. -/
theorem Tables.IntegersIn.nameRecord (h : tables.IntegersIn P) (hrecord : tables.NameRecord ref fields) :
    (Json.object fields).IntegersIn P := by
  obtain ⟨-, id, -, hrecord⟩ := hrecord
  exact h.names id _ hrecord

/-- Likewise for a term. -/
theorem Tables.IntegersIn.exprRecord {kind : ExprKind} (h : tables.IntegersIn P)
    (hrecord : tables.ExprRecord kind ref fields) : (Json.object fields).IntegersIn P := by
  obtain ⟨⟨id, -, hrecord⟩, -⟩ := hrecord
  exact h.exprs id _ hrecord

end

section

variable {P : Int → Prop} {tables : Tables} (hP : Admits P)

include hP

/-- An integer that a value gives is one of its integers or made in one of these ways. -/
theorem Admits.integer {value : Json} {n : Int} (hvalue : value.IntegersIn P)
    (hn : value.integer = .ok n) : P n := by
  cases value with
  | bool b =>
    obtain rfl := Except.ok.inj hn
    exact hP.truth b
  | int i =>
    obtain rfl := Except.ok.inj hn
    exact hvalue
  | float x =>
    cases x with
    | finite x =>
      obtain rfl := Except.ok.inj hn
      exact hP.double x
    | _ => cases hn
  | text t =>
    rw [Json.integer] at hn
    cases hread : Numeral.readInt t with
    | error e => rw [hread] at hn; cases hn
    | ok i =>
      rw [hread] at hn
      obtain rfl := Except.ok.inj hn
      exact hP.numeral t i hread
  | _ => cases hn

/-- The numbers of a name that is made of another one and a link of a record. -/
theorem Admits.numbersIn_child {parent n : Name} {segment : Segment} {hash : Json}
    {fields : Json.Fields} (hfields : (Json.object fields).IntegersIn P)
    (hparent : parent.NumbersIn P) (hhash : GivesHash fields hash)
    (hchild : parent.child segment hash = .ok n) (hsegment : segment.NumbersIn P) :
    n.NumbersIn P := by
  have hnull (h : parent.child segment .null = .ok n) : n.NumbersIn P := by
    obtain ⟨octets, -, rfl, -⟩ := Name.exists_octets_of_child h
    exact ⟨hparent, hsegment, _, rfl, hP.digest octets⟩
  cases hhash with
  | missing | null => exact hnull hchild
  | integer hgiven hvalue =>
    obtain rfl := Except.ok.inj hchild
    exact ⟨hparent, hsegment, _, rfl, hP.integer (hfields.of_get? hgiven) hvalue⟩

variable (htables : tables.IntegersIn P)

include htables

/-- A name that tables denote is made of their integers. -/
theorem DenotesName.numbersIn {ref : Json} {n : Name} (h : DenotesName tables ref n) :
    n.NumbersIn P := by
  induction h with
  | null | root => exact hP.root
  | text hrecord _ hhash _ hchild ih =>
    exact hP.numbersIn_child (htables.nameRecord hrecord) ih hhash hchild trivial
  | number hrecord _ hhash _ hnum hvalue hchild ih =>
    have hfields := htables.nameRecord hrecord
    exact hP.numbersIn_child hfields ih hhash hchild (hP.integer (hfields.of_get? hnum) hvalue)

/-- So is a level. -/
theorem DenotesLevel.numbersIn {ref : Json} {l : Level} (h : DenotesLevel tables ref l) :
    l.NumbersIn P := by
  induction h with
  | zero => trivial
  | succ _ _ _ ih => exact ih
  | max _ _ _ _ _ ihl ihr => exact ⟨ihl, ihr⟩
  | imax _ _ _ _ _ ihl ihr => exact ⟨ihl, ihr⟩
  | param _ _ hn => exact hn.numbersIn hP htables
  | metaVar _ _ hn => exact hn.numbersIn hP htables

/-- So is a term. -/
theorem DenotesExpr.numbersIn {ref : Json} {t : Term} (h : DenotesExpr tables ref t) :
    t.NumbersIn P := by
  induction h with
  | boundVar hrecord hindex hvalue =>
    exact hP.integer ((htables.exprRecord hrecord).of_get? hindex) hvalue
  | natural hrecord hgiven hvalue =>
    exact hP.integer ((htables.exprRecord hrecord).of_get? hgiven) hvalue
  | freeVar _ _ hn => exact hn.numbersIn hP htables
  | metaVar _ _ hn => exact hn.numbersIn hP htables
  | sort _ _ hl => exact hl.numbersIn hP htables
  | const _ _ hlevels _ hn =>
    exact ⟨hn.numbersIn hP htables, forall_mem_of_forall₂ hlevels fun _ _ hl => hl.numbersIn hP htables⟩
  | app _ _ _ _ _ ihf iha => exact ⟨ihf, iha⟩
  | lambda _ _ _ _ _ _ iht ihb => exact ⟨iht, ihb⟩
  | pi _ _ _ _ _ _ iht ihb => exact ⟨iht, ihb⟩
  | letIn _ _ _ _ _ _ _ _ iht ihv ihb => exact ⟨iht, ihv, ihb⟩
  | text => trivial
  | annotated _ _ _ _ ih => exact ih
  | proj hrecord _ hn hindex hvalue _ _ ih =>
    have hindex := hP.integer ((htables.exprRecord hrecord).of_get? hindex) hvalue
    exact ⟨hn.numbersIn hP htables, hindex, ih⟩

end

namespace Recipe

variable {P : Int → Prop} {M : Meaning} (hname : ∀ ref n, M.name ref n → n.NumbersIn P)
  (hexpr : ∀ ref t, M.expr ref t → t.NumbersIn P)

include hname hexpr

/-- The payload that a recipe yields has the numbers of the answers and of the constructors. -/
theorem numbersIn_of_yields_payload {declare : Json → Recipe Declaration} {record : Json}
    {payload : Payload} (h : (ofPayload declare record).Yields M (· = payload))
    (hdeclare : ∀ inner d, (declare inner).Yields M (· = d) → d.NumbersIn P) :
    Declaration.PayloadNumbersIn P payload := by
  obtain ⟨fields, kind, rfl, -, h⟩ := (yields_ofPayload _ _ _).mp h
  cases kind with
  | assumption | eliminator =>
    obtain rfl := h
    trivial
  | definition | proof | sealed =>
    obtain ⟨ref, _, t, ht, rfl⟩ := h
    exact hexpr ref t ht
  | constructor =>
    obtain ⟨ref, _, n, hn, rfl⟩ := h
    exact hname ref n hn
  | quotient =>
    obtain ⟨given, _, quotient, _, ref, _, n, hn, rfl⟩ := h
    exact hname ref n hn
  | family =>
    obtain ⟨_, ds, hds, rfl⟩ := h
    exact Declaration.allNumbersIn_iff.mpr (forall_mem_of_forall₂ hds hdeclare)

/-- The declaration that a recipe yields has the numbers of the answers. -/
theorem numbersIn_of_yields {bound : Nat} {record : Json} {d : Declaration}
    (h : (ofDeclaration bound record).Yields M (· = d)) : d.NumbersIn P := by
  induction bound generalizing record d with
  | zero => exact h.elim
  | succ bound ih =>
    simp only [ofDeclaration, yields_blaming, yields_bind, yields_named, yields_child] at h
    obtain ⟨_, nameRef, _, _, n, hn, _, typeRef, _, _, t, ht, h⟩ := h
    obtain ⟨payload, hpayload, rfl⟩ := yields_iff_exists.mp h
    exact ⟨hname nameRef n hn, hexpr typeRef t ht,
      numbersIn_of_yields_payload hname hexpr hpayload fun _ _ => ih⟩

end Recipe

section

variable {P : Int → Prop} (hP : Admits P)

include hP

/-- Declarations that are loaded one after another are made of the integers of the tables. -/
theorem numbersIn_of_each {tables : Tables} (htables : tables.IntegersIn P) {records : List Json}
    {ds : List Declaration} {s s' : Session} (hs : s.Fits tables [])
    (hrun : Load.each (declaration tables) records s = .ok ds s') : ∀ d ∈ ds, d.NumbersIn P := by
  induction records generalizing ds s with
  | nil =>
    cases hrun
    exact List.forall_mem_nil _
  | cons record rest ih =>
    obtain ⟨d, s₁, hfirst, hmore⟩ := Load.bind_ok hrun
    obtain ⟨ds', s₂, hrest, hlast⟩ := Load.bind_ok hmore
    cases hlast
    obtain ⟨hs₁, tree, htree, hyields⟩ := (decides_declaration tables record).of_ok hs hfirst
    obtain ⟨d', hd', htree'⟩ := Recipe.yields_iff_exists.mp hyields
    have hnumbers : d'.NumbersIn P := Recipe.numbersIn_of_yields
      (fun _ _ hn => DenotesName.numbersIn hP htables hn)
      (fun _ _ ht => DenotesExpr.numbersIn hP htables ht) hd'
    have htrees : d'.tree = d.tree := htree'.trans htree.symm
    rw [← Declaration.numbersIn_tree, htrees, Declaration.numbersIn_tree] at hnumbers
    exact List.forall_mem_cons.mpr ⟨hnumbers, ih hs₁ hrest⟩

end

/-- The integers of the tables of a dump are integers of the dump. -/
theorem integersIn_of_tablesOf {P : Int → Prop} {dump : Json} {tables : Tables}
    (hdump : dump.IntegersIn P) (h : tablesOf dump.fields = .ok tables) : tables.IntegersIn P := by
  have hfields : (Json.object dump.fields).IntegersIn P := by
    cases dump with
    | object fields => exact hdump
    | _ => trivial
  have htable {table : Table} {records : Json.Fields} (h : tableOf dump.fields table = .ok records)
      (id : Text) (record : Json) (hrecord : records.get? id = some record) :
      record.IntegersIn P := by
    unfold tableOf at h
    split at h
    · cases h
      cases hrecord
    · next given hgiven =>
      cases h
      exact (hfields.of_get? hgiven).of_get? hrecord
    · cases h
  obtain ⟨hnames, -, hexprs⟩ := tablesOf_eq_ok h
  exact ⟨htable hnames, htable hexprs⟩

/-- A module that is loaded consists of declarations of the model, whose numbers are integers of the
dump or made in one of the other ways. -/
theorem numbersIn_of_load {P : Int → Prop} (hP : Admits P) {dump : Json} {m : Module}
    (hdump : dump.IntegersIn P) (h : load dump = .ok m) : m.NumbersIn P := by
  obtain ⟨records, tables, s, hrecords, htablesOf, hrun⟩ := exists_of_load h
  have htables := integersIn_of_tablesOf hdump htablesOf
  obtain ⟨n, s₁, hname, hmore⟩ := Load.bind_ok hrun
  rw [hrecords] at hmore
  obtain ⟨ds, s₂, hds, hlast⟩ := Load.bind_ok hmore
  cases hlast
  have hdecides := (tables.decides_all _).name ((dump.fields.get? "module").getD .null) fun _ h => h
  obtain ⟨hs₁, _, rfl, hn⟩ := hdecides.of_ok (Session.fits_empty tables) hname
  exact ⟨hn.numbersIn hP htables, numbersIn_of_each hP htables hs₁ hds⟩

end Dump

end TermText
