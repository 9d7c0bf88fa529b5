import TermText.Proofs.Dump.Escape
import TermText.Proofs.Name.Default
import TermText.Proofs.Text.Utf8

/-!
# Flaws of records

What can be wrong with a record by itself, seen in its own value without following a reference: it is no
object, it lacks a field of its kind or names no kind, a field is ill-typed, or a value that is written as
a text holds an integer above the limit for numerals. Each flaw comes with the error that reports it. A
record with a flaw denotes nothing, whatever the other records are; and what the recipe of a record fails
with, beside the errors of its references, is a flaw of the record, unless a segment has no default hash
as the hash of its parent is above the limit.
-/

namespace TermText.Dump

/-- The kind that a level record names. -/
def levelKind? (fields : Json.Fields) : Option LevelKind :=
  (fields.get? "kind").bind LevelKind.ofJson?

/-- The kind that a term record names. -/
def exprKind? (fields : Json.Fields) : Option ExprKind :=
  (fields.get? "kind").bind ExprKind.ofJson?

/-- The fields that a level record of a kind must have. -/
def LevelKind.required : LevelKind → List Text
  | .zero => []
  | .succ => ["of"]
  | .max | .imax => ["lhs", "rhs"]
  | .param | .metaVar => ["name"]

/-- The fields that a term record of a kind must have. -/
def ExprKind.required : ExprKind → List Text
  | .boundVar => ["index"]
  | .freeVar | .metaVar | .const => ["name"]
  | .sort => ["level"]
  | .app => ["fn", "arg"]
  | .lambda | .pi => ["type", "body"]
  | .letIn => ["type", "value", "body"]
  | .natural | .text => ["value"]
  | .annotated => ["expr"]
  | .proj => ["type_name", "index", "struct"]

/-- The fields that a record must have, its kind first if the table has kinds. -/
def Table.required (fields : Json.Fields) : Table → List Text
  | .names => []
  | .levels => "kind" :: (levelKind? fields).elim [] LevelKind.required
  | .exprs => "kind" :: (exprKind? fields).elim [] ExprKind.required

/-- The field of a record that gives a natural number. -/
def Table.naturalKey? (fields : Json.Fields) : Table → Option Text
  | .names => if (fields.get? "str").isSome then none else some "num"
  | .levels => none
  | .exprs =>
    match exprKind? fields with
    | some .boundVar => some "index"
    | some .natural => some "value"
    | _ => none

/-- The fields of a term record of a kind that are written as texts. -/
def ExprKind.written : ExprKind → List Text
  | .boundVar | .natural => []
  | .lambda | .pi => ["type", "body", "binder"]
  | .letIn => ["type", "value", "body", "binder"]
  | .proj => ["type_name", "struct"]
  | kind => kind.required

/-- The values of a record that are written as texts: its references, a literal, and a kind that is not
known. -/
def Table.written (fields : Json.Fields) : Table → List Json
  | .names => (fields.get? "parent").toList
  | .levels =>
    match levelKind? fields with
    | some kind => kind.required.filterMap fields.get?
    | none => (fields.get? "kind").toList
  | .exprs =>
    match exprKind? fields with
    | some kind => kind.written.filterMap fields.get? ++
      if kind = .const then ((fields.get? "levels").getD (.list [])).listed?.getD [] else []
    | none => (fields.get? "kind").toList

/-- The error that reports a bad number of a record. -/
def Error.ofNumber (table : Table) (id : Text) (f : Fault) : Error :=
  if f.isBadNumber then .badNumber table id f else .malformed table id f

/-- What is wrong with a record by itself, and the error that says so. -/
inductive Flaw (id : Text) : Table → Json → Error → Prop where
  | notAnObject {table : Table} {record : Json} {e : Json.AccessError}
      (hobject : ∀ fields, record ≠ .object fields) (he : ∀ key, e ≠ .missing key) :
      Flaw id table record (.malformed table id (.access e))
  | missing {table : Table} {fields : Json.Fields} {key : Text} (hkey : key ∈ table.required fields)
      (hmissing : fields.get? key = none) :
      Flaw id table (.object fields) (.malformed table id (.access (.missing key)))
  | unknownLevel {fields : Json.Fields} {kind : Json} {shown : Text}
      (hkind : fields.get? "kind" = some kind) (hunknown : LevelKind.ofJson? kind = none)
      (hshown : kind.describe = .ok shown) :
      Flaw id .levels (.object fields) (.unknownKind .levels id shown)
  | unknownExpr {fields : Json.Fields} {kind : Json} {shown : Text}
      (hkind : fields.get? "kind" = some kind) (hunknown : ExprKind.ofJson? kind = none)
      (hshown : kind.describe = .ok shown) :
      Flaw id .exprs (.object fields) (.unknownKind .exprs id shown)
  | unwritten {table : Table} {fields : Json.Fields} {value : Json}
      (hvalue : value ∈ table.written fields) (hlong : value.isWritable = false) :
      Flaw id table (.object fields) (.malformed table id (.numeral .tooLong))
  | noSegment {fields : Json.Fields} (hparent : (fields.get? "parent").isSome = true)
      (hstr : fields.get? "str" = none) (hnum : fields.get? "num" = none) :
      Flaw id .names (.object fields) (.noSegment id)
  | hash {fields : Json.Fields} {value : Json} {e : Json.IntegerError}
      (hhash : fields.get? "hash" = some value) (hnull : value ≠ .null)
      (he : value.integer = .error e) :
      Flaw id .names (.object fields) (.malformed .names id (.integer e))
  | notText {fields : Json.Fields} {value : Json} (hstr : fields.get? "str" = some value)
      (htext : ∀ t, value ≠ .text t) :
      Flaw id .names (.object fields) (.malformed .names id (.segment (.notText value.kindName)))
  | surrogates {fields : Json.Fields} {t : Text} {e : Utf8.EncodeError}
      (hstr : fields.get? "str" = some (.text t)) (ht : ¬ t.Encodable)
      (hhash : (fields.get? "hash").getD .null = .null) :
      Flaw id .names (.object fields) (.malformed .names id (.segment (.unencodable e)))
  | longSegment {fields : Json.Fields} {value : Json} {n : Int} (hstr : fields.get? "str" = none)
      (hnum : fields.get? "num" = some value) (hn : value.integer = .ok n) (hlong : ¬ Numeral.Fits n)
      (hhash : (fields.get? "hash").getD .null = .null) :
      Flaw id .names (.object fields) (.badNumber .names id (.segment (.numeral .tooLong)))
  | notAnInteger {table : Table} {fields : Json.Fields} {key : Text} {value : Json}
      {e : Json.IntegerError} (hkey : table.naturalKey? fields = some key)
      (hvalue : fields.get? key = some value) (he : value.integer = .error e) :
      Flaw id table (.object fields) (.ofNumber table id (.integer e))
  | negative {table : Table} {fields : Json.Fields} {key : Text} {value : Json} {n : Int} {f : Fault}
      (hkey : table.naturalKey? fields = some key) (hvalue : fields.get? key = some value)
      (hn : value.integer = .ok n) (hnegative : n < 0) (hbad : f.isBadNumber = true) :
      Flaw id table (.object fields) (.badNumber table id f)
  | index {fields : Json.Fields} {value : Json} {e : Json.IntegerError}
      (hkind : exprKind? fields = some .proj) (hvalue : fields.get? "index" = some value)
      (he : value.integer = .error e) :
      Flaw id .exprs (.object fields) (.malformed .exprs id (.integer e))
  | notListed {fields : Json.Fields} {value : Json} (hkind : exprKind? fields = some .const)
      (hvalue : fields.get? "levels" = some value) (hlisted : value.listed? = none) :
      Flaw id .exprs (.object fields) (.malformed .exprs id (.access (.notListed value.kindName)))
  | data {fields : Json.Fields} {value : Json} (hkind : exprKind? fields = some .annotated)
      (hvalue : fields.get? "data" = some value) (hobject : ∀ data, value ≠ .object data) :
      Flaw id .exprs (.object fields)
        (.malformed .exprs id (.access (.noMember value.kindName "items")))

section

variable {tables : Tables} {id : Text} {record : Json} {e : Error}

/-- A name record gives a number only if it gives no text. -/
theorem naturalKey?_names {fields : Json.Fields} {key : Text}
    (h : Table.names.naturalKey? fields = some key) : fields.get? "str" = none ∧ key = "num" := by
  rw [Table.naturalKey?] at h
  split at h
  · cases h
  · next hstr => exact ⟨by simpa using hstr, (Option.some.inj h).symm⟩

/-- A record that gives no hash gives null. -/
theorem GivesHash.eq_null {fields : Json.Fields} {hash : Json} (h : GivesHash fields hash)
    (hhash : (fields.get? "hash").getD .null = .null) : hash = .null := by
  cases h with
  | missing | null => rfl
  | integer hgiven hvalue =>
    rw [hgiven, Option.getD_some] at hhash
    rw [hhash] at hvalue
    cases hvalue

/-- A text that was added to a name has no surrogates. -/
theorem encodable_of_child {parent n : Name} {t : Text} (h : parent.child (.text t) .null = .ok n) :
    t.Encodable := by
  obtain ⟨octets, hoctets, -, -, -⟩ := Name.exists_octets_of_child h
  have hhashed := (Utf8.encodable_of_encode hoctets).1
  rw [Segment.hashed, Text.encodable_append] at hhashed
  exact hhashed.2

/-- A reference that denotes a name has a label. -/
theorem DenotesName.isWritable {ref : Json} {n : Name} (h : DenotesName tables ref n) :
    ref.isWritable = true := by
  by_cases hnull : ref = .null
  · rw [hnull, Json.isWritable_null]
  · obtain ⟨_, _, hlabel, -⟩ := (denotesName_iff hnull).mp h
    exact (Json.label_eq_ok.mp hlabel).1

/-- A reference that denotes a level has a label. -/
theorem DenotesLevel.isWritable {ref : Json} {l : Level} (h : DenotesLevel tables ref l) :
    ref.isWritable = true := by
  obtain ⟨_, _, hlabel, -⟩ := denotesLevel_iff.mp h
  exact (Json.label_eq_ok.mp hlabel).1

/-- A reference that denotes a term has a label. -/
theorem DenotesExpr.isWritable {ref : Json} {t : Term} (h : DenotesExpr tables ref t) :
    ref.isWritable = true := by
  obtain ⟨_, _, hlabel, -⟩ := denotesExpr_iff.mp h
  exact (Json.label_eq_ok.mp hlabel).1

/-- A name record with a flaw denotes nothing. -/
theorem Flaw.not_denotesName (h : Flaw id .names record e)
    (hrecord : Json.Fields.get? tables.names id = some record) (n : Name) :
    ¬ DenotesName tables (.text id) n := by
  intro hdenotes
  obtain ⟨_, found, hid, hfound, hyields⟩ := (denotesName_iff (by simp)).mp hdenotes
  cases hid
  obtain rfl : record = found := Option.some.inj (hrecord.symm.trans hfound)
  obtain ⟨fields, rfl, parent, hparent, hash, hgives, hsegment⟩ := (yields_ofName _ _ _).mp hyields
  cases h with
  | notAnObject hobject => exact hobject fields rfl
  | missing hkey => cases hkey
  | noSegment hparent hstr hnum => simp_all
  | hash hhash hnull he => cases hgives <;> simp_all
  | notText hstr htext => simp_all
  | surrogates hstr ht hhash =>
    rw [hgives.eq_null hhash, hstr] at hsegment
    obtain ⟨t, n, htext, hchild, -⟩ := hsegment
    cases htext
    exact ht (encodable_of_child hchild)
  | unwritten hvalue hlong =>
    obtain hvalue : fields.get? "parent" = some _ := by simpa [Table.written] using hvalue
    rw [hvalue, Option.getD_some] at hparent
    exact Bool.false_ne_true (hlong.symm.trans hparent.isWritable)
  | longSegment hstr hnum hn hlong hhash =>
    rw [hgives.eq_null hhash, hstr, hnum] at hsegment
    obtain ⟨k, n, hk, hchild, -⟩ := hsegment
    obtain ⟨-, -, -, -, hwritable⟩ := Name.exists_octets_of_child hchild
    obtain rfl := Except.ok.inj (hn.symm.trans hk)
    exact hlong (Segment.isWritable_number.mp hwritable)
  | notAnInteger hkey hvalue he =>
    obtain ⟨hstr, rfl⟩ := naturalKey?_names hkey
    simp_all
  | negative hkey hvalue hn hnegative =>
    obtain ⟨hstr, rfl⟩ := naturalKey?_names hkey
    rw [hstr, hvalue] at hsegment
    obtain ⟨k, n, hk, -⟩ := hsegment
    have heq : _ = (k : Int) := Except.ok.inj (hn.symm.trans hk)
    omega

/-- A level record with a flaw denotes nothing. -/
theorem Flaw.not_denotesLevel (h : Flaw id .levels record e)
    (hrecord : Json.Fields.get? tables.levels id = some record) (l : Level) :
    ¬ DenotesLevel tables (.text id) l := by
  intro hdenotes
  obtain ⟨_, found, hid, hfound, hyields⟩ := denotesLevel_iff.mp hdenotes
  cases hid
  obtain rfl : record = found := Option.some.inj (hrecord.symm.trans hfound)
  obtain ⟨fields, kind, rfl, hkind, hparts⟩ := (yields_ofLevel _ _ _).mp hyields
  have hread : LevelKind.ofJson? (.text kind.word) = some kind := LevelKind.ofJson?_eq_some.mpr rfl
  cases h with
  | notAnObject hobject => exact hobject fields rfl
  | missing hkey hmissing =>
    cases kind <;> grind [LevelKind.required, Table.required, levelKind?]
  | unknownLevel hnamed hunknown => simp_all
  | unwritten hvalue hlong =>
    have hread : levelKind? fields = some kind := by rw [levelKind?, hkind, Option.bind_some, hread]
    rw [Table.written, hread] at hvalue
    have hlevel (ref : Json) (l : Level) : tables.meaning.level ref l → ref.isWritable = true :=
      DenotesLevel.isWritable
    have hname (ref : Json) (n : Name) : tables.meaning.name ref n → ref.isWritable = true :=
      DenotesName.isWritable
    cases kind <;> simp only [LevelKind.required, List.mem_filterMap, List.mem_cons, List.not_mem_nil,
      or_false, false_and, exists_false, exists_eq_or_imp, exists_eq_left] at hvalue <;> grind
  | notAnInteger hkey => cases hkey
  | negative hkey => cases hkey

/-- A term record with a flaw denotes nothing. -/
theorem Flaw.not_denotesExpr (h : Flaw id .exprs record e)
    (hrecord : Json.Fields.get? tables.exprs id = some record) (t : Term) :
    ¬ DenotesExpr tables (.text id) t := by
  intro hdenotes
  obtain ⟨_, found, hid, hfound, hyields⟩ := denotesExpr_iff.mp hdenotes
  cases hid
  obtain rfl : record = found := Option.some.inj (hrecord.symm.trans hfound)
  obtain ⟨fields, kind, rfl, hkind, hparts⟩ := (yields_ofExpr _ _ _).mp hyields
  have hread : exprKind? fields = some kind := by
    rw [exprKind?, hkind]
    exact ExprKind.ofJson?_eq_some.mpr rfl
  cases h with
  | notAnObject hobject => exact hobject fields rfl
  | missing hkey hmissing => cases kind <;> grind [ExprKind.required, Table.required]
  | unknownExpr hnamed hunknown => simp_all [exprKind?]
  | @unwritten _ _ given hvalue hlong =>
    rw [Table.written, hread] at hvalue
    have hexpr (ref : Json) (t : Term) : tables.meaning.expr ref t → ref.isWritable = true :=
      DenotesExpr.isWritable
    have hlevel (ref : Json) (l : Level) : tables.meaning.level ref l → ref.isWritable = true :=
      DenotesLevel.isWritable
    have hname (ref : Json) (n : Name) : tables.meaning.name ref n → ref.isWritable = true :=
      DenotesName.isWritable
    cases kind with
    | const =>
      obtain ⟨refs, hrefs, ls, hlevels, name, hgiven, n, hn, -⟩ := hparts
      have hall : ∀ ref ∈ refs, ref.isWritable = true := by
        clear hrefs
        induction hlevels with
        | nil => simp
        | cons hl _ ih => exact List.forall_mem_cons.mpr ⟨hlevel _ _ hl, ih⟩
      have hvalue : given = name ∨ given ∈ refs := by
        simpa [ExprKind.written, ExprKind.required, hrefs, hgiven] using hvalue
      rcases hvalue with rfl | hmem
      · exact Bool.false_ne_true (hlong.symm.trans (hname _ _ hn))
      · exact Bool.false_ne_true (hlong.symm.trans (hall _ hmem))
    | text =>
      obtain ⟨given, hgiven, t, ht, -⟩ := hparts
      have hwritten := (Json.label_eq_ok.mp ht).1
      simp_all [ExprKind.written, ExprKind.required]
    | boundVar | natural => simp [ExprKind.written] at hvalue
    | _ =>
      simp only [ExprKind.written, ExprKind.required, reduceCtorEq, if_false, List.append_nil,
        List.mem_filterMap, List.mem_cons, List.not_mem_nil, or_false, exists_eq_or_imp,
        exists_eq_left] at hvalue
      grind
  | notAnInteger hkey hvalue he => cases kind <;> grind [Table.naturalKey?]
  | negative hkey hvalue hn hnegative => cases kind <;> grind [Table.naturalKey?]
  | index hproj hvalue he =>
    obtain rfl := Option.some.inj (hread.symm.trans hproj)
    grind
  | notListed hconst hvalue hlisted =>
    obtain rfl := Option.some.inj (hread.symm.trans hconst)
    grind
  | data hannotated hvalue hobject =>
    obtain rfl := Option.some.inj (hread.symm.trans hannotated)
    grind

/-- A record with a flaw denotes nothing, whatever the other records are. -/
theorem Flaw.not_denotes {table : Table} (h : Flaw id table record e)
    (hrecord : Json.Fields.get? (tables.records table) id = some record) :
    ¬ tables.Denotes (table, id) := by
  cases table with
  | names => exact fun ⟨n, hn⟩ => h.not_denotesName hrecord n hn
  | levels => exact fun ⟨l, hl⟩ => h.not_denotesLevel hrecord l hl
  | exprs => exact fun ⟨t, ht⟩ => h.not_denotesExpr hrecord t ht

end

/-- A fault that says that an integer is above the limit for numerals. -/
def Fault.isLimit : Fault → Bool
  | .numeral .tooLong | .segment (.numeral .tooLong) => true
  | _ => false

/-- An error that blames the limit for numerals on a record. -/
def Error.BlamesLimit (table : Table) (id : Text) (e : Error) : Prop :=
  ∃ f : Fault, f.isLimit = true ∧ (e = .malformed table id f ∨ e = .badNumber table id f)

/-- What building a record may fail with by itself: an infinite double, or an error that reports a flaw
once it is blamed on the record. -/
def Flaw.Shows (id : Text) (table : Table) (record : Json) (e : Error) : Prop :=
  e = .infinite ∨ Flaw id table record (e.blameRecord table id)

namespace Recipe

variable {α β : Type} {E : Error → Prop}

section

variable {table : Table} {id : Text} {record : Json}

open Flaw

section

variable {fields : Json.Fields} {key : Text} (hkey : key ∈ table.required fields)
  (hwritten : ∀ value, fields.get? key = some value → value ∈ table.written fields)

include hkey hwritten

end

end

end Recipe

end TermText.Dump
