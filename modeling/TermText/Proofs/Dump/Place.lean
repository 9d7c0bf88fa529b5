import TermText.Proofs.Dump.Reference

/-!
# Places of terms in a module

A place is where a module holds a term: a slot of one of its declarations, and a way from the term
in the slot down to one below it. The same place of a dump holds the reference that the term there
was reached through, found by the fields of records alone. Nothing here mentions a session, an order
of building or an identity of a node.
-/

namespace TermText

/-- The term below a term that is reached by the places of children, one after another. -/
def Term.below? : List Nat → Term → Option Term
  | [], t => some t
  | i :: way, t => t.children[i]?.bind (below? way)

/-- A slot of a declaration: its type, its value, or a slot of one of its constructors. -/
inductive Slot where
  | type
  | value
  | constructor (index : Nat) (slot : Slot)

/-- A place in a module: a slot of one of its declarations and a way down from there. -/
structure Place where
  declaration : Nat
  slot : Slot
  way : List Nat

/-- The value of a payload that holds one. -/
def Payload.value? : Payload → Option Term
  | .definition value | .proof value | .sealed value => some value
  | _ => none

/-- The constructors of a payload; only a family has any. -/
def Payload.constructors : Payload → List Declaration
  | .family constructors => constructors
  | _ => []

/-- The term in a slot of a declaration. -/
def Declaration.termIn? : Slot → Declaration → Option Term
  | .type, d => some d.type
  | .value, d => d.payload.value?
  | .constructor i slot, d => d.payload.constructors[i]?.bind (termIn? slot)

namespace Declaration

mutual

/-- The slots of a declaration hold its terms and no others. -/
theorem mem_terms_iff {t : Term} : (d : Declaration) →
    (t ∈ d.terms ↔ ∃ slot, d.termIn? slot = some t)
  | .mk name type payload => by
    have hslots : (∃ slot, termIn? slot (.mk name type payload) = some t) ↔
        type = t ∨ payload.value? = some t ∨
          ∃ (i : Nat) (slot : Slot), payload.constructors[i]?.bind (termIn? slot) = some t := by
      constructor
      · intro h
        obtain ⟨slot, hslot⟩ := h
        cases slot with
        | type => exact .inl (Option.some.inj hslot)
        | value => exact .inr (.inl hslot)
        | constructor i slot => exact .inr (.inr ⟨i, slot, hslot⟩)
      · intro h
        obtain rfl | hvalue | ⟨i, slot, hinner⟩ := h
        · exact ⟨.type, rfl⟩
        · exact ⟨.value, hvalue⟩
        · exact ⟨.constructor i slot, hinner⟩
    rw [hslots, terms, List.mem_cons, eq_comm]
    cases payload with
    | family constructors =>
      simp only [payloadTerms, mem_termsOfAll_iff constructors, Payload.value?,
        Payload.constructors, reduceCtorEq, false_or]
    | _ => simp [payloadTerms, Payload.value?, Payload.constructors, eq_comm]

/-- The slots of several declarations hold their terms and no others. -/
theorem mem_termsOfAll_iff {t : Term} : (ds : List Declaration) →
    (t ∈ termsOfAll ds ↔ ∃ (i : Nat) (slot : Slot), ds[i]?.bind (termIn? slot) = some t)
  | [] => by simp [termsOfAll]
  | d :: rest => by
    rw [termsOfAll, List.mem_append, mem_terms_iff d, mem_termsOfAll_iff rest]
    constructor
    · intro h
      obtain ⟨slot, hslot⟩ | ⟨i, slot, hslot⟩ := h
      · exact ⟨0, slot, hslot⟩
      · exact ⟨i + 1, slot, hslot⟩
    · intro h
      obtain ⟨i, slot, hslot⟩ := h
      cases i with
      | zero => exact .inl ⟨slot, hslot⟩
      | succ i => exact .inr ⟨i, slot, hslot⟩

end

end Declaration

/-- The term at a place of a module. -/
def Module.termAt? (m : Module) (p : Place) : Option Term :=
  m.declarations[p.declaration]?.bind fun d => (d.termIn? p.slot).bind (Term.below? p.way)

namespace Dump

/-- The fields of a term record that refer to terms, from left to right. -/
def ExprKind.childFields : ExprKind → List Text
  | .app => ["fn", "arg"]
  | .lambda | .pi => ["type", "body"]
  | .letIn => ["type", "value", "body"]
  | .annotated => ["expr"]
  | .proj => ["struct"]
  | _ => []

/-- The record that a reference to a term stands for. -/
def Tables.exprRecord? (tables : Tables) (ref : Json) : Option Json :=
  ref.label.toOption.bind (Json.Fields.get? tables.exprs)

/-- The reference that the record of a reference gives for one of its children. -/
def Tables.childReference? (tables : Tables) (ref : Json) (i : Nat) : Option Json :=
  (tables.exprRecord? ref).bind fun record =>
    ((Json.Fields.get? record.fields "kind").bind ExprKind.ofJson?).bind fun kind =>
      kind.childFields[i]?.bind (Json.Fields.get? record.fields)

/-- The reference that is reached from a reference by the places of children, one after another. -/
def Tables.referenceBelow? (tables : Tables) : List Nat → Json → Option Json
  | [], ref => some ref
  | i :: way, ref => (tables.childReference? ref i).bind (tables.referenceBelow? way)

/-- The kind of declaration that a record names. -/
def declarationKind? (record : Json) : Option DeclarationKind :=
  (Json.Fields.get? record.fields "kind").bind
    (Json.kindNamed? DeclarationKind.all DeclarationKind.word)

/-- The records of the constructors that a declaration record holds; only that of a family holds
any. -/
def constructorRecords (record : Json) : List Json :=
  match declarationKind? record with
  | some .family =>
    ((Json.Fields.get? record.fields "constructors").getD (.list [])).listed?.getD []
  | _ => []

/-- The reference in a slot of a declaration record. -/
def referenceIn? : Slot → Json → Option Json
  | .type, record => Json.Fields.get? record.fields "type"
  | .value, record =>
    match declarationKind? record with
    | some .definition | some .proof | some .sealed => Json.Fields.get? record.fields "value"
    | _ => none
  | .constructor i slot, record => (constructorRecords record)[i]?.bind (referenceIn? slot)

/-- The reference at a place of a dump. -/
def referenceAt? (dump : Json) (p : Place) : Option Json :=
  (recordsOf dump.fields).toOption.bind fun records =>
    (tablesOf dump.fields).toOption.bind fun tables =>
      records[p.declaration]?.bind fun record =>
        (referenceIn? p.slot record).bind (tables.referenceBelow? p.way)

/-- The id of a term record is reached from the declarations of a dump: by references, from one that
stands in a slot of a declaration record. -/
def ReachedId (dump : Json) (id : Text) : Prop :=
  ∃ records tables, recordsOf dump.fields = .ok records ∧ tablesOf dump.fields = .ok tables ∧
    ∃ record ∈ records, ∃ slot ref root, referenceIn? slot record = some ref ∧
      ref.label = .ok root ∧ tables.Reaches (.exprs, root) (.exprs, id)

section

variable {tables : Tables}

/-- The records that a field refers to are those of its value. -/
theorem mem_fieldKeys {keys : Json → List Key} {key : Text} {fields : Json.Fields} {k : Key} :
    k ∈ fieldKeys keys key fields ↔ ∃ value, fields.get? key = some value ∧ k ∈ keys value := by
  unfold fieldKeys
  cases fields.get? key <;> simp

/-- A reference to a name stands for a name record. -/
theorem eq_names_of_mem_nameKeys {ref : Json} {key : Key} (h : key ∈ nameKeys ref) :
    key.1 = .names := by
  by_cases hnull : ref = .null
  · simp [hnull, nameKeys] at h
  · rw [nameKeys_of_ne hnull] at h
    exact (mem_labelKeys.1 h).1

/-- A field that refers to a name stands for no term record. -/
theorem not_mem_fieldKeys_name (key : Text) (fields : Json.Fields) (id : Text) :
    (Table.exprs, id) ∉ fieldKeys nameKeys key fields := by
  intro h
  obtain ⟨value, _, hmem⟩ := mem_fieldKeys.1 h
  exact absurd (eq_names_of_mem_nameKeys hmem) (by simp)

/-- A field that refers to a level stands for no term record. -/
theorem not_mem_fieldKeys_level (key : Text) (fields : Json.Fields) (id : Text) :
    (Table.exprs, id) ∉ fieldKeys levelKeys key fields := by
  intro h
  obtain ⟨value, _, hmem⟩ := mem_fieldKeys.1 h
  exact absurd (mem_labelKeys.1 hmem).1 (by simp)

/-- The term records that a field refers to by its value. -/
theorem mem_fieldKeys_expr {key : Text} {fields : Json.Fields} {id : Text} :
    (Table.exprs, id) ∈ fieldKeys exprKeys key fields ↔
      ∃ ref, fields.get? key = some ref ∧ ref.label = .ok id := by
  simp [mem_fieldKeys, exprKeys, mem_labelKeys]

/-- The term records that the fields of a term record refer to are those of its children. -/
theorem mem_exprReferences_iff {fields : Json.Fields} {id : Text} :
    (Table.exprs, id) ∈ exprReferences fields ↔
      ∃ kind, (fields.get? "kind").bind ExprKind.ofJson? = some kind ∧
        ∃ key ∈ kind.childFields, ∃ ref, fields.get? key = some ref ∧ ref.label = .ok id := by
  unfold exprReferences
  cases (fields.get? "kind").bind ExprKind.ofJson? with
  | none => simp
  | some kind =>
    cases kind <;> simp [ExprKind.childFields, mem_fieldKeys_expr, not_mem_fieldKeys_name,
      not_mem_fieldKeys_level, levelKeys, mem_labelKeys]

/-- A term record refers to the records of its children and to no other term record. -/
theorem refers_exprs_iff {a b : Text} : tables.Refers (.exprs, a) (.exprs, b) ↔
    ∃ i ref, tables.childReference? (.text a) i = some ref ∧ Json.label ref = .ok b := by
  unfold Tables.Refers Tables.references Tables.childReference?
  change _ ∈ (Json.Fields.get? tables.exprs a).elim [] _ ↔ ∃ i ref,
    (Json.Fields.get? tables.exprs a).bind _ = some ref ∧ Json.label ref = .ok b
  cases Json.Fields.get? tables.exprs a with
  | none => simp
  | some record =>
    rw [Option.elim_some, mem_exprReferences_iff]
    constructor
    · intro h
      obtain ⟨kind, hkind, key, hkey, ref, href, hlabel⟩ := h
      obtain ⟨i, hi⟩ := List.mem_iff_getElem?.1 hkey
      exact ⟨i, ref, by simp [hkind, hi, href], hlabel⟩
    · intro h
      obtain ⟨i, ref, hchild, hlabel⟩ := h
      simp only [Option.bind_some, Option.bind_eq_some_iff] at hchild
      obtain ⟨kind, hkind, key, hkey, href⟩ := hchild
      exact ⟨kind, Option.bind_eq_some_iff.2 hkind, key, List.mem_of_getElem? hkey, ref, href, hlabel⟩

/-- Only term records refer to term records. -/
theorem eq_exprs_of_refers {key : Key} {id : Text} (h : tables.Refers key (.exprs, id)) :
    key.1 = .exprs := by
  obtain ⟨table, a⟩ := key
  cases table with
  | exprs => rfl
  | names =>
    change _ ∈ (Json.Fields.get? tables.names a).elim [] _ at h
    cases hrecord : Json.Fields.get? tables.names a with
    | none => simp [hrecord] at h
    | some record => simp [hrecord, nameReferences, not_mem_fieldKeys_name] at h
  | levels =>
    change _ ∈ (Json.Fields.get? tables.levels a).elim [] _ at h
    cases hrecord : Json.Fields.get? tables.levels a with
    | none => simp [hrecord] at h
    | some record =>
      simp only [hrecord, Option.elim_some, levelReferences] at h
      split at h <;> simp [not_mem_fieldKeys_level, not_mem_fieldKeys_name] at h

/-- Term records are reached from term records only. -/
theorem eq_exprs_of_reaches {key : Key} {id : Text} (h : tables.Reaches key (.exprs, id)) :
    key.1 = .exprs := by
  generalize hlast : (Table.exprs, id) = last at h
  induction h using Relation.ReflTransGen.head_induction_on with
  | refl => exact hlast ▸ rfl
  | @head key next hfirst _ ih =>
    obtain ⟨table, b⟩ := next
    obtain rfl : table = .exprs := ih
    exact eq_exprs_of_refers hfirst

/-- References of one label have the same children. -/
theorem childReference?_label {ref : Json} {a : Text} (h : ref.label = .ok a) (i : Nat) :
    tables.childReference? ref i = tables.childReference? (.text a) i := by
  unfold Tables.childReference? Tables.exprRecord?
  rw [h, Json.label_text]

/-- What is reached from a reference with a label is what stands on a way down from it. -/
theorem reaches_iff {ref : Json} {id : Text} :
    (∃ a, ref.label = .ok a ∧ tables.Reaches (.exprs, a) (.exprs, id)) ↔
      ∃ way below, tables.referenceBelow? way ref = some below ∧ Json.label below = .ok id := by
  constructor
  · intro h
    obtain ⟨a, ha, h⟩ := h
    generalize hkey : (Table.exprs, a) = key at h
    induction h using Relation.ReflTransGen.head_induction_on generalizing ref a with
    | refl =>
      obtain rfl : a = id := congrArg Prod.snd hkey
      exact ⟨[], ref, rfl, ha⟩
    | @head _ next hfirst hrest ih =>
      subst hkey
      obtain ⟨table, b⟩ := next
      obtain rfl : table = .exprs := eq_exprs_of_reaches hrest
      obtain ⟨i, child, hchild, hb⟩ := refers_exprs_iff.1 hfirst
      obtain ⟨way, below, hway, hlabel⟩ := ih b hb rfl
      rw [← childReference?_label ha] at hchild
      exact ⟨i :: way, below, Option.bind_eq_some_iff.2 ⟨child, hchild, hway⟩, hlabel⟩
  · intro h
    obtain ⟨way, below, hway, hlabel⟩ := h
    induction way generalizing ref with
    | nil =>
      cases hway
      exact ⟨id, hlabel, .refl⟩
    | cons i way ih =>
      obtain ⟨child, hchild, hway⟩ := Option.bind_eq_some_iff.1 hway
      obtain ⟨b, hb, hreach⟩ := ih hway
      cases ha : ref.label with
      | error e => simp [Tables.childReference?, Tables.exprRecord?, ha, Except.toOption] at hchild
      | ok a =>
        rw [childReference?_label ha] at hchild
        exact ⟨a, rfl, .head (refers_exprs_iff.2 ⟨i, child, hchild, hb⟩) hreach⟩

end

/-- The ids reached from the declarations of a dump are those of the references at its places. -/
theorem reachedId_iff {dump : Json} {id : Text} :
    ReachedId dump id ↔ ∃ p ref, referenceAt? dump p = some ref ∧ Json.label ref = .ok id := by
  constructor
  · intro h
    obtain ⟨records, tables, hrecords, htables, record, hmem, slot, root, a, hroot, ha, hreach⟩ := h
    obtain ⟨i, hi⟩ := List.mem_iff_getElem?.1 hmem
    obtain ⟨way, ref, hway, hlabel⟩ := reaches_iff.1 ⟨a, ha, hreach⟩
    refine ⟨⟨i, slot, way⟩, ref, ?_, hlabel⟩
    simp [referenceAt?, hrecords, htables, Except.toOption, hi, hroot, hway]
  · intro h
    obtain ⟨p, ref, href, hlabel⟩ := h
    simp only [referenceAt?, Option.bind_eq_some_iff] at href
    obtain ⟨records, hrecords, tables, htables, record, hrecord, root, hroot, hway⟩ := href
    obtain ⟨a, ha, hreach⟩ := reaches_iff.2 ⟨p.way, ref, hway, hlabel⟩
    refine ⟨records, tables, ?_, ?_, record, List.mem_of_getElem? hrecord, p.slot, root, a, hroot, ha,
      hreach⟩
    · cases hfound : recordsOf dump.fields <;> simp_all [Except.toOption]
    · cases hfound : tablesOf dump.fields <;> simp_all [Except.toOption]

end Dump

end TermText
