import TermText.Proofs.Declaration.Unsharing
import TermText.Proofs.Dump.Simulation
import TermText.Proofs.Export.Exportable

/-!
# What the encoding of a dump does not depend on

The ids of records, the order of the tables, whether two references share a record or refer to two alike,
and records that nothing refers to: a dump may be rewritten in all of these without a change of what its
module is encoded as. Each rewriting is an instance of contents that follow one another, so nothing is
said here about sessions, in which the two dumps are loaded in another order and share other nodes.

The order of the declarations is not among these.
-/

namespace TermText

namespace Dump

/-- References that correspond if the ids of their records do. Null refers to no name, but to a record of
any other table. References without a label stand for no records, and correspond. -/
inductive Corresponds (f : Table → Text → Text → Prop) : Table → Json → Json → Prop
  | null : Corresponds f .names .null .null
  | record {table : Table} {ref ref' : Json} {id id' : Text} (href : table = .names → ref ≠ .null)
      (href' : table = .names → ref' ≠ .null) (hlabel : ref.label = .ok id)
      (hlabel' : ref'.label = .ok id') (hid : f table id id') : Corresponds f table ref ref'
  | unlabelled {table : Table} {ref ref' : Json} {e e' : Numeral.Error} (hlabel : ref.label = .error e)
      (hlabel' : ref'.label = .error e') : Corresponds f table ref ref'

/-- A reference that corresponds to one with a label has a label, and the ids correspond, unless both are
null. -/
theorem Corresponds.ids {f : Table → Text → Text → Prop} {table : Table} {ref ref' : Json} {id : Text}
    (h : Corresponds f table ref ref') (href : table = .names → ref ≠ .null)
    (hlabel : ref.label = .ok id) :
    (table = .names → ref' ≠ .null) ∧ ∃ id', ref'.label = .ok id' ∧ f table id id' := by
  cases h with
  | null => exact absurd rfl (href rfl)
  | record _ href' hlabel₁ hlabel' hid =>
    obtain rfl := Except.ok.inj (hlabel₁.symm.trans hlabel)
    exact ⟨href', _, hlabel', hid⟩
  | unlabelled hlabel₁ _ => exact nomatch hlabel₁.symm.trans hlabel

/-- What a field of a record refers to: a record of a table, or several ones. The records in a nested
field are no references. -/
inductive Link where
  | one (table : Table)
  | many (table : Table)
  | nested

/-- Values of a field that refer to corresponding records; a missing list is empty. -/
def Link.Agrees (f : Table → Text → Text → Prop) : Link → Option Json → Option Json → Prop
  | .one table, x, y => Option.Rel (Corresponds f table) x y
  | .many table, x, y => Option.Rel (List.Forall₂ (Corresponds f table))
    (x.getD (.list [])).listed? (y.getD (.list [])).listed?
  | .nested, _, _ => True

/-- The fields of a level record that refer to records. -/
def LevelKind.links : LevelKind → List (Text × Link)
  | .zero => []
  | .succ => [("of", .one .levels)]
  | .max | .imax => [("lhs", .one .levels), ("rhs", .one .levels)]
  | .param | .metaVar => [("name", .one .names)]

/-- The fields of a term record that refer to records. -/
def ExprKind.links : ExprKind → List (Text × Link)
  | .boundVar | .natural | .text => []
  | .freeVar | .metaVar => [("name", .one .names)]
  | .sort => [("level", .one .levels)]
  | .const => [("levels", .many .levels), ("name", .one .names)]
  | .app => [("fn", .one .exprs), ("arg", .one .exprs)]
  | .lambda | .pi => [("type", .one .exprs), ("body", .one .exprs), ("binder", .one .names)]
  | .letIn =>
    [("type", .one .exprs), ("value", .one .exprs), ("body", .one .exprs), ("binder", .one .names)]
  | .annotated => [("expr", .one .exprs)]
  | .proj => [("type_name", .one .names), ("struct", .one .exprs)]

/-- The fields that refer to records, in a record of a table. -/
def Table.links (fields : Json.Fields) : Table → List (Text × Link)
  | .names => [("parent", .one .names)]
  | .levels => ((fields.get? "kind").bind LevelKind.ofJson?).elim [] LevelKind.links
  | .exprs => ((fields.get? "kind").bind ExprKind.ofJson?).elim [] ExprKind.links

/-- The fields that refer to records, in a declaration record of a kind. -/
def declarationLinks (kind : Option DeclarationKind) : List (Text × Link) :=
  ("name", .one .names) :: ("type", .one .exprs) :: match kind with
  | some .definition | some .proof | some .sealed => [("value", .one .exprs)]
  | some .quotient => [("type_name", .one .names)]
  | some .family => [("constructors", .nested)]
  | some .constructor => [("induct", .one .names)]
  | some .assumption | some .eliminator | none => []

/-- Fields that are equal but for corresponding references. -/
structure FieldsAgree (f : Table → Text → Text → Prop) (links : List (Text × Link))
    (fields fields' : Json.Fields) : Prop where
  plain : ∀ key, key ∉ links.map Prod.fst → fields.get? key = fields'.get? key
  linked : ∀ key link, (key, link) ∈ links → link.Agrees f (fields.get? key) (fields'.get? key)

/-- Records of a table that are equal but for corresponding references. Nothing is asked of what is no
record. -/
def RecordsAgree (f : Table → Text → Text → Prop) (table : Table) (record record' : Json) : Prop :=
  ∀ fields, record = .object fields →
    ∃ fields', record' = .object fields' ∧ FieldsAgree f (table.links fields) fields fields'

/-- Declaration records that are equal but for corresponding references; the constructors of a family
agree one by one. -/
inductive DeclarationsAgree (f : Table → Text → Text → Prop) : Json → Json → Prop
  | object {fields fields' : Json.Fields}
      (hfields : FieldsAgree f (declarationLinks (declarationKind? (.object fields))) fields fields')
      (hconstructors : declarationKind? (.object fields) = some .family →
        Option.Rel (List.Forall₂ (DeclarationsAgree f))
          ((fields.get? "constructors").getD (.list [])).listed?
          ((fields'.get? "constructors").getD (.list [])).listed?) :
      DeclarationsAgree f (.object fields) (.object fields')

namespace Contents

/-- Contents that are equal but for corresponding references: records whose ids are a pair agree, and so
do the declaration records one by one. -/
structure Agrees (pair f : Table → Text → Text → Prop) (c c' : Contents) : Prop where
  records : ∀ table id id' record, pair table id id' →
    Json.Fields.get? (c.tables.records table) id = some record →
      ∃ record', Json.Fields.get? (c'.tables.records table) id' = some record' ∧
        RecordsAgree f table record record'
  module : Corresponds f .names c.module c'.module
  declarations : List.Forall₂ (DeclarationsAgree f) c.declarations c'.declarations

/-- An id stays as it is, or it is one of two ids of a table and becomes the other one. -/
def Moves (table : Table) (a b : Text) (table' : Table) (id id' : Text) : Prop :=
  id = id' ∨ (table' = table ∧ ((id = a ∧ id' = b) ∨ (id = b ∧ id' = a)))

/-- A record that is reached from the name of the module or from the declarations. -/
def Reached (c : Contents) (key : Key) : Prop :=
  ∃ root ∈ c.roots, c.tables.Reaches root key

/-- Contents rewritten in one way: ids renamed, tables reordered, references moved between two records of
equal content, or records replaced that are not reached. Renaming two ids to one, or moving all references
away from a record, merges records; adding a copy of a record and moving references to it takes them
apart. -/
inductive Rewrites : Contents → Contents → Prop
  | rename {c c' : Contents} (relabel : Table → Text → Text)
      (h : c.Agrees (fun table id id' => relabel table id = id')
        (fun table id id' => relabel table id = id') c') : Rewrites c c'
  | reorder {tables tables' : Tables} {module : Json} {declarations : List Json}
      (hperm : ∀ table, (tables.records table).Perm (tables'.records table))
      (hids : ∀ table, ((tables.records table).map Prod.fst).Nodup) :
      Rewrites ⟨tables, module, declarations⟩ ⟨tables', module, declarations⟩
  | redirect {c c' : Contents} (table : Table) (a b : Text)
      (hcopy : Json.Fields.get? (c.tables.records table) a = Json.Fields.get? (c.tables.records table) b)
      (h : c.Agrees (fun _ id id' => id = id') (Moves table a b) c') : Rewrites c c'
  | replace {tables tables' : Tables} {module : Json} {declarations : List Json}
      (h : ∀ table id, Contents.Reached ⟨tables, module, declarations⟩ (table, id) →
        Json.Fields.get? (tables.records table) id = Json.Fields.get? (tables'.records table) id) :
      Rewrites ⟨tables, module, declarations⟩ ⟨tables', module, declarations⟩

end Contents

section

variable {f : Table → Text → Text → Prop} {α β : Type} {ρ : Table → Json → Json → Prop}
  {fields fields' : Json.Fields} {key : Text}

/-- Related lists are related one by one to members of the second one. -/
theorem forall₂_and_mem {R : α → β → Prop} {xs : List α} {ys : List β} (h : List.Forall₂ R xs ys) :
    List.Forall₂ (fun x y => R x y ∧ y ∈ ys) xs ys := by
  induction h with
  | nil => exact .nil
  | cons hfirst _ ih =>
    exact .cons ⟨hfirst, List.mem_cons_self⟩
      (ih.imp fun _ _ hrest => ⟨hrest.1, List.mem_cons_of_mem _ hrest.2⟩)

namespace Recipe

/-- A field that is equal in two records is read alike. -/
theorem matches_field {g g' : Json → Recipe β} (heq : fields.get? key = fields'.get? key)
    (h : ∀ value, fields.get? key = some value → (g value).Matches ρ (g' value)) :
    (field key (.object fields) >>= g).Matches ρ (field key (.object fields') >>= g') := by
  unfold field Json.field
  dsimp only
  rw [← heq]
  cases hvalue : Json.Fields.get? fields key with
  | none => trivial
  | some value => exact h value hvalue

/-- Fields that refer to related references are asked for alike. -/
theorem matches_asked {ask : Json → Recipe α} {table : Table}
    (h : Option.Rel (ρ table) (fields.get? key) (fields'.get? key))
    (hask : ∀ ref ref', ρ table ref ref' → (ask ref).Matches ρ (ask ref')) :
    (field key (.object fields) >>= ask).Matches ρ (field key (.object fields') >>= ask) := by
  unfold field Json.field
  dsimp only
  generalize Json.Fields.get? fields key = x, Json.Fields.get? fields' key = y at h
  cases h with
  | none => trivial
  | some href => exact hask _ _ href

/-- Fields that refer to corresponding names match. -/
theorem matches_named (h : Option.Rel (ρ .names) (fields.get? key) (fields'.get? key)) :
    (named key (.object fields)).Matches ρ (named key (.object fields')) :=
  matches_asked h fun _ _ href => ⟨href, fun _ => rfl⟩

/-- Fields that refer to corresponding levels match. -/
theorem matches_operand (h : Option.Rel (ρ .levels) (fields.get? key) (fields'.get? key)) :
    (operand key (.object fields)).Matches ρ (operand key (.object fields')) :=
  matches_asked h fun _ _ href => ⟨href, fun _ => rfl⟩

/-- Fields that refer to corresponding terms match. -/
theorem matches_child (h : Option.Rel (ρ .exprs) (fields.get? key) (fields'.get? key)) :
    (child key (.object fields)).Matches ρ (child key (.object fields')) :=
  matches_asked h fun _ _ href => ⟨href, fun _ => rfl⟩

/-- A name that may be left out is asked for alike. -/
theorem matches_optionalName
    (h : Option.Rel (Corresponds f .names) (fields.get? key) (fields'.get? key)) :
    (optionalName key fields).Matches (Corresponds f) (optionalName key fields') := by
  unfold optionalName
  generalize Json.Fields.get? fields key = x, Json.Fields.get? fields' key = y at h
  cases h with
  | none => exact ⟨.null, fun _ => rfl⟩
  | some href => exact ⟨href, fun _ => rfl⟩

/-- A natural number is read alike from a field that is equal in two records. -/
theorem matches_natural (heq : fields.get? key = fields'.get? key) (id id' : Text)
    (refusal : Int → Term.NumberError) :
    (natural id key (.object fields) refusal).Matches ρ (natural id' key (.object fields') refusal) := by
  refine (matches_field heq fun value _ => (ends_integer value).matches.bind fun n => ?_).blaming _ _
  split
  · trivial
  · rfl

/-- Lists that are related one by one are read alike. -/
theorem matches_listed {R : Json → Json → Prop} {x y : Json} {g g' : List Json → Recipe β}
    (h : Option.Rel (List.Forall₂ R) x.listed? y.listed?)
    (hg : ∀ items items', y.listed? = some items' → List.Forall₂ R items items' →
      (g items).Matches ρ (g' items')) : (access x.listed >>= g).Matches ρ (access y.listed >>= g') := by
  unfold Json.listed
  generalize x.listed? = items, y.listed? = items' at h hg
  cases h with
  | none => trivial
  | some hitems => exact hg _ _ rfl hitems

/-- Name records that agree have matching recipes. -/
theorem matches_ofName (h : FieldsAgree f (Table.links fields .names) fields fields') (id id' : Text) :
    (ofName id (.object fields)).Matches (Corresponds f) (ofName id' (.object fields')) := by
  change FieldsAgree f [("parent", .one .names)] fields fields' at h
  have hhash : recordedHash fields' = recordedHash fields := by
    rw [recordedHash, recordedHash, h.plain "hash" (by decide)]
  have hparent : Option.Rel (Corresponds f .names) (fields.get? "parent") (fields'.get? "parent") :=
    h.linked "parent" (.one .names) List.mem_cons_self
  simp only [ofName, Json.fieldsFor, access, done_bind]
  refine (matches_optionalName hparent).bind fun parent => ?_
  rw [hhash]
  refine (ends_recordedHash fields).matches.bind fun hash => ?_
  rw [← h.plain "str" (by decide), ← h.plain "num" (by decide)]
  split
  · exact (ends_childName _ _ _).matches
  · exact ((ends_integer _).bind fun n => ends_childName _ _ _).matches.blaming _ _
  · generalize Json.Fields.get? fields "parent" = x, Json.Fields.get? fields' "parent" = y at hparent
    cases hparent with
    | none => rfl
    | some href => trivial

/-- Level records that agree have matching recipes. -/
theorem matches_ofLevel (h : FieldsAgree f (Table.links fields .levels) fields fields') (id id' : Text) :
    (ofLevel id (.object fields)).Matches (Corresponds f) (ofLevel id' (.object fields')) := by
  cases hvalue : Json.Fields.get? fields "kind" with
  | none => simp [ofLevel, field, Json.field, hvalue, access, Matches]
  | some value =>
    cases hkind : LevelKind.ofJson? value with
    | none =>
      simp only [ofLevel, field, Json.field, hvalue, access, done_bind, hkind]
      exact matches_refusal ..
    | some kind =>
      have hlinks : Table.links fields .levels = kind.links := by simp [Table.links, hvalue, hkind]
      rw [hlinks] at h
      refine matches_field (h.plain "kind" (by cases kind <;> decide)) fun found hfound => ?_
      obtain rfl : value = found := Option.some.inj (hvalue.symm.trans hfound)
      rw [hkind]
      cases kind with
      | zero => rfl
      | succ =>
        exact (matches_operand (h.linked "of" (.one .levels) List.mem_cons_self)).bind fun l => rfl
      | max | imax =>
        exact (matches_operand (h.linked "lhs" (.one .levels) (by simp [LevelKind.links]))).bind fun l =>
          (matches_operand (h.linked "rhs" (.one .levels) (by simp [LevelKind.links]))).bind fun r => rfl
      | param | metaVar =>
        exact (matches_named (h.linked "name" (.one .names) List.mem_cons_self)).bind fun n => rfl

/-- Term records that agree have matching recipes. -/
theorem matches_ofExpr (h : FieldsAgree f (Table.links fields .exprs) fields fields') (id id' : Text) :
    (ofExpr id (.object fields)).Matches (Corresponds f) (ofExpr id' (.object fields')) := by
  cases hvalue : Json.Fields.get? fields "kind" with
  | none => simp [ofExpr, field, Json.field, hvalue, access, Matches]
  | some value =>
    cases hkind : ExprKind.ofJson? value with
    | none =>
      simp only [ofExpr, field, Json.field, hvalue, access, done_bind, hkind]
      exact matches_refusal ..
    | some kind =>
      have hlinks : Table.links fields .exprs = kind.links := by simp [Table.links, hvalue, hkind]
      rw [hlinks] at h
      refine matches_field (h.plain "kind" (by cases kind <;> decide)) fun found hfound => ?_
      obtain rfl : value = found := Option.some.inj (hvalue.symm.trans hfound)
      rw [hkind]
      have hchild (key : Text) (hkey : (key, .one .exprs) ∈ kind.links) :=
        matches_child (h.linked key (.one .exprs) hkey)
      have hname (key : Text) (hkey : (key, .one .names) ∈ kind.links) :=
        matches_named (h.linked key (.one .names) hkey)
      have hbinder (key : Text) (hkey : (key, .one .names) ∈ kind.links) :=
        matches_optionalName (h.linked key (.one .names) hkey)
      cases kind with
      | boundVar => exact (matches_natural (h.plain "index" (by decide)) id id' _).bind fun k => rfl
      | freeVar | metaVar => exact (hname "name" List.mem_cons_self).bind fun n => rfl
      | sort =>
        exact (matches_operand (h.linked "level" (.one .levels) List.mem_cons_self)).bind fun l => rfl
      | const =>
        refine matches_listed (h.linked "levels" (.many .levels) (by simp [ExprKind.links]))
          fun refs refs' _ hrefs => ?_
        have hlevels : (each (askLevel · .done) refs).Matches (Corresponds f)
            (each (askLevel · .done) refs') :=
          matches_each (hrefs.imp fun _ _ href => ⟨href, fun _ => rfl⟩)
        exact hlevels.bind fun levels => (hname "name" (by simp [ExprKind.links])).bind fun n => rfl
      | app =>
        exact (hchild "fn" (by simp [ExprKind.links])).bind fun t =>
          (hchild "arg" (by simp [ExprKind.links])).bind fun u => rfl
      | lambda | pi =>
        exact (hchild "type" (by simp [ExprKind.links])).bind fun t =>
          (hchild "body" (by simp [ExprKind.links])).bind fun b =>
            (hbinder "binder" (by simp [ExprKind.links])).bind fun n => rfl
      | letIn =>
        exact (hchild "type" (by simp [ExprKind.links])).bind fun t =>
          (hchild "value" (by simp [ExprKind.links])).bind fun v =>
            (hchild "body" (by simp [ExprKind.links])).bind fun b =>
              (hbinder "binder" (by simp [ExprKind.links])).bind fun n => rfl
      | natural => exact (matches_natural (h.plain "value" (by decide)) id id' _).bind fun k => rfl
      | text =>
        exact matches_field (h.plain "value" (by decide)) fun value _ =>
          (ends_written _).matches.bind fun text => rfl
      | annotated =>
        have hdata : Json.Fields.get? fields "data" = Json.Fields.get? fields' "data" :=
          h.plain "data" (by decide)
        simp only [Json.fields, hdata]
        exact (ends_access _).matches.bind fun data =>
          (hchild "expr" List.mem_cons_self).bind fun t => rfl
      | proj =>
        exact (hname "type_name" (by simp [ExprKind.links])).bind fun n =>
          matches_field (h.plain "index" (by decide)) fun value _ =>
            (ends_integer value).matches.bind fun index =>
              (hchild "struct" (by simp [ExprKind.links])).bind fun t => rfl

/-- The payloads of records that agree have matching recipes, if those of their constructors do. -/
theorem matches_ofPayload {declare declare' : Json → Recipe Declaration}
    (h : FieldsAgree f (declarationLinks (declarationKind? (.object fields))) fields fields')
    (hconstructors : declarationKind? (.object fields) = some .family → Option.Rel
      (List.Forall₂ fun inner inner' => (declare inner).Matches (Corresponds f) (declare' inner'))
        ((fields.get? "constructors").getD (.list [])).listed?
        ((fields'.get? "constructors").getD (.list [])).listed?) :
    (ofPayload declare (.object fields)).Matches (Corresponds f)
      (ofPayload declare' (.object fields')) := by
  cases hvalue : Json.Fields.get? fields "kind" with
  | none => simp [ofPayload, field, Json.field, hvalue, access, Matches]
  | some value =>
    have hread : declarationKind? (.object fields) =
        Json.kindNamed? DeclarationKind.all DeclarationKind.word value := by
      simp [declarationKind?, Json.fields, hvalue]
    cases hkind : Json.kindNamed? DeclarationKind.all DeclarationKind.word value with
    | none =>
      simp only [ofPayload, field, Json.field, hvalue, access, done_bind, hkind]
      exact matches_refusal ..
    | some kind =>
      rw [hread, hkind] at h hconstructors
      refine matches_field (h.plain "kind" (by cases kind <;> decide)) fun found hfound => ?_
      obtain rfl : value = found := Option.some.inj (hvalue.symm.trans hfound)
      rw [hkind]
      cases kind with
      | assumption | eliminator => rfl
      | definition | proof | sealed =>
        exact (matches_child (h.linked "value" (.one .exprs) (by simp [declarationLinks]))).bind
          fun t => rfl
      | quotient =>
        refine matches_field (h.plain "quot_kind" (by decide)) fun given _ => ?_
        cases QuotientKind.ofJson? given with
        | none => exact matches_refusal ..
        | some quotient =>
          exact (matches_named (h.linked "type_name" (.one .names) (by simp [declarationLinks]))).bind
            fun n => rfl
      | family =>
        exact matches_listed (hconstructors rfl) fun items items' _ hitems =>
          (matches_each hitems).bind fun ds => rfl
      | constructor =>
        exact (matches_named (h.linked "induct" (.one .names) (by simp [declarationLinks]))).bind
          fun n => rfl

/-- Declaration records that agree have matching recipes. The bound on the nesting matters only for the
record that follows. -/
theorem matches_ofDeclaration {record record' : Json} (h : DeclarationsAgree f record record')
    (bound : Nat) {bound' : Nat} (hbound : record'.depth < bound') :
    (ofDeclaration bound record).Matches (Corresponds f) (ofDeclaration bound' record') := by
  induction bound generalizing record record' bound' with
  | zero => trivial
  | succ bound ih =>
    obtain @⟨fields, fields', hfields, hconstructors⟩ := h
    obtain ⟨before, rfl⟩ := Nat.exists_eq_succ_of_ne_zero (Nat.ne_of_gt (Nat.zero_lt_of_lt hbound))
    refine Matches.blaming ?_ _ _
    refine (matches_named (hfields.linked "name" (.one .names) List.mem_cons_self)).bind fun n => ?_
    refine (matches_child (hfields.linked "type" (.one .exprs) (by simp [declarationLinks]))).bind
      fun t => ?_
    refine (matches_ofPayload hfields fun hfamily => ?_).bind fun payload => rfl
    have hnested (items : List Json)
        (hitems : ((Json.Fields.get? fields' "constructors").getD (.list [])).listed? = some items) :
        ∀ inner ∈ items, inner.depth < before := fun inner hinner =>
      have hlisted : ((Json.Fields.get? (Json.object fields').fields "constructors").getD
          (.list [])).listed? = some items := hitems
      Nat.lt_of_lt_of_le (depth_lt_of_mem_listed hlisted hinner) (Nat.le_of_lt_succ hbound)
    have hrelated := hconstructors hfamily
    generalize ((Json.Fields.get? fields "constructors").getD (.list [])).listed? = x,
      ((Json.Fields.get? fields' "constructors").getD (.list [])).listed? = y at hrelated hnested
    cases hrelated with
    | none => exact .none
    | some hitems =>
      exact .some ((forall₂_and_mem hitems).imp fun inner inner' hinner =>
        ih hinner.1 (hnested _ rfl inner' hinner.2))

end Recipe

namespace RecordsAgree

variable {record record' : Json}

/-- Records that agree have matching recipes: what is no object has none that succeeds. -/
theorem matches_ofName (h : RecordsAgree f .names record record') (id id' : Text) :
    (Recipe.ofName id record).Matches (Corresponds f) (Recipe.ofName id' record') := by
  cases record with
  | object fields =>
    obtain ⟨fields', rfl, hfields⟩ := h fields rfl
    exact Recipe.matches_ofName hfields id id'
  | _ => exact trivial

/-- Level records that agree have matching recipes. -/
theorem matches_ofLevel (h : RecordsAgree f .levels record record') (id id' : Text) :
    (Recipe.ofLevel id record).Matches (Corresponds f) (Recipe.ofLevel id' record') := by
  cases record with
  | object fields =>
    obtain ⟨fields', rfl, hfields⟩ := h fields rfl
    exact Recipe.matches_ofLevel hfields id id'
  | _ => exact trivial

/-- Term records that agree have matching recipes. -/
theorem matches_ofExpr (h : RecordsAgree f .exprs record record') (id id' : Text) :
    (Recipe.ofExpr id record).Matches (Corresponds f) (Recipe.ofExpr id' record') := by
  cases record with
  | object fields =>
    obtain ⟨fields', rfl, hfields⟩ := h fields rfl
    exact Recipe.matches_ofExpr hfields id id'
  | _ => exact trivial

end RecordsAgree

namespace Contents

variable {c c' : Contents}

/-- Tables whose records agree wherever ids correspond follow one another. -/
theorem Agrees.follows (h : c.Agrees f f c') : c.tables.Follows (Corresponds f) c'.tables := by
  refine ⟨?_, ?_, ?_, ?_⟩
  · intro ref' href
    cases href with
    | null => rfl
    | record href _ _ _ _ => exact absurd rfl (href rfl)
    | unlabelled hlabel _ => cases hlabel
  · intro ref ref' id record hnull href hlabel hrecord
    obtain ⟨hnull', id', hlabel', hid⟩ := href.ids (fun _ => hnull) hlabel
    obtain ⟨record', hrecord', hagree⟩ := h.records .names _ _ record hid hrecord
    exact ⟨hnull' rfl, id', record', hlabel', hrecord', hagree.matches_ofName _ _⟩
  · intro ref ref' id record href hlabel hrecord
    obtain ⟨-, id', hlabel', hid⟩ := href.ids nofun hlabel
    obtain ⟨record', hrecord', hagree⟩ := h.records .levels _ _ record hid hrecord
    exact ⟨id', record', hlabel', hrecord', hagree.matches_ofLevel _ _⟩
  · intro ref ref' id record href hlabel hrecord
    obtain ⟨-, id', hlabel', hid⟩ := href.ids nofun hlabel
    obtain ⟨record', hrecord', hagree⟩ := h.records .exprs _ _ record hid hrecord
    exact ⟨id', record', hlabel', hrecord', hagree.matches_ofExpr _ _⟩

/-- The modules of contents that agree have matching recipes. -/
theorem Agrees.matches_ofModule {pair : Table → Text → Text → Prop} (h : c.Agrees pair f c') :
    (Recipe.ofModule c).Matches (Corresponds f) (Recipe.ofModule c') := by
  refine ⟨h.module, fun n => ?_⟩
  have hdeclarations := h.declarations.imp fun record record' hagree =>
    Recipe.matches_ofDeclaration hagree (record.depth + 1) record'.depth.lt_succ_self
  exact (Recipe.matches_each hdeclarations).bind fun ds => rfl

/-- Moving references between records of equal content keeps the records of corresponding ids in
agreement. -/
theorem Agrees.of_moves {table : Table} {a b : Text}
    (hcopy : Json.Fields.get? (c.tables.records table) a = Json.Fields.get? (c.tables.records table) b)
    (h : c.Agrees (fun _ id id' => id = id') (Moves table a b) c') :
    c.Agrees (Moves table a b) (Moves table a b) c' := by
  refine { h with records := fun table' id id' record hmoves hrecord => ?_ }
  obtain rfl | ⟨rfl, ⟨rfl, rfl⟩ | ⟨rfl, rfl⟩⟩ := hmoves
  · exact h.records table' id id record rfl hrecord
  · exact h.records table' id' id' record rfl (hcopy ▸ hrecord)
  · exact h.records table' id' id' record rfl (hcopy ▸ hrecord)

/-- A record that is reached reaches those that it refers to. -/
theorem Reached.references {key key' : Key} (h : c.Reached key)
    (hrefers : key' ∈ c.tables.references key) : c.Reached key' := by
  obtain ⟨root, hroot, hreach⟩ := h
  exact ⟨root, hroot, hreach.tail hrefers⟩

/-- Tables that hold the same records wherever one is reached follow one another. -/
theorem follows_of_reached {tables' : Tables} (h : ∀ table id, c.Reached (table, id) →
      Json.Fields.get? (c.tables.records table) id = Json.Fields.get? (tables'.records table) id) :
    c.tables.Follows (Staying c.Reached) tables' := by
  refine ⟨fun _ href => href.1.symm, ?_, ?_, ?_⟩
  · intro ref _ id record hnull href hlabel hrecord
    obtain ⟨rfl, hkeys⟩ := href
    have hreached : c.Reached (.names, id) :=
      hkeys _ (by rw [keysOf, nameKeys_of_ne hnull]; exact mem_labelKeys.mpr ⟨rfl, hlabel⟩)
    refine ⟨hnull, id, record, hlabel, (h _ _ hreached).symm.trans hrecord, ?_⟩
    refine (Recipe.sameCourse_ofName _ record).matches fun key hkey => hreached.references ?_
    rwa [Tables.references_of_get?.1 hrecord]
  · intro ref _ id record href hlabel hrecord
    obtain ⟨rfl, hkeys⟩ := href
    have hreached : c.Reached (.levels, id) := hkeys _ (mem_labelKeys.mpr ⟨rfl, hlabel⟩)
    refine ⟨id, record, hlabel, (h _ _ hreached).symm.trans hrecord, ?_⟩
    refine (Recipe.sameCourse_ofLevel _ record).matches fun key hkey => hreached.references ?_
    rwa [Tables.references_of_get?.2.1 hrecord]
  · intro ref _ id record href hlabel hrecord
    obtain ⟨rfl, hkeys⟩ := href
    have hreached : c.Reached (.exprs, id) := hkeys _ (mem_labelKeys.mpr ⟨rfl, hlabel⟩)
    refine ⟨id, record, hlabel, (h _ _ hreached).symm.trans hrecord, ?_⟩
    refine (Recipe.sameCourse_ofExpr _ record).matches fun key hkey => hreached.references ?_
    rwa [Tables.references_of_get?.2.2 hrecord]

/-- What contents denote rests on the records that are reached. -/
theorem denotes_of_reached {tables' : Tables} (h : ∀ table id, c.Reached (table, id) →
      Json.Fields.get? (c.tables.records table) id = Json.Fields.get? (tables'.records table) id)
    {m : Module} (hm : c.Denotes m) : Contents.Denotes { c with tables := tables' } m := by
  let after : Contents := { c with tables := tables' }
  have hfollows : c.tables.Follows (Staying c.Reached) after.tables := follows_of_reached h
  have hmatches : (Recipe.ofModule c).Matches (Staying c.Reached) (Recipe.ofModule after) :=
    c.sameCourse_ofModule.matches fun key hkey => ⟨key, hkey, .refl⟩
  exact hfollows.denotes hmatches hm

/-- What is reached lies in every set of records that holds the roots and what its records refer to. -/
theorem Reached.mem {key : Key} (h : c.Reached key) {keys : List Key} (hroots : ∀ root ∈ c.roots, root ∈ keys)
    (hclosed : ∀ next ∈ keys, ∀ key ∈ c.tables.references next, key ∈ keys) : key ∈ keys := by
  obtain ⟨root, hroot, hreach⟩ := h
  induction hreach with
  | refl => exact hroots root hroot
  | tail _ hrefers ih => exact hclosed _ ih _ hrefers

/-- Contents denote what rewritten contents denote. -/
theorem Rewrites.denotes (h : c.Rewrites c') {m : Module} (hm : c.Denotes m) : c'.Denotes m := by
  cases h with
  | rename relabel h => exact h.follows.denotes h.matches_ofModule hm
  | reorder hperm hids =>
    exact denotes_of_reached (fun table id _ => Json.Fields.get?_eq_of_perm (hperm table) (hids table) id) hm
  | redirect table a b hcopy h =>
    exact (h.of_moves hcopy).follows.denotes (h.of_moves hcopy).matches_ofModule hm
  | replace h => exact denotes_of_reached h hm

/-- Contents denote what they are rewritten to in any number of steps. -/
theorem denotes_of_rewrites (h : Relation.ReflTransGen Rewrites c c') {m : Module} (hm : c.Denotes m) :
    c'.Denotes m := by
  induction h with
  | refl => exact hm
  | tail _ hstep ih => exact hstep.denotes ih

end Contents

end

end Dump

/-- Modules with the same encodings and fingerprints: of the modules whatever is internal, of their
declarations one by one, and of all declarations together. -/
structure Module.SameText (m m' : Module) : Prop where
  modules : ∀ internal : Name → Bool, ∃ v f, m.encode internal = .ok v ∧ m'.encode internal = .ok v ∧
    Fingerprint.ofValue v = .ok f
  declarations : List.Forall₂ (fun d d' => ∃ v f, d.encode = .ok v ∧ d'.encode = .ok v ∧
    Fingerprint.ofDeclaration d = .ok f ∧ Fingerprint.ofDeclaration d' = .ok f)
      m.declarations m'.declarations
  tables : ∃ f, Fingerprint.ofDeclarations m.declarations = .ok f ∧
    Fingerprint.ofDeclarations m'.declarations = .ok f

/-- Modules that differ in identities of nodes only have the same encodings and fingerprints. -/
theorem Module.Exportable.sameText {m m' : Module} (hm : m.Exportable) (h : m'.tree = m.tree) :
    m.SameText m' := by
  have htrees : Declaration.treeAll m'.declarations = Declaration.treeAll m.declarations :=
    congrArg Module.declarations h
  refine ⟨fun internal => ?_, ?_, ?_⟩
  · obtain ⟨v, f, hv, -, hf⟩ := hm.encodes internal
    exact ⟨v, f, hv, by rw [← m'.encode_tree, h, m.encode_tree, hv], hf⟩
  · have heach : List.Forall₂ (fun d d' => d ∈ m.declarations ∧ d'.tree = d.tree)
        m.declarations m'.declarations := by
      rw [Declaration.treeAll_eq_map, Declaration.treeAll_eq_map] at htrees
      have hsame : List.Forall₂ (fun tree tree' => tree' = tree) (m.declarations.map Declaration.tree)
          (m'.declarations.map Declaration.tree) :=
        htrees ▸ List.forall₂_same.mpr fun tree _ => rfl
      rw [List.forall₂_and_left]
      exact ⟨fun d hd => hd, List.forall₂_map_left_iff.mp (List.forall₂_map_right_iff.mp hsame)⟩
    refine heach.imp fun d d' hd => ?_
    obtain ⟨v, f, g, hv, -, -, hg⟩ := hm.declares d hd.1
    refine ⟨v, g, hv, ?_, hg, ?_⟩
    · rw [← d'.encode_tree, hd.2, d.encode_tree, hv]
    · rw [← Fingerprint.ofDeclaration_tree, hd.2, Fingerprint.ofDeclaration_tree, hg]
  · obtain ⟨f, hf⟩ := (hm.chooses m.declarations (List.Sublist.refl _)).1
    refine ⟨f, hf, ?_⟩
    rw [← Fingerprint.ofDeclarations_treeAll, htrees, Fingerprint.ofDeclarations_treeAll, hf]

namespace Dump

/-- If a dump is loaded, so is every dump whose contents are rewritten from its own in any number of steps,
and the modules have the same encodings and the same fingerprints. -/
theorem load_of_rewrites {before after : Json} {c c' : Contents} (hbefore : c.HeldBy before)
    (hafter : c'.HeldBy after) (h : Relation.ReflTransGen Contents.Rewrites c c') {m : Module}
    (hload : load before = .ok m) : ∃ m', load after = .ok m' ∧ m.SameText m' := by
  have hdenotes : c.Denotes m.tree := hbefore.exists_load_iff.mp ⟨m, hload, rfl⟩
  obtain ⟨m', hload', htree⟩ := hafter.exists_load_iff.mpr (Contents.denotes_of_rewrites h hdenotes)
  exact ⟨m', hload', (exportable_of_load hload).sameText htree⟩

section

variable {f : Table → Text → Text → Prop} {links : List (Text × Link)} {fields fields' : Json.Fields}
  {key : Text} {value value' : Json}

/-- Missing fields refer to the same. -/
theorem FieldsAgree.nil : FieldsAgree f links [] [] where
  plain _ _ := rfl
  linked _ link _ := by
    cases link with
    | one table => exact .none
    | many table => exact .some .nil
    | nested => trivial

/-- Fields that agree still do with an equal field in front of them. -/
theorem FieldsAgree.cons (h : FieldsAgree f links fields fields') (hkey : key ∉ links.map Prod.fst) :
    FieldsAgree f links ((key, value) :: fields) ((key, value) :: fields') where
  plain other hother := by rw [Json.Fields.get?_cons, Json.Fields.get?_cons, h.plain other hother]
  linked other link hmem := by
    have hne : key ≠ other := fun heq => hkey (heq ▸ List.mem_map_of_mem hmem)
    rw [Json.Fields.get?_cons, Json.Fields.get?_cons, if_neg hne, if_neg hne]
    exact h.linked other link hmem

/-- Fields that agree still do with corresponding references in front of them. -/
theorem FieldsAgree.cons_one {table : Table} (h : FieldsAgree f links fields fields')
    (hlinks : links.filter (·.1 = key) = [(key, .one table)])
    (hvalue : Corresponds f table value value') :
    FieldsAgree f links ((key, value) :: fields) ((key, value') :: fields') where
  plain other hother := by
    have hmem : (key, .one table) ∈ links.filter (·.1 = key) := hlinks ▸ List.mem_singleton_self _
    have hne : key ≠ other := fun heq =>
      hother (heq ▸ List.mem_map_of_mem (List.mem_of_mem_filter hmem))
    rw [Json.Fields.get?_cons, Json.Fields.get?_cons, if_neg hne, if_neg hne, h.plain other hother]
  linked other link hmem := by
    rw [Json.Fields.get?_cons, Json.Fields.get?_cons]
    by_cases hkey : key = other
    · subst hkey
      have hlink : (key, link) ∈ [(key, .one table)] :=
        hlinks ▸ List.mem_filter.mpr ⟨hmem, decide_eq_true rfl⟩
      obtain ⟨-, rfl⟩ := Prod.mk.inj (List.mem_singleton.mp hlink)
      rw [if_pos rfl, if_pos rfl]
      exact .some hvalue
    · rw [if_neg hkey, if_neg hkey]
      exact h.linked other link hmem

/-- Ids that correspond are references that do. -/
theorem Corresponds.text {table : Table} {id id' : Text} (h : f table id id') :
    Corresponds f table (.text id) (.text id') :=
  .record nofun nofun (Json.label_text _) (Json.label_text _) h

/-- Applications agree if their references correspond. -/
theorem RecordsAgree.app {x x' y y' : Json} (hx : Corresponds f .exprs x x')
    (hy : Corresponds f .exprs y y') :
    RecordsAgree f .exprs (.object [("kind", .text "app"), ("fn", x), ("arg", y)])
      (.object [("kind", .text "app"), ("fn", x'), ("arg", y')]) := by
  intro fields hfields
  obtain rfl := Json.object.inj hfields
  have hkind : ("kind" : Text) ∉ (["fn", "arg"] : List Text) := by decide
  exact ⟨_, rfl, .cons (.cons_one (.cons_one .nil rfl hy) rfl hx) hkind⟩

/-- Annotated terms agree if their references correspond. -/
theorem RecordsAgree.annotated {x x' : Json} (hx : Corresponds f .exprs x x') :
    RecordsAgree f .exprs (.object [("kind", .text "mdata"), ("expr", x)])
      (.object [("kind", .text "mdata"), ("expr", x')]) := by
  intro fields hfields
  obtain rfl := Json.object.inj hfields
  have hkind : ("kind" : Text) ∉ (["expr"] : List Text) := by decide
  exact ⟨_, rfl, .cons (.cons_one .nil rfl hx) hkind⟩

/-- Assumptions agree if their references correspond. -/
theorem DeclarationsAgree.assumption {n n' x x' : Json} (hn : Corresponds f .names n n')
    (hx : Corresponds f .exprs x x') :
    DeclarationsAgree f (.object [("name", n), ("type", x), ("kind", .text "axiom")])
      (.object [("name", n'), ("type", x'), ("kind", .text "axiom")]) := by
  have hkind : ("kind" : Text) ∉ (["name", "type"] : List Text) := by decide
  exact .object (.cons_one (.cons_one (.cons .nil hkind) rfl hx) rfl hn) nofun

end

/-- One application that another one shares with itself: a copy of it is added beside a record that refers
to itself, the argument is moved to the copy, the table is turned around, and all ids are renamed. -/
theorem load_of_rewrites_of_shared_node :
    let leaf : Json := .object [("kind", .text "bvar"), ("index", .int 0)]
    let app (fn arg : Text) : Json :=
      .object [("kind", .text "app"), ("fn", .text fn), ("arg", .text arg)]
    let loop (id : Text) : Json := .object [("kind", .text "mdata"), ("expr", .text id)]
    let declared (id : Text) : Json :=
      .object [("name", .null), ("type", .text id), ("kind", .text "axiom")]
    let dump (exprs : Json.Fields) (id : Text) : Json :=
      .object [("exprs", .object exprs), ("declarations", .list [declared id])]
    let before : Json.Fields := [("a", leaf), ("f", app "a" "a"), ("g", app "f" "f")]
    let after : Json.Fields := [("xl", loop "xl"), ("xh", app "xa" "xa"), ("xg", app "xf" "xh"),
      ("xf", app "xa" "xa"), ("xa", leaf)]
    ∃ m m', load (dump before "g") = .ok m ∧ load (dump after "xg") = .ok m' ∧ m.SameText m' ∧
      SharingMetrics.ofDeclarations m.declarations = .ok ⟨2, 1, 1⟩ ∧
      SharingMetrics.ofDeclarations m'.declarations = .ok ⟨3, 0, 0⟩ := by
  intro leaf app loop declared dump before after
  let contents (exprs : Json.Fields) (id : Text) : Contents :=
    ⟨⟨[], [], exprs⟩, .null, [declared id]⟩
  let copied : Json.Fields :=
    [("a", leaf), ("f", app "a" "a"), ("g", app "f" "f"), ("h", app "a" "a"), ("l", loop "l")]
  let moved : Json.Fields :=
    [("a", leaf), ("f", app "a" "a"), ("g", app "f" "h"), ("h", app "a" "a"), ("l", loop "l")]
  have hleaf (f : Table → Text → Text → Prop) : RecordsAgree f .exprs leaf leaf := by
    intro fields hfields
    obtain rfl := Json.object.inj hfields
    exact ⟨_, rfl, fun _ _ => rfl, fun _ _ hmem => absurd hmem List.not_mem_nil⟩
  have hadded : (contents before "g").Rewrites (contents copied "g") := by
    refine .replace fun table id hreached => ?_
    have hroots : (contents before "g").roots = ([(.exprs, "g")] : List Key) := by
      rw [Contents.roots, List.flatMap_cons, List.flatMap_nil, declarationReferences_eq]
      rfl
    have hmem : (table, id) ∈ ([(.exprs, "g"), (.exprs, "f"), (.exprs, "a")] : List Key) :=
      hreached.mem (by rw [hroots]; decide) (by decide)
    simp only [List.mem_cons, Prod.mk.injEq, List.not_mem_nil, or_false] at hmem
    obtain ⟨rfl, rfl⟩ | ⟨rfl, rfl⟩ | ⟨rfl, rfl⟩ := hmem <;> rfl
  have hmoved : (contents copied "g").Rewrites (contents moved "g") := by
    refine .redirect .exprs "f" "h" rfl
      ⟨?_, .null, .cons (.assumption .null (.text (.inl rfl))) .nil⟩
    rintro table id id' record rfl hrecord
    have hmem : (id, record) ∈ (contents copied "g").tables.records table :=
      Json.Fields.exists_mem_of_get? hrecord
    cases table with
    | names | levels => exact absurd hmem List.not_mem_nil
    | exprs =>
      simp only [contents, copied, Tables.records, List.mem_cons, Prod.mk.injEq, List.not_mem_nil,
        or_false] at hmem
      have hkept (id : Text) :
          Corresponds (Contents.Moves Table.exprs "f" "h") .exprs (.text id) (.text id) :=
        .text (.inl rfl)
      obtain ⟨rfl, rfl⟩ | ⟨rfl, rfl⟩ | ⟨rfl, rfl⟩ | ⟨rfl, rfl⟩ | ⟨rfl, rfl⟩ := hmem
      · exact ⟨leaf, rfl, hleaf _⟩
      · exact ⟨app "a" "a", rfl, .app (hkept "a") (hkept "a")⟩
      · exact ⟨app "f" "h", rfl, .app (hkept "f") (.text (.inr ⟨rfl, .inl ⟨rfl, rfl⟩⟩))⟩
      · exact ⟨app "a" "a", rfl, .app (hkept "a") (hkept "a")⟩
      · exact ⟨loop "l", rfl, .annotated (hkept "l")⟩
  have hturned : (contents moved "g").Rewrites (contents moved.reverse "g") := by
    refine .reorder (fun table => ?_) fun table => by cases table <;> decide
    cases table with
    | names | levels => exact .refl _
    | exprs => exact (List.reverse_perm moved).symm
  have hrenamed : (contents moved.reverse "g").Rewrites (contents after "xg") := by
    refine .rename (fun _ id => "x" ++ id) ⟨?_, .null, .cons (.assumption .null (.text rfl)) .nil⟩
    rintro table id id' record rfl hrecord
    have hmem : (id, record) ∈ (contents moved.reverse "g").tables.records table :=
      Json.Fields.exists_mem_of_get? hrecord
    cases table with
    | names | levels => exact absurd hmem List.not_mem_nil
    | exprs =>
      simp only [contents, moved, Tables.records, List.mem_reverse, List.mem_cons, Prod.mk.injEq,
        List.not_mem_nil, or_false] at hmem
      obtain ⟨rfl, rfl⟩ | ⟨rfl, rfl⟩ | ⟨rfl, rfl⟩ | ⟨rfl, rfl⟩ | ⟨rfl, rfl⟩ := hmem
      · exact ⟨leaf, rfl, hleaf _⟩
      · exact ⟨app "xa" "xa", rfl, .app (.text rfl) (.text rfl)⟩
      · exact ⟨app "xf" "xh", rfl, .app (.text rfl) (.text rfl)⟩
      · exact ⟨app "xa" "xa", rfl, .app (.text rfl) (.text rfl)⟩
      · exact ⟨loop "xl", rfl, .annotated (.text rfl)⟩
  have hbefore : (contents before "g").HeldBy (dump before "g") := ⟨_, rfl, rfl, rfl, rfl⟩
  have hafter : (contents after "xg").HeldBy (dump after "xg") := ⟨_, rfl, rfl, rfl, rfl⟩
  obtain ⟨m', hload', hsame⟩ := load_of_rewrites hbefore hafter
    (.tail (.tail (.tail (.single hadded) hmoved) hturned) hrenamed) rfl
  refine ⟨_, m', rfl, hload', hsame, ?_, ?_⟩
  · cbv
  · cases hload'
    cbv

end Dump

end TermText
