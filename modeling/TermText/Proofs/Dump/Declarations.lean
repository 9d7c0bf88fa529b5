import TermText.Proofs.Dump.Decision
import TermText.Proofs.Dump.Place

/-!
# Recipes of declarations

Declarations are built by recipes, too. A recipe of a declaration takes one course whatever is found,
as the constructors of a family lie within its record and so the nesting of records is bounded. The
errors of references name records, so it makes no difference that faults are blamed on the
declaration only after references were resolved.
-/

namespace TermText.Dump

variable {α β ν : Type}

namespace Recipe

/-- The recipe of the payload of a record, constructors being declared by given recipes. -/
def ofPayload (declare : Json → Recipe Declaration) (record : Json) : Recipe Payload := do
  let kind ← field "kind" record
  match Json.kindNamed? DeclarationKind.all DeclarationKind.word kind with
  | some .assumption => return .assumption
  | some .definition => return .definition (← child "value" record)
  | some .proof => return .proof (← child "value" record)
  | some .sealed => return .sealed (← child "value" record)
  | some .quotient => do
    let given ← field "quot_kind" record
    match QuotientKind.ofJson? given with
    | none => do
      let shown ← written given.describe
      .fail (.unknownQuotientKind shown)
    | some quotient => return .quotient quotient (← named "type_name" record)
  | some .family => do
    let records ← access ((Json.Fields.get? record.fields "constructors").getD (.list [])).listed
    return .family (← each declare records)
  | some .constructor => return .constructor (← named "induct" record)
  | some .eliminator => return .eliminator
  | none => do
    let shown ← written kind.describe
    .fail (.unknownDeclarationKind shown)

/-- The recipe of a declaration record, within a bound on the nesting. -/
def ofDeclaration : Nat → Json → Recipe Declaration
  | 0, _ => .fail .unfinished
  | bound + 1, record => blaming .blameDeclaration do
    let declared ← named "name" record
    let type ← child "type" record
    return .mk declared type (← ofPayload (ofDeclaration bound) record)

end Recipe

/-- A loader whose errors a change leaves alone. -/
def Loader.Excused (loader : Loader) (blame : Error → Error) : Prop :=
  (∀ ref s e s', loader.name ref s = .error e s' → blame e = e) ∧
    (∀ ref s e s', loader.level ref s = .error e s' → blame e = e) ∧
      ∀ ref s e s', loader.expr ref s = .error e s' → blame e = e

/-- A step whose errors are left alone, and whose continuation is blamed. -/
theorem Load.blaming_bind {m : Load α} {f : α → Load β} {blame : Error → Error}
    (h : ∀ s e s', m s = .error e s' → blame e = e) :
    Load.blaming blame (m >>= f) = m >>= fun a => Load.blaming blame (f a) := by
  funext s
  rw [blaming_apply, bind_apply, bind_apply]
  cases hstep : m s with
  | ok a s' => exact (blaming_apply blame (f a) s').symm
  | error e s' => exact congrArg (EStateM.Result.error · s') (h s e s' hstep)

/-- Blaming a recipe's errors after it was run blames those of the recipe. -/
theorem Recipe.blaming_run {loader : Loader} {blame : Error → Error} (h : loader.Excused blame)
    (r : Recipe α) : Load.blaming blame (r.run loader) = (r.blaming blame).run loader := by
  induction r with
  | done a => rfl
  | fail e => rfl
  | askName ref next ih =>
    rw [run, Load.blaming_bind (h.1 ref)]
    exact congrArg _ (funext ih)
  | askLevel ref next ih =>
    rw [run, Load.blaming_bind (h.2.1 ref)]
    exact congrArg _ (funext ih)
  | askExpr ref next ih =>
    rw [run, Load.blaming_bind (h.2.2 ref)]
    exact congrArg _ (funext ih)

/-- Of all faults only a reference without a label stands for itself after a name was resolved. -/
theorem exists_numeral_of_name {tables : Tables} {ref : Json} {s s' : Session} {f : Fault}
    (h : name tables ref s = .error (.fault f) s') : ∃ error, f = .numeral error := by
  by_cases href : ref = .null
  · rw [href, name_eq] at h
    cases h
  · cases hlabel : ref.label with
    | error e =>
      rw [name_of_unlabelled tables hlabel] at h
      cases h
      exact ⟨e, rfl⟩
    | ok id =>
      rw [name_eq_resolve tables href hlabel] at h
      obtain ⟨_, e, _, _, _, hblame⟩ := Load.exists_blame_of_resolve h
      exact absurd hblame (Error.blameRecord_ne_fault e _ _ _)

/-- Likewise for levels. -/
theorem exists_numeral_of_level {tables : Tables} {ref : Json} {s s' : Session} {f : Fault}
    (h : level tables ref s = .error (.fault f) s') : ∃ error, f = .numeral error := by
  cases hlabel : ref.label with
  | error e =>
    rw [level_of_unlabelled tables hlabel] at h
    cases h
    exact ⟨e, rfl⟩
  | ok id =>
    rw [level_eq_resolve tables hlabel] at h
    obtain ⟨_, e, _, _, _, hblame⟩ := Load.exists_blame_of_resolve h
    exact absurd hblame (Error.blameRecord_ne_fault e _ _ _)

/-- An error is no field that a declaration lacks if its fault, should it be one, is a reference without
a label. -/
theorem Error.blameDeclaration_of_numeral {e : Error} (h : ∀ f, e = .fault f → ∃ error, f = .numeral error) :
    e.blameDeclaration = e := by
  cases e with
  | fault f =>
    obtain ⟨error, rfl⟩ := h f rfl
    rfl
  | _ => rfl

/-- The errors of references are not taken for fields that a declaration lacks. -/
theorem Tables.excused_loader (tables : Tables) : tables.loader.Excused .blameDeclaration := by
  refine ⟨fun ref s e s' h => ?_, fun ref s e s' h => ?_, fun ref s e s' h => ?_⟩
  · exact Error.blameDeclaration_of_numeral fun f hf => exists_numeral_of_name (hf ▸ h)
  · exact Error.blameDeclaration_of_numeral fun f hf => exists_numeral_of_level (hf ▸ h)
  · change expr tables ref s = _ at h
    rw [expr_eq_linkedExpr] at h
    exact Error.blameDeclaration_of_numeral fun f hf => exists_numeral_of_linkedExpr (hf ▸ h)

/-- Building the payload of a record runs its recipe. -/
theorem buildPayload_eq_run (tables : Tables) {declare : Json → Load Declaration}
    {recipe : Json → Recipe Declaration} (h : ∀ record, declare record = (recipe record).run tables.loader)
    (record : Json) :
    buildPayload tables declare record = (Recipe.ofPayload recipe record).run tables.loader := by
  obtain rfl : declare = fun record => (recipe record).run tables.loader := funext h
  unfold buildPayload Recipe.ofPayload
  simp only [Recipe.run_bind, Recipe.run_field]
  congr 1
  funext kind
  cases Json.kindNamed? DeclarationKind.all DeclarationKind.word kind with
  | none => cases kind.describe <;> rfl
  | some kind =>
    cases kind with
    | quotient =>
      simp only [Recipe.run_bind, Recipe.run_field]
      congr 1
      funext given
      cases QuotientKind.ofJson? given with
      | none => cases given.describe <;> rfl
      | some quotient => simp [Recipe.named, Recipe.run, Tables.loader]
    | family => simp [Recipe.run_each]
    | _ => simp [Recipe.named, Recipe.child, Recipe.run, Tables.loader]

/-- Building a declaration runs the recipe of its record. -/
theorem declarationWithin_eq_run (tables : Tables) (bound : Nat) (record : Json) :
    declarationWithin tables bound record =
      (Recipe.ofDeclaration bound record).run tables.loader := by
  induction bound generalizing record with
  | zero => rfl
  | succ bound ih =>
    rw [declarationWithin, declarationStep, Recipe.ofDeclaration,
      ← Recipe.blaming_run tables.excused_loader]
    congr 1
    simp [Recipe.named, Recipe.child, Recipe.run, buildPayload_eq_run tables ih, Tables.loader]

/-- The items of a list are nested no deeper than the deepest one. -/
theorem depth_le_depthItems {item : Json} {items : List Json} (h : item ∈ items) :
    item.depth ≤ Json.depthItems items := by
  induction items with
  | nil => cases h
  | cons first rest ih =>
    rw [Json.depthItems]
    rcases List.mem_cons.mp h with rfl | h
    · exact Nat.le_max_left _ _
    · exact Nat.le_trans (ih h) (Nat.le_max_right _ _)

/-- A value is no deeper than the fields that it stands among. -/
theorem depth_le_depthFields {key : Text} {value : Json} {fields : Json.Fields}
    (h : (key, value) ∈ fields) : value.depth ≤ Json.depthFields fields := by
  induction fields with
  | nil => cases h
  | cons first rest ih =>
    obtain ⟨key', value'⟩ := first
    rw [Json.depthFields]
    rcases List.mem_cons.mp h with h | h
    · cases h
      exact Nat.le_max_left _ _
    · exact Nat.le_trans (ih h) (Nat.le_max_right _ _)

/-- What a field of a record lists is nested less deeply than the record. -/
theorem depth_lt_of_mem_listed {record item : Json} {key : Text} {items : List Json}
    (h : ((Json.Fields.get? record.fields key).getD (.list [])).listed? = some items)
    (hitem : item ∈ items) : item.depth < record.depth := by
  cases hvalue : Json.Fields.get? record.fields key with
  | none =>
    obtain rfl : [] = items := by simpa [hvalue, Json.listed?] using h
    cases hitem
  | some value =>
    rw [hvalue, Option.getD_some] at h
    cases record with
    | object fields =>
      have hle : value.depth ≤ Json.depthFields fields :=
        depth_le_depthFields (Json.Fields.exists_mem_of_get? hvalue)
      have hdepth : (Json.object fields).depth = Json.depthFields fields + 1 := by rw [Json.depth]
      cases value with
      | list found =>
        obtain rfl : found = items := by simpa [Json.listed?] using h
        have hitems := depth_le_depthItems hitem
        rw [Json.depth] at hle
        omega
      | text t =>
        obtain rfl : (t.map fun c => .text [c]) = items := by simpa [Json.listed?] using h
        obtain ⟨c, _, rfl⟩ := List.mem_map.mp hitem
        rw [hdepth, Json.depth] <;> simp
      | object found =>
        obtain rfl : (found.map fun field => .text field.1) = items := by simpa [Json.listed?] using h
        obtain ⟨field, _, rfl⟩ := List.mem_map.mp hitem
        rw [hdepth, Json.depth] <;> simp
      | _ => simp [Json.listed?] at h
    | _ => simp [Json.fields, Json.Fields.get?] at hvalue

/-- The record of a constructor is less deep than that of its family. -/
theorem depth_lt_of_mem_constructorRecords {record inner : Json}
    (h : inner ∈ constructorRecords record) : inner.depth < record.depth := by
  unfold constructorRecords at h
  split at h
  · cases hlisted : ((Json.Fields.get? record.fields "constructors").getD (.list [])).listed? with
    | none => simp [hlisted] at h
    | some items =>
      rw [hlisted, Option.getD_some] at h
      exact depth_lt_of_mem_listed hlisted h
  · cases h

/-- The record of a family holds those of its constructors as far as it lists any. -/
theorem constructorRecords_of_family {record : Json} (h : declarationKind? record = some .family) :
    constructorRecords record =
      ((Json.Fields.get? record.fields "constructors").getD (.list [])).listed?.getD [] := by
  rw [constructorRecords, h]

/-- No other record holds constructors. -/
theorem constructorRecords_of_ne {record : Json} (h : declarationKind? record ≠ some .family) :
    constructorRecords record = [] := by
  unfold constructorRecords
  split
  · next hfamily => exact absurd hfamily h
  · rfl

/-- The records that a declaration record refers to by a field of its kind alone. -/
def payloadReferences (record : Json) : List Key :=
  match declarationKind? record with
  | some .definition | some .proof | some .sealed => fieldKeys exprKeys "value" record.fields
  | some .quotient => fieldKeys nameKeys "type_name" record.fields
  | some .constructor => fieldKeys nameKeys "induct" record.fields
  | some .assumption | some .family | some .eliminator | none => []

/-- The records that a declaration record and the records of its constructors refer to, in the order
in which they are asked for. -/
def declarationReferences (record : Json) : List Key :=
  fieldKeys nameKeys "name" record.fields ++ (fieldKeys exprKeys "type" record.fields ++
    (payloadReferences record ++
      (constructorRecords record).attach.flatMap fun ⟨inner, _⟩ => declarationReferences inner))
termination_by record.depth
decreasing_by exact depth_lt_of_mem_constructorRecords ‹_›

/-- A declaration refers to its name and its type, to what its payload needs, and through its constructors.
-/
theorem declarationReferences_eq (record : Json) : declarationReferences record =
    fieldKeys nameKeys "name" record.fields ++ (fieldKeys exprKeys "type" record.fields ++
      (payloadReferences record ++ (constructorRecords record).flatMap declarationReferences)) := by
  rw [declarationReferences]
  simp

/-- A fault of a declaration stays a fault of the dump. -/
theorem blameDeclaration_ne_unfinished {e : Error} (h : e ≠ .unfinished) :
    e.blameDeclaration ≠ .unfinished := by
  unfold Error.blameDeclaration
  split
  · simp
  · exact h

namespace Recipe

/-- Recipes of one course are of one course after their errors were changed. -/
theorem SameCourse.blaming {View : α → ν → Prop} {refs : List Key} {r r' : Recipe α}
    {blame : Error → Error} (h : SameCourse View refs r r')
    (hblame : ∀ e, e ≠ .unfinished → blame e ≠ .unfinished) :
    SameCourse View refs (r.blaming blame) (r'.blaming blame) := by
  induction r generalizing refs r' with
  | done a =>
    cases r' with
    | done b => exact h
    | _ => exact h.elim
  | fail e =>
    cases r' with
    | fail e' => exact ⟨congrArg blame h.1, hblame e h.2⟩
    | _ => exact h.elim
  | askName ref next ih =>
    cases r' with
    | askName ref' next' =>
      obtain ⟨href, rest, hrefs, hnext⟩ := h
      exact ⟨href, rest, hrefs, fun n => ih n (hnext n)⟩
    | _ => exact h.elim
  | askLevel ref next ih =>
    cases r' with
    | askLevel ref' next' =>
      obtain ⟨href, rest, hrefs, hnext⟩ := h
      exact ⟨href, rest, hrefs, fun l => ih l (hnext l)⟩
    | _ => exact h.elim
  | askExpr ref next ih =>
    cases r' with
    | askExpr ref' next' =>
      obtain ⟨href, rest, hrefs, hnext⟩ := h
      exact ⟨href, rest, hrefs, fun t t' ht => ih t (hnext t t' ht)⟩
    | _ => exact h.elim

/-- A declaration is viewed as the declaration whose terms are written out as trees. -/
def IsDeclarationTree (d tree : Declaration) : Prop :=
  d.tree = tree

/-- A payload is viewed as the payload whose terms are written out as trees. -/
def IsPayloadTree (payload tree : Payload) : Prop :=
  Declaration.payloadTree payload = tree

/-- Declarations are viewed one by one. -/
def AreDeclarationTrees (ds trees : List Declaration) : Prop :=
  Declaration.treeAll ds = trees

/-- Recipes for several declarations take one course if each of them does. -/
theorem sameCourse_each {declare : Json → Recipe Declaration} {references : Json → List Key}
    {records : List Json} (h : ∀ record ∈ records,
      SameCourse IsDeclarationTree (references record) (declare record) (declare record)) :
    SameCourse AreDeclarationTrees (records.flatMap references) (each declare records)
      (each declare records) := by
  induction records with
  | nil => exact ⟨rfl, [], rfl, rfl⟩
  | cons record rest ih =>
    obtain ⟨hrecord, hall⟩ := List.forall_mem_cons.mp h
    refine hrecord.bind fun a b v ha hb => (ih hall).map fun as bs vs has hbs => ⟨v :: vs, ?_, ?_⟩
    · rw [AreDeclarationTrees, Declaration.treeAll, ha, has]
    · rw [AreDeclarationTrees, Declaration.treeAll, hb, hbs]

/-- A field that refers to a term, whose tree makes up a payload. -/
theorem sameCourse_value {make : Term → Payload}
    (hmake : ∀ t, Declaration.payloadTree (make t) = make t.tree) (record : Json) :
    SameCourse IsPayloadTree (fieldKeys exprKeys "value" record.fields)
      (child "value" record >>= fun t => .done (make t))
      (child "value" record >>= fun t => .done (make t)) := by
  refine (sameCourse_child "value" record).map fun a b v ha hb => ⟨make v, ?_, ?_⟩
  · rw [IsPayloadTree, hmake, ha]
  · rw [IsPayloadTree, hmake, hb]

/-- The recipe of a payload takes one course if those of the constructors do. -/
theorem sameCourse_ofPayload {declare : Json → Recipe Declaration} {references : Json → List Key}
    {record : Json} (h : ∀ inner ∈ constructorRecords record,
      SameCourse IsDeclarationTree (references inner) (declare inner) (declare inner)) :
    SameCourse IsPayloadTree
      (payloadReferences record ++ (constructorRecords record).flatMap references)
      (ofPayload declare record) (ofPayload declare record) := by
  refine sameCourse_field fun value hvalue => ?_
  have hkind : declarationKind? record =
      Json.kindNamed? DeclarationKind.all DeclarationKind.word value := by
    rw [declarationKind?, hvalue, Option.bind_some]
  unfold payloadReferences
  cases hnamed : Json.kindNamed? DeclarationKind.all DeclarationKind.word value with
  | none =>
    rw [constructorRecords_of_ne (by simp [hkind, hnamed])]
    simp only [hkind, hnamed]
    exact sameCourse_fail_written fun _ => by simp
  | some kind =>
    rw [hnamed] at hkind
    by_cases hfamily : kind = .family
    · subst hfamily
      rw [constructorRecords_of_family hkind] at h ⊢
      simp only [hkind, Json.listed]
      cases hlisted : ((Json.Fields.get? record.fields "constructors").getD (.list [])).listed? with
      | none => exact ⟨rfl, by simp⟩
      | some records =>
        rw [hlisted] at h
        exact (sameCourse_each h).map fun ds ds' trees hds hds' =>
          ⟨.family trees, congrArg Payload.family hds, congrArg Payload.family hds'⟩
    · rw [constructorRecords_of_ne (by simp [hkind, hfamily]), hkind, List.flatMap_nil, List.append_nil]
      cases kind with
      | assumption => exact ⟨rfl, .assumption, rfl, rfl⟩
      | eliminator => exact ⟨rfl, .eliminator, rfl, rfl⟩
      | definition => exact sameCourse_value (fun _ => rfl) record
      | proof => exact sameCourse_value (fun _ => rfl) record
      | sealed => exact sameCourse_value (fun _ => rfl) record
      | constructor =>
        exact (sameCourse_named "induct" record).map fun a b v ha hb =>
          ⟨.constructor v, by rw [ha]; rfl, by rw [hb]; rfl⟩
      | quotient =>
        refine sameCourse_field fun given hgiven => ?_
        cases QuotientKind.ofJson? given with
        | none => exact sameCourse_fail_written fun _ => by simp
        | some quotient =>
          exact (sameCourse_named "type_name" record).map fun a b v ha hb =>
            ⟨.quotient quotient v, by rw [ha]; rfl, by rw [hb]; rfl⟩
      | family => exact absurd rfl hfamily

/-- The recipe of a declaration takes one course if the bound exceeds the nesting of its record. -/
theorem sameCourse_ofDeclaration {bound : Nat} {record : Json} (h : record.depth < bound) :
    SameCourse IsDeclarationTree (declarationReferences record) (ofDeclaration bound record)
      (ofDeclaration bound record) := by
  induction bound generalizing record with
  | zero => omega
  | succ bound ih =>
    have hnested (inner : Json) (hinner : inner ∈ constructorRecords record) :=
      ih (Nat.lt_of_lt_of_le (depth_lt_of_mem_constructorRecords hinner) (Nat.le_of_lt_succ h))
    have hpayload := sameCourse_ofPayload hnested
    rw [declarationReferences_eq]
    refine SameCourse.blaming ?_ fun e => blameDeclaration_ne_unfinished
    refine (sameCourse_named "name" record).bind fun a b v ha hb =>
      (sameCourse_child "type" record).bind fun t t' u ht ht' =>
        hpayload.map fun p p' w hp hp' => ⟨.mk v u w, ?_, ?_⟩
    · rw [IsDeclarationTree, Declaration.tree, ha, ht, hp]
    · rw [IsDeclarationTree, Declaration.tree, hb, ht', hp']

/-- A payload is yielded by the recipe of an object that names a kind and the parts of the kind. -/
theorem yields_ofPayload {M : Meaning} (Q : Payload → Prop) (declare : Json → Recipe Declaration)
    (record : Json) : (ofPayload declare record).Yields M Q ↔
      ∃ (fields : Json.Fields) (kind : DeclarationKind),
        record = .object fields ∧ declarationKind? record = some kind ∧ match kind with
          | .assumption => Q .assumption
          | .definition => ∃ value, fields.get? "value" = some value ∧
            ∃ t, M.expr value t ∧ Q (.definition t)
          | .proof => ∃ value, fields.get? "value" = some value ∧ ∃ t, M.expr value t ∧ Q (.proof t)
          | .sealed => ∃ value, fields.get? "value" = some value ∧
            ∃ t, M.expr value t ∧ Q (.sealed t)
          | .quotient => ∃ given, fields.get? "quot_kind" = some given ∧
            ∃ quotient, QuotientKind.ofJson? given = some quotient ∧
              ∃ ref, fields.get? "type_name" = some ref ∧ ∃ n, M.name ref n ∧ Q (.quotient quotient n)
          | .family => ((fields.get? "constructors").getD (.list [])).listed? =
              some (constructorRecords record) ∧
            ∃ ds, List.Forall₂ (fun inner d => (declare inner).Yields M (· = d))
              (constructorRecords record) ds ∧ Q (.family ds)
          | .constructor => ∃ ref, fields.get? "induct" = some ref ∧
            ∃ n, M.name ref n ∧ Q (.constructor n)
          | .eliminator => Q .eliminator := by
  cases record with
  | object fields =>
    have hread (value : Json) (hvalue : Json.Fields.get? fields "kind" = some value) :
        declarationKind? (.object fields) =
          Json.kindNamed? DeclarationKind.all DeclarationKind.word value := by
      simp [declarationKind?, Json.fields, hvalue]
    cases hvalue : Json.Fields.get? fields "kind" with
    | none => simp [ofPayload, declarationKind?, Json.fields, hvalue]
    | some value =>
      cases hkind : Json.kindNamed? DeclarationKind.all DeclarationKind.word value with
      | none => simp [ofPayload, hread value hvalue, hvalue, hkind]
      | some kind =>
        have hnamed := (hread value hvalue).trans hkind
        cases kind with
        | quotient =>
          simp only [ofPayload, yields_bind, yields_field, Json.object.injEq, exists_and_left,
            exists_eq_left', hvalue, Option.some.injEq, hkind, hnamed]
          refine exists_congr fun given => and_congr_right fun _ => ?_
          cases QuotientKind.ofJson? given <;> simp
        | family =>
          simp only [ofPayload, yields_bind, yields_field, Json.object.injEq, exists_and_left,
            exists_eq_left', hvalue, Option.some.injEq, hkind, hnamed, yields_access,
            listed_eq_ok_iff, yields_each, Json.fields, constructorRecords_of_family hnamed]
          cases ((Json.Fields.get? fields "constructors").getD (.list [])).listed? <;> simp
        | _ => simp [ofPayload, hvalue, hkind, hnamed]
  | _ => simp [ofPayload]

end Recipe

/-- The bound on the nesting of a declaration exceeds the depth of its record. -/
theorem declaration_eq_run (tables : Tables) (record : Json) : declaration tables record =
    (Recipe.ofDeclaration (record.depth + 1) record).run tables.loader :=
  declarationWithin_eq_run tables _ record

/-- The loader of a dump leaves the same records being built. -/
theorem Tables.keeps_loader (tables : Tables) : tables.loader.Keeps :=
  ⟨keeps_name tables, keeps_level tables, fun ref => by
    change (expr tables ref).Keeps
    rw [expr_eq_linkedExpr]
    exact keeps_linkedExpr tables ref⟩

/-- A declaration is built or a fault is reported, in every session. -/
theorem finishes_declaration (tables : Tables) (record : Json) (s : Session) :
    (declaration tables record).Finishes s := by
  rw [declaration_eq_run]
  exact Recipe.finishes_run (Recipe.sameCourse_ofDeclaration record.depth.lt_succ_self) tables.keeps_loader
    ⟨fun ref s _ => finishes_name tables ref s, fun ref s _ => finishes_level tables ref s,
      fun ref s _ => finishes_expr tables ref s⟩ rfl

/-- The tables of a dump are found if each of the three is. -/
theorem tablesOf_eq_ok {dump : Json.Fields} {tables : Tables} (h : tablesOf dump = .ok tables) :
    tableOf dump .names = .ok tables.names ∧ tableOf dump .levels = .ok tables.levels ∧
      tableOf dump .exprs = .ok tables.exprs := by
  unfold tablesOf at h
  cases hnames : tableOf dump .names with
  | error e => rw [hnames] at h; cases h
  | ok names =>
    cases hlevels : tableOf dump .levels with
    | error e => rw [hnames, hlevels] at h; cases h
    | ok levels =>
      cases hexprs : tableOf dump .exprs with
      | error e => rw [hnames, hlevels, hexprs] at h; cases h
      | ok exprs =>
        rw [hnames, hlevels, hexprs] at h
        cases h
        exact ⟨rfl, rfl, rfl⟩

/-- If they are not found, one of the three is not. -/
theorem exists_of_tablesOf_error {dump : Json.Fields} {e : Error} (h : tablesOf dump = .error e) :
    ∃ table, tableOf dump table = .error e := by
  unfold tablesOf at h
  cases hnames : tableOf dump .names with
  | error e' => rw [hnames] at h; cases h; exact ⟨.names, hnames⟩
  | ok names =>
    cases hlevels : tableOf dump .levels with
    | error e' => rw [hnames, hlevels] at h; cases h; exact ⟨.levels, hlevels⟩
    | ok levels =>
      cases hexprs : tableOf dump .exprs with
      | error e' => rw [hnames, hlevels, hexprs] at h; cases h; exact ⟨.exprs, hexprs⟩
      | ok exprs => rw [hnames, hlevels, hexprs] at h; cases h

end TermText.Dump
