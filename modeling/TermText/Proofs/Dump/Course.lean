import TermText.Proofs.Dump.Recipe
import TermText.Proofs.Term.Tree

/-!
# The course of a recipe

Which records a record refers to, and that its recipe asks for exactly these, in their order, until
it ends or fails. What is found does not change the course: whatever terms answer the requests, the
same references are asked for next, and the same error ends the recipe or objects that differ in
identities only. So the references of a record are read off its fields alone.
-/

namespace TermText.Dump

/-- A record of one of the tables, by its id. -/
abbrev Key := Table × Text

/-- The record of a table that a reference stands for; a reference without a label stands for none. -/
def labelKeys (table : Table) (ref : Json) : List Key :=
  match ref.label with
  | .ok id => [(table, id)]
  | .error _ => []

/-- The record that a reference to a name stands for; null stands for none. -/
def nameKeys : Json → List Key
  | .null => []
  | ref => labelKeys .names ref

/-- The record that a reference to a level stands for. -/
def levelKeys (ref : Json) : List Key :=
  labelKeys .levels ref

/-- The record that a reference to a term stands for. -/
def exprKeys (ref : Json) : List Key :=
  labelKeys .exprs ref

/-- A reference leads to the record of its label, if it has one. -/
theorem mem_labelKeys {table : Table} {ref : Json} {key : Key} :
    key ∈ labelKeys table ref ↔ key.1 = table ∧ ref.label = .ok key.2 := by
  obtain ⟨table', id⟩ := key
  unfold labelKeys
  cases ref.label with
  | ok id' => simp [eq_comm]
  | error e => simp

/-- A reference with a label stands for the record of that label. -/
theorem labelKeys_eq {table : Table} {ref : Json} {id : Text} (h : ref.label = .ok id) :
    labelKeys table ref = [(table, id)] := by
  rw [labelKeys, h]

/-- The records that a field refers to; a missing field refers to none. -/
def fieldKeys (keys : Json → List Key) (key : Text) (fields : Json.Fields) : List Key :=
  (fields.get? key).elim [] keys

/-- The records that a name record refers to. -/
def nameReferences (fields : Json.Fields) : List Key :=
  fieldKeys nameKeys "parent" fields

/-- The records that a level record refers to. -/
def levelReferences (fields : Json.Fields) : List Key :=
  match (fields.get? "kind").bind LevelKind.ofJson? with
  | some .succ => fieldKeys levelKeys "of" fields
  | some .max | some .imax => fieldKeys levelKeys "lhs" fields ++ fieldKeys levelKeys "rhs" fields
  | some .param | some .metaVar => fieldKeys nameKeys "name" fields
  | some .zero | none => []

/-- The records that a term record refers to, in the order in which they are asked for. -/
def exprReferences (fields : Json.Fields) : List Key :=
  let child (key : Text) : List Key := fieldKeys exprKeys key fields
  let named (key : Text) : List Key := fieldKeys nameKeys key fields
  match (fields.get? "kind").bind ExprKind.ofJson? with
  | some .freeVar | some .metaVar => named "name"
  | some .sort => fieldKeys levelKeys "level" fields
  | some .const =>
    (((fields.get? "levels").getD (.list [])).listed?.getD []).flatMap levelKeys ++ named "name"
  | some .app => child "fn" ++ child "arg"
  | some .lambda | some .pi => child "type" ++ (child "body" ++ named "binder")
  | some .letIn => child "type" ++ (child "value" ++ (child "body" ++ named "binder"))
  | some .annotated => child "expr"
  | some .proj => named "type_name" ++ child "struct"
  | some .boundVar | some .natural | some .text | none => []

/-- The records that a record of the tables refers to; a missing record refers to none. -/
def Tables.references (tables : Tables) : Key → List Key
  | (.names, id) => (Json.Fields.get? tables.names id).elim [] fun record =>
    nameReferences record.fields
  | (.levels, id) => (Json.Fields.get? tables.levels id).elim [] fun record =>
    levelReferences record.fields
  | (.exprs, id) => (Json.Fields.get? tables.exprs id).elim [] fun record =>
    exprReferences record.fields

namespace Recipe

variable {α β ν μ : Type}

/-- Two recipes that ask for the same references, whatever objects are found, and end in the same
error or in objects of one view. `refs` are the records that they ask for until they end. Terms that
differ in identities only are not told apart. -/
def SameCourse (View : α → ν → Prop) : List Key → Recipe α → Recipe α → Prop
  | refs, .done a, .done b => refs = [] ∧ ∃ v, View a v ∧ View b v
  | _, .fail e, .fail e' => e = e' ∧ e ≠ .unfinished
  | refs, .askName ref next, .askName ref' next' =>
    ref = ref' ∧ ∃ rest, refs = nameKeys ref ++ rest ∧ ∀ n, SameCourse View rest (next n) (next' n)
  | refs, .askLevel ref next, .askLevel ref' next' =>
    ref = ref' ∧ ∃ rest, refs = levelKeys ref ++ rest ∧ ∀ l, SameCourse View rest (next l) (next' l)
  | refs, .askExpr ref next, .askExpr ref' next' =>
    ref = ref' ∧ ∃ rest, refs = exprKeys ref ++ rest ∧
      ∀ t t', t.tree = t'.tree → SameCourse View rest (next t) (next' t')
  | _, _, _ => False

/-- Recipes of one course that are continued by recipes of one course are of one course. -/
theorem SameCourse.bind {View : α → ν → Prop} {View' : β → μ → Prop} {refs rest : List Key}
    {r r' : Recipe α} {f f' : α → Recipe β} (h : SameCourse View refs r r')
    (hf : ∀ a b v, View a v → View b v → SameCourse View' rest (f a) (f' b)) :
    SameCourse View' (refs ++ rest) (r >>= f) (r' >>= f') := by
  induction r generalizing refs r' with
  | done a =>
    cases r' with
    | done b =>
      obtain ⟨rfl, v, ha, hb⟩ := h
      exact hf a b v ha hb
    | _ => exact h.elim
  | fail e =>
    cases r' with
    | fail e' => exact h
    | _ => exact h.elim
  | askName ref next ih =>
    cases r' with
    | askName ref' next' =>
      obtain ⟨href, tail, rfl, hnext⟩ := h
      exact ⟨href, tail ++ rest, by simp, fun n => ih n (hnext n)⟩
    | _ => exact h.elim
  | askLevel ref next ih =>
    cases r' with
    | askLevel ref' next' =>
      obtain ⟨href, tail, rfl, hnext⟩ := h
      exact ⟨href, tail ++ rest, by simp, fun l => ih l (hnext l)⟩
    | _ => exact h.elim
  | askExpr ref next ih =>
    cases r' with
    | askExpr ref' next' =>
      obtain ⟨href, tail, rfl, hnext⟩ := h
      exact ⟨href, tail ++ rest, by simp, fun t t' ht => ih t (hnext t t' ht)⟩
    | _ => exact h.elim

/-- Recipes of one course whose objects are put to one use are of one course. -/
theorem SameCourse.map {View : α → ν → Prop} {View' : β → μ → Prop} {refs : List Key}
    {r r' : Recipe α} {f f' : α → β} (h : SameCourse View refs r r')
    (hf : ∀ a b v, View a v → View b v → ∃ w, View' (f a) w ∧ View' (f' b) w) :
    SameCourse View' refs (r >>= fun a => .done (f a)) (r' >>= fun b => .done (f' b)) := by
  rw [← List.append_nil refs]
  exact h.bind fun a b v ha hb => ⟨rfl, hf a b v ha hb⟩

/-- A recipe that ends at once: it asks for nothing. -/
def Ends (r : Recipe α) : Prop :=
  (∃ a, r = .done a) ∨ ∃ e, r = .fail e ∧ e ≠ .unfinished

/-- A recipe that ends at once takes one course only. -/
theorem Ends.sameCourse {r : Recipe α} (h : r.Ends) : SameCourse Eq [] r r := by
  rcases h with ⟨a, rfl⟩ | ⟨e, rfl, he⟩
  · exact ⟨rfl, a, rfl, rfl⟩
  · exact ⟨rfl, he⟩

/-- A recipe that ends at once, continued by one that does. -/
theorem Ends.bind {r : Recipe α} {f : α → Recipe β} (h : r.Ends) (hf : ∀ a, (f a).Ends) :
    (r >>= f).Ends := by
  rcases h with ⟨a, rfl⟩ | ⟨e, rfl, he⟩
  · exact hf a
  · exact .inr ⟨e, rfl, he⟩

/-- Blaming a record for a bad number keeps that a recipe ends at once. -/
theorem Ends.blaming {r : Recipe α} (h : r.Ends) (table : Table) (id : Text) :
    (r.blaming (.blameNumber table id)).Ends := by
  rcases h with ⟨a, rfl⟩ | ⟨e, rfl, he⟩
  · exact .inl ⟨a, rfl⟩
  · refine .inr ⟨_, rfl, ?_⟩
    cases e with
    | fault f =>
      simp only [Error.blameNumber]
      split <;> simp
    | _ => exact he

/-- Reaching into a value asks for nothing. -/
theorem ends_access (x : Except Json.AccessError α) : (access x).Ends := by
  cases x with
  | ok a => exact .inl ⟨a, rfl⟩
  | error e => exact .inr ⟨_, rfl, by simp⟩

/-- Writing a text asks for nothing. -/
theorem ends_written (x : Except Numeral.Error Text) : (written x).Ends := by
  cases x with
  | ok t => exact .inl ⟨t, rfl⟩
  | error e => exact .inr ⟨_, rfl, by simp⟩

/-- A recipe that fails with a text that is written first takes one course. -/
theorem sameCourse_fail_written {View : α → ν → Prop} {refs : List Key} {x : Except Numeral.Error Text}
    {error : Text → Error} (h : ∀ t, error t ≠ .unfinished) :
    SameCourse View refs (written x >>= fun t => .fail (error t)) (written x >>= fun t => .fail (error t)) := by
  cases x with
  | ok t => exact ⟨rfl, h t⟩
  | error e => exact ⟨rfl, by simp⟩

/-- Reading an integer asks for nothing. -/
theorem ends_integer (value : Json) : (integer value).Ends := by
  unfold integer
  split
  · exact .inl ⟨_, rfl⟩
  · exact .inr ⟨_, rfl, by simp⟩
  · exact .inr ⟨_, rfl, by simp⟩

/-- Reading the hash of a record asks for nothing. -/
theorem ends_recordedHash (fields : Json.Fields) : (recordedHash fields).Ends := by
  unfold recordedHash
  split
  · exact .inl ⟨_, rfl⟩
  · exact .inl ⟨_, rfl⟩
  · exact (ends_integer _).bind fun n => .inl ⟨_, rfl⟩

/-- Adding a segment asks for nothing. -/
theorem ends_childName (parent : Name) (segment : Except Name.Error Segment) (hash : Json) :
    (childName parent segment hash).Ends := by
  unfold childName
  split
  · exact .inl ⟨_, rfl⟩
  · exact .inr ⟨_, rfl, by simp⟩

/-- Neither does adding a number that a record gives. -/
theorem ends_numberedName (id : Text) (parent : Name) (hash value : Json) :
    (numberedName id parent hash value).Ends :=
  Ends.blaming ((ends_integer value).bind fun _ => ends_childName _ _ _) _ _

/-- Reading a natural number from a field asks for nothing. -/
theorem ends_natural (id key : Text) (record : Json) (refusal : Int → Term.NumberError) :
    (natural id key record refusal).Ends := by
  refine Ends.blaming (Ends.bind (ends_access _) fun value => (ends_integer value).bind fun _ => ?_) _ _
  split
  · exact .inr ⟨_, rfl, by simp⟩
  · exact .inl ⟨_, rfl⟩

/-- A field that is reached in a record is one of its fields. -/
theorem get?_of_field {key : Text} {record value : Json} (h : record.field key = .ok value) :
    Json.Fields.get? record.fields key = some value := by
  cases record with
  | object fields =>
    unfold Json.field at h
    cases hvalue : Json.Fields.get? fields key with
    | none => simp [hvalue] at h
    | some found => simpa [Json.fields, hvalue] using h
  | _ => cases h

/-- A field that must be there is read before the course goes on. -/
theorem sameCourse_field {View : β → ν → Prop} {refs : List Key} {key : Text} {record : Json}
    {f f' : Json → Recipe β}
    (hf : ∀ value, Json.Fields.get? record.fields key = some value →
      SameCourse View refs (f value) (f' value)) :
    SameCourse View refs (field key record >>= f) (field key record >>= f') := by
  unfold field
  cases h : record.field key with
  | error e => exact ⟨rfl, by simp⟩
  | ok value => exact hf value (get?_of_field h)

/-- A field that refers to a name asks for that name. -/
theorem sameCourse_named (key : Text) (record : Json) :
    SameCourse Eq (fieldKeys nameKeys key record.fields) (named key record) (named key record) :=
  sameCourse_field fun value hvalue =>
    ⟨rfl, [], by simp [fieldKeys, hvalue], fun n => ⟨rfl, n, rfl, rfl⟩⟩

/-- So does a field that may be missing, if it is there. -/
theorem sameCourse_optionalName (key : Text) (fields : Json.Fields) :
    SameCourse Eq (fieldKeys nameKeys key fields) (optionalName key fields)
      (optionalName key fields) := by
  refine ⟨rfl, [], ?_, fun n => ⟨rfl, n, rfl, rfl⟩⟩
  unfold fieldKeys
  cases fields.get? key <;> simp [nameKeys]

/-- A field that refers to a level asks for that level. -/
theorem sameCourse_operand (key : Text) (record : Json) :
    SameCourse Eq (fieldKeys levelKeys key record.fields) (operand key record)
      (operand key record) :=
  sameCourse_field fun value hvalue =>
    ⟨rfl, [], by simp [fieldKeys, hvalue], fun l => ⟨rfl, l, rfl, rfl⟩⟩

/-- Several references to levels are asked for in order. -/
theorem sameCourse_operands (refs : List Json) :
    SameCourse Eq (refs.flatMap levelKeys) (each (askLevel · .done) refs)
      (each (askLevel · .done) refs) := by
  induction refs with
  | nil => exact ⟨rfl, [], rfl, rfl⟩
  | cons ref rest ih =>
    refine ⟨rfl, rest.flatMap levelKeys, rfl, fun l => ?_⟩
    exact ih.map fun a b v ha hb => ⟨l :: v, by rw [ha], by rw [hb]⟩

/-- A term is viewed as its tree. -/
def IsTree (t tree : Term) : Prop :=
  t.tree = tree

/-- A term without its identity is viewed as the tree of the term, whatever its identity. -/
def MakesTree (make : NodeId → Term) (tree : Term) : Prop :=
  ∀ node, (make node).tree = tree

/-- A field that refers to a term asks for that term, of which only the tree is seen. -/
theorem sameCourse_child (key : Text) (record : Json) :
    SameCourse IsTree (fieldKeys exprKeys key record.fields) (child key record)
      (child key record) :=
  sameCourse_field fun value hvalue =>
    ⟨rfl, [], by simp [fieldKeys, hvalue], fun t t' ht => ⟨rfl, t.tree, rfl, ht.symm⟩⟩

/-- A name record asks for its parent. -/
theorem sameCourse_ofName (id : Text) (record : Json) :
    SameCourse Eq (nameReferences record.fields) (ofName id record) (ofName id record) := by
  cases record with
  | object fields =>
    rw [nameReferences, ← List.append_nil (fieldKeys _ _ _)]
    refine (sameCourse_optionalName "parent" fields).bind fun a b v ha hb => ?_
    rw [ha, hb]
    refine Ends.sameCourse ((ends_recordedHash fields).bind fun hash => ?_)
    split
    · exact ends_childName _ _ _
    · exact ends_numberedName _ _ _ _
    · split
      · exact .inr ⟨_, rfl, by simp⟩
      · exact .inl ⟨_, rfl⟩
  | _ => exact ⟨rfl, by simp⟩

/-- A level record asks for the levels and the name that its fields refer to. -/
theorem sameCourse_ofLevel (id : Text) (record : Json) :
    SameCourse Eq (levelReferences record.fields) (ofLevel id record) (ofLevel id record) := by
  refine sameCourse_field fun value hvalue => ?_
  unfold levelReferences
  rw [hvalue, Option.bind_some]
  cases LevelKind.ofJson? value with
  | none => exact sameCourse_fail_written fun _ => by simp
  | some kind =>
    cases kind with
    | zero => exact ⟨rfl, _, rfl, rfl⟩
    | succ => exact (sameCourse_operand "of" record).map fun a b v ha hb => ⟨_, rfl, by rw [ha, hb]⟩
    | max | imax =>
      exact (sameCourse_operand "lhs" record).bind fun a b v ha hb =>
        (sameCourse_operand "rhs" record).map fun a' b' v' ha' hb' =>
          ⟨_, rfl, by rw [ha, hb, ha', hb']⟩
    | param | metaVar =>
      exact (sameCourse_named "name" record).map fun a b v ha hb => ⟨_, rfl, by rw [ha, hb]⟩

/-- A term record asks for the terms, levels and names that its fields refer to. -/
theorem sameCourse_ofExpr (id : Text) (record : Json) :
    SameCourse MakesTree (exprReferences record.fields) (ofExpr id record) (ofExpr id record) := by
  refine sameCourse_field fun value hvalue => ?_
  unfold exprReferences
  rw [hvalue, Option.bind_some]
  cases ExprKind.ofJson? value with
  | none => exact sameCourse_fail_written fun _ => by simp
  | some kind =>
    cases kind with
    | boundVar | natural =>
      exact (ends_natural id _ record _).sameCourse.map fun a b v ha hb =>
        ⟨_, fun node => rfl, fun node => by rw [ha, hb]; rfl⟩
    | freeVar | metaVar =>
      exact (sameCourse_named "name" record).map fun a b v ha hb =>
        ⟨_, fun node => rfl, fun node => by rw [ha, hb]; rfl⟩
    | sort =>
      exact (sameCourse_operand "level" record).map fun a b v ha hb =>
        ⟨_, fun node => rfl, fun node => by rw [ha, hb]; rfl⟩
    | const =>
      simp only [Json.listed]
      cases ((Json.Fields.get? record.fields "levels").getD (.list [])).listed? with
      | none => exact ⟨rfl, by simp⟩
      | some refs =>
        exact (sameCourse_operands refs).bind fun a b v ha hb =>
          (sameCourse_named "name" record).map fun a' b' v' ha' hb' =>
            ⟨_, fun node => rfl, fun node => by rw [ha, hb, ha', hb']; rfl⟩
    | app =>
      exact (sameCourse_child "fn" record).bind fun a b v ha hb =>
        (sameCourse_child "arg" record).map fun a' b' v' ha' hb' =>
          ⟨.app 0 v v', fun node => by rw [Term.tree, ha, ha'], fun node => by rw [Term.tree, hb, hb']⟩
    | lambda =>
      exact (sameCourse_child "type" record).bind fun a b v ha hb =>
        (sameCourse_child "body" record).bind fun a' b' v' ha' hb' =>
          (sameCourse_optionalName "binder" record.fields).map fun m n w hm hn =>
            ⟨.lambda 0 v v' w, fun node => by rw [Term.tree, ha, ha', hm],
              fun node => by rw [Term.tree, hb, hb', hn]⟩
    | pi =>
      exact (sameCourse_child "type" record).bind fun a b v ha hb =>
        (sameCourse_child "body" record).bind fun a' b' v' ha' hb' =>
          (sameCourse_optionalName "binder" record.fields).map fun m n w hm hn =>
            ⟨.pi 0 v v' w, fun node => by rw [Term.tree, ha, ha', hm],
              fun node => by rw [Term.tree, hb, hb', hn]⟩
    | letIn =>
      exact (sameCourse_child "type" record).bind fun a b v ha hb =>
        (sameCourse_child "value" record).bind fun a' b' v' ha' hb' =>
          (sameCourse_child "body" record).bind fun a'' b'' v'' ha'' hb'' =>
            (sameCourse_optionalName "binder" record.fields).map fun m n w hm hn =>
              ⟨.letIn 0 v v' v'' w, fun node => by rw [Term.tree, ha, ha', ha'', hm],
                fun node => by rw [Term.tree, hb, hb', hb'', hn]⟩
    | text =>
      exact sameCourse_field fun value hvalue => (ends_written _).sameCourse.map fun a b v ha hb =>
        ⟨.text 0 v, fun node => by rw [Term.tree, ha], fun node => by rw [Term.tree, hb]⟩
    | annotated =>
      exact (ends_access _).sameCourse.bind fun d d' w hd hd' =>
        (sameCourse_child "expr" record).map fun a b v ha hb =>
          ⟨.annotated 0 v w.sort, fun node => by rw [Term.tree, ha, hd],
            fun node => by rw [Term.tree, hb, hd']⟩
    | proj =>
      exact (sameCourse_named "type_name" record).bind fun m n w hm hn =>
        sameCourse_field fun value hvalue =>
          (ends_integer value).sameCourse.bind fun i j k hi hj =>
            (sameCourse_child "struct" record).map fun a b v ha hb =>
              ⟨.proj 0 w k v, fun node => by rw [Term.tree, ha, hi, hm],
                fun node => by rw [Term.tree, hb, hj, hn]⟩

end Recipe

end TermText.Dump
