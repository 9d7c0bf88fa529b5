import TermText.Proofs.Dump.Step

/-!
# Recipes

What building an object asks of the tables, separated from how references are resolved. A recipe
asks for names, levels and terms one after another and ends in an object or in an error; a loader
answers its requests. The steps that build names, levels, terms and declarations are recipes run by
the loader of the tables, so what holds of every recipe holds of each of these steps.

A term record ends in a term without its identity. The identity is allotted last, after all parts of
the term were found.
-/

namespace TermText.Dump

/-- What building an object asks for, one request after another, and how it ends. -/
inductive Recipe (α : Type) where
  | done (a : α)
  | fail (e : Error)
  | askName (ref : Json) (next : Name → Recipe α)
  | askLevel (ref : Json) (next : Level → Recipe α)
  | askExpr (ref : Json) (next : Term → Recipe α)

/-- How references to the three tables are resolved. -/
structure Loader where
  name : Json → Load Name
  level : Json → Load Level
  expr : Json → Load Term

/-- References resolved by the tables. -/
def Tables.loader (tables : Tables) : Loader :=
  ⟨Dump.name tables, Dump.level tables, Dump.expr tables⟩

namespace Recipe

variable {α β : Type}

/-- A recipe continued by what another one makes of its object. -/
def bind : Recipe α → (α → Recipe β) → Recipe β
  | .done a, f => f a
  | .fail e, _ => .fail e
  | .askName ref next, f => .askName ref fun n => (next n).bind f
  | .askLevel ref next, f => .askLevel ref fun l => (next l).bind f
  | .askExpr ref next, f => .askExpr ref fun t => (next t).bind f

/-- Recipes are carried out one after another. -/
instance : Monad Recipe where
  pure := .done
  bind := bind

/-- To give a result is to be done. -/
@[simp] theorem pure_eq_done (a : α) : (pure a : Recipe α) = .done a := rfl

/-- What comes after a recipe that is done gets its result. -/
@[simp] theorem done_bind (a : α) (f : α → Recipe β) : (done a >>= f) = f a := rfl

/-- Nothing comes after a recipe that fails. -/
@[simp] theorem fail_bind (e : Error) (f : α → Recipe β) : (fail e >>= f) = fail e := rfl

/-- What comes after a request for a level comes after what is made of the level. -/
@[simp] theorem askLevel_bind (ref : Json) (next : Level → Recipe α) (f : α → Recipe β) :
    (askLevel ref next >>= f) = askLevel ref fun l => next l >>= f := rfl

/-- A recipe for each value in order. -/
def each (step : Json → Recipe α) : List Json → Recipe (List α)
  | [] => .done []
  | value :: rest => do
    let x ← step value
    let xs ← each step rest
    return x :: xs

/-- The errors of a recipe changed; the errors of its requests are left. -/
def blaming (blame : Error → Error) : Recipe α → Recipe α
  | .done a => .done a
  | .fail e => .fail (blame e)
  | .askName ref next => .askName ref fun n => (next n).blaming blame
  | .askLevel ref next => .askLevel ref fun l => (next l).blaming blame
  | .askExpr ref next => .askExpr ref fun t => (next t).blaming blame

/-- A recipe whose requests are answered by a loader. -/
def run (loader : Loader) : Recipe α → Load α
  | .done a => pure a
  | .fail e => throw e
  | .askName ref next => do (next (← loader.name ref)).run loader
  | .askLevel ref next => do (next (← loader.level ref)).run loader
  | .askExpr ref next => do (next (← loader.expr ref)).run loader

/-- A recipe that is done is run by giving its result. -/
@[simp] theorem run_done (loader : Loader) (a : α) : (done a).run loader = pure a := rfl

/-- A recipe that fails is run by failing. -/
@[simp] theorem run_fail (loader : Loader) (e : Error) :
    (fail e : Recipe α).run loader = throw e := rfl

/-- Running a continued recipe runs its two parts one after another. -/
@[simp] theorem run_bind (loader : Loader) (r : Recipe α) (f : α → Recipe β) :
    (r >>= f).run loader = r.run loader >>= fun a => (f a).run loader := by
  change (r.bind f).run loader = _
  induction r with
  | done a => simp [bind]
  | fail e => rfl
  | askName ref next ih => simp only [bind, run, ih, bind_assoc]
  | askLevel ref next ih => simp only [bind, run, ih, bind_assoc]
  | askExpr ref next ih => simp only [bind, run, ih, bind_assoc]

/-- Recipes for several values are run one after another. -/
theorem run_each (loader : Loader) (step : Json → Recipe α) (values : List Json) :
    (each step values).run loader = Load.each (fun value => (step value).run loader) values := by
  induction values with
  | nil => rfl
  | cons value rest ih => simp [each, Load.each, ih]

/-- A value that is reached in a record, or the fault of not reaching it. -/
def access : Except Json.AccessError α → Recipe α
  | .ok a => .done a
  | .error e => .fail (.fault (.access e))

/-- The text of a value, or the fault that a number in it is not written. -/
def written : Except Numeral.Error Text → Recipe Text
  | .ok t => .done t
  | .error e => .fail (.fault (.numeral e))

/-- The field of a record that must be there. -/
def field (key : Text) (record : Json) : Recipe Json :=
  access (record.field key)

/-- The integer that a value gives. -/
def integer (value : Json) : Recipe Int :=
  match value.integer with
  | .ok n => .done n
  | .error (.truncation .infinite) => .fail .infinite
  | .error e => .fail (.fault (.integer e))

/-- The hash that a name record gives; null if it gives none. -/
def recordedHash (fields : Json.Fields) : Recipe Json :=
  match fields.get? "hash" with
  | none | some .null => .done .null
  | some value => do return .int (← integer value)

/-- The name one segment longer, where the segment was read from a record. -/
def childName (parent : Name) (segment : Except Name.Error Segment) (hash : Json) : Recipe Name :=
  match segment.bind fun s => Name.childOrError parent s hash with
  | .ok n => .done n
  | .error e => .fail (.fault (.segment e))

/-- Reaching into a value is run as it is in a session. -/
@[simp] theorem run_access (loader : Loader) (x : Except Json.AccessError α) :
    (access x).run loader = Load.ofAccess x := by
  cases x <;> rfl

/-- So is writing a text. -/
@[simp] theorem run_written (loader : Loader) (x : Except Numeral.Error Text) :
    (written x).run loader = Load.written x := by
  cases x <;> rfl

/-- So is reading a field. -/
@[simp] theorem run_field (loader : Loader) (key : Text) (record : Json) :
    (field key record).run loader = Load.field key record :=
  run_access loader _

/-- So is reading an integer. -/
@[simp] theorem run_integer (loader : Loader) (value : Json) :
    (integer value).run loader = Load.integer value := by
  unfold integer Load.integer
  cases value.integer with
  | ok n => rfl
  | error e => split <;> simp_all

/-- So is reading the hash of a record. -/
@[simp] theorem run_recordedHash (loader : Loader) (fields : Json.Fields) :
    (recordedHash fields).run loader = Dump.recordedHash fields := by
  unfold recordedHash Dump.recordedHash
  cases fields.get? "hash" with
  | none => rfl
  | some value => cases value <;> simp

/-- So is adding a segment to a name. -/
@[simp] theorem run_childName (loader : Loader) (parent : Name) (segment : Except Name.Error Segment)
    (hash : Json) : (childName parent segment hash).run loader = Dump.childName parent segment hash := by
  unfold childName Dump.childName
  cases segment.bind fun s => Name.childOrError parent s hash <;> rfl

/-- The numbered name of a record, a bad number being reported as such. -/
def numberedName (id : Text) (parent : Name) (hash value : Json) : Recipe Name :=
  blaming (.blameNumber .names id) do
    childName parent (Name.numberSegment (.int (← integer value))) hash

/-- Reading a numbered name needs no request. -/
theorem run_numberedName (loader : Loader) (id : Text) (parent : Name) (hash value : Json) :
    (numberedName id parent hash value).run loader =
      Load.blaming (.blameNumber .names id) (do
        let n ← Load.integer value
        Dump.childName parent (Name.numberSegment (.int n)) hash) := by
  unfold numberedName integer Load.integer
  cases value.integer with
  | error e => split <;> simp_all <;> rfl
  | ok n =>
    change (blaming _ (childName _ _ _)).run loader = Load.blaming _ (Dump.childName _ _ _)
    unfold childName Dump.childName
    cases (Name.numberSegment (.int n)).bind fun s => Name.childOrError parent s hash <;> rfl

/-- The name that a field refers to. -/
def named (key : Text) (record : Json) : Recipe Name := do
  askName (← field key record) .done

/-- The name that a field refers to, which may be left out. -/
def optionalName (key : Text) (fields : Json.Fields) : Recipe Name :=
  askName ((fields.get? key).getD .null) .done

/-- The level that a field refers to. -/
def operand (key : Text) (record : Json) : Recipe Level := do
  askLevel (← field key record) .done

/-- The term that a field refers to. -/
def child (key : Text) (record : Json) : Recipe Term := do
  askExpr (← field key record) .done

/-- The recipe of a name record. -/
def ofName (id : Text) (record : Json) : Recipe Name := do
  let fields ← access (record.fieldsFor "get")
  let parent ← optionalName "parent" fields
  let hash ← recordedHash fields
  match fields.get? "str", fields.get? "num" with
  | some value, _ => childName parent (Name.textSegment value) hash
  | none, some value => numberedName id parent hash value
  | none, none =>
    if (fields.get? "parent").isSome then .fail (.noSegment id) else .done .anonymous

/-- The recipe of a level record. -/
def ofLevel (id : Text) (record : Json) : Recipe Level := do
  let kind ← field "kind" record
  match LevelKind.ofJson? kind with
  | some .zero => return .zero
  | some .succ => return .succ (← operand "of" record)
  | some .max => return .max (← operand "lhs" record) (← operand "rhs" record)
  | some .imax => return .imax (← operand "lhs" record) (← operand "rhs" record)
  | some .param => return .param (← named "name" record)
  | some .metaVar => return .metaVar (← named "name" record)
  | none => do
    let shown ← written kind.describe
    .fail (.unknownKind .levels id shown)

/-- The natural number that a field gives, a bad number being reported as such. -/
def natural (id key : Text) (record : Json) (refusal : Int → Term.NumberError) : Recipe Nat :=
  blaming (.blameNumber .exprs id) do
    let n ← integer (← field key record)
    if n < 0 then .fail (.fault (.number (refusal n))) else .done n.toNat

/-- The recipe of a term record. -/
def ofExpr (id : Text) (record : Json) : Recipe (NodeId → Term) := do
  let kind ← field "kind" record
  match ExprKind.ofJson? kind with
  | some .boundVar => do
    let index ← natural id "index" record fun _ => .negativeIndex
    return (.boundVar · index)
  | some .freeVar => do
    let n ← named "name" record
    return (.freeVar · n)
  | some .metaVar => do
    let n ← named "name" record
    return (.metaVar · n)
  | some .sort => do
    let l ← operand "level" record
    return (.sort · l)
  | some .const => do
    let refs ← access ((Json.Fields.get? record.fields "levels").getD (.list [])).listed
    let levels ← each (askLevel · .done) refs
    let n ← named "name" record
    return (.const · n levels)
  | some .app => do
    let fn ← child "fn" record
    let arg ← child "arg" record
    return (.app · fn arg)
  | some .lambda => do
    let type ← child "type" record
    let body ← child "body" record
    let n ← optionalName "binder" record.fields
    return (.lambda · type body n)
  | some .pi => do
    let type ← child "type" record
    let body ← child "body" record
    let n ← optionalName "binder" record.fields
    return (.pi · type body n)
  | some .letIn => do
    let type ← child "type" record
    let value ← child "value" record
    let body ← child "body" record
    let n ← optionalName "binder" record.fields
    return (.letIn · type value body n)
  | some .natural => do
    let value ← natural id "value" record fun n => .notNatural (.int n)
    return (.natural · value)
  | some .text => do
    let value ← field "value" record
    let text ← written value.label
    return (.text · text)
  | some .annotated => do
    let data ← access (((Json.Fields.get? record.fields "data").getD (.object [])).fieldsFor "items")
    let inner ← child "expr" record
    return (.annotated · inner data.sort)
  | some .proj => do
    let n ← named "type_name" record
    let index ← integer (← field "index" record)
    let struct ← child "struct" record
    return (.proj · n index struct)
  | none => do
    let shown ← written kind.describe
    .fail (.unknownKind .exprs id shown)

end Recipe

/-- A term record's term, given the identity of a new node. -/
def allot (make : NodeId → Term) : Load Term := do
  return make (← Load.fresh)

/-- Building a name runs the recipe of its record. -/
theorem buildName_eq_run (loader : Loader) (id : Text) (record : Json) :
    buildName loader.name id record = (Recipe.ofName id record).run loader := by
  unfold buildName Recipe.ofName
  simp only [Recipe.run_bind, Recipe.run_access, Recipe.optionalName, Recipe.run,
    Recipe.run_recordedHash, bind_pure]
  congr 1
  funext fields
  congr 1
  funext parent
  congr 1
  funext hash
  cases fields.get? "str" with
  | some value => simp
  | none =>
    cases fields.get? "num" with
    | some value => exact (Recipe.run_numberedName loader id parent hash value).symm
    | none => cases (fields.get? "parent").isSome <;> rfl

/-- Building a level runs the recipe of its record. -/
theorem buildLevel_eq_run (tables : Tables) (resolve : Json → Load Level) (expr : Json → Load Term)
    (id : Text) (record : Json) :
    buildLevel tables resolve id record =
      (Recipe.ofLevel id record).run ⟨name tables, resolve, expr⟩ := by
  unfold buildLevel Recipe.ofLevel
  simp only [Recipe.run_bind, Recipe.run_field]
  congr 1
  funext kind
  cases LevelKind.ofJson? kind with
  | none => cases kind.describe <;> rfl
  | some kind => cases kind <;> simp [Recipe.named, Recipe.operand, Recipe.run]

/-- An integer that does not lie below zero makes a node, any other one is refused. -/
theorem ofMagnitude_int (node : NodeId) (make : Nat → Term) (refusal : Term.NumberError) (n : Int) :
    Term.ofMagnitude node make refusal (.int n) =
      if n < 0 then .error refusal else .ok (make n.toNat) := by
  by_cases h : n < 0 <;> simp [Term.ofMagnitude, Json.isBelowZero, Json.integer, h]

/-- Building a bound variable or a literal runs its recipe and allots an identity. -/
theorem buildNumber_eq_run (loader : Loader) (id key : Text) (record : Json)
    (given : NodeId → Json → Except Term.NumberError Term) {make : NodeId → Nat → Term}
    {refusal : Int → Term.NumberError}
    (hgiven : ∀ node n, given node (.int n) =
      if n < 0 then .error (refusal n) else .ok (make node n.toNat)) :
    buildNumber id key record given = (do
      let n ← (Recipe.natural id key record refusal).run loader
      allot (make · n)) := by
  unfold buildNumber Recipe.natural Load.field Recipe.field
  cases record.field key with
  | error e => rfl
  | ok value =>
    change Load.blaming _ (Load.integer value >>= _) =
      (Recipe.blaming _ (Recipe.integer value >>= _)).run loader >>= _
    unfold Load.integer Recipe.integer
    cases value.integer with
    | error e => split <;> simp_all <;> rfl
    | ok n =>
      funext s
      have hmake := hgiven s.next n
      by_cases hn : n < 0
      · rw [if_pos hn] at hmake
        simp [hmake, hn, Recipe.blaming]
      · rw [if_neg hn] at hmake
        simp [hmake, hn, Recipe.blaming, allot]

/-- Building a term runs the recipe of its record and allots an identity. -/
theorem buildExpr_eq_run (tables : Tables) (resolve : Json → Load Term) (id : Text) (record : Json) :
    buildExpr tables resolve id record =
      (Recipe.ofExpr id record).run ⟨name tables, level tables, resolve⟩ >>= allot := by
  unfold buildExpr Recipe.ofExpr
  simp only [Recipe.run_bind, Recipe.run_field, bind_assoc]
  congr 1
  funext kind
  cases ExprKind.ofJson? kind with
  | none => cases kind.describe <;> rfl
  | some kind =>
    cases kind with
    | boundVar =>
      simpa using buildNumber_eq_run _ id "index" record Term.boundVarOf fun node n =>
        ofMagnitude_int node (.boundVar node) .negativeIndex n
    | natural =>
      simpa using buildNumber_eq_run _ id "value" record Term.naturalOf fun node n =>
        ofMagnitude_int node (.natural node) (.notNatural (.int n)) n
    | _ => simp [Recipe.named, Recipe.optionalName, Recipe.operand, Recipe.child, Recipe.run,
        Recipe.run_each, allot]

end TermText.Dump
