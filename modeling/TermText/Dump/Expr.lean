import TermText.Dump.Name

/-!
# Terms of a dump

Builds terms from their records. A chain of applications is walked down to its head first and folded
up again from there, so a long application needs no nesting; only its arguments do. Of the faults of an
application record only a missing field is reported as one of the record: a reference in it that has no
label is reported as it is, or as a fault of the record in which the application is met.
-/

namespace TermText.Dump

/-- The application record of an id. -/
def Tables.app? (tables : Tables) (id : Text) : Option Json := do
  let record ← Json.Fields.get? tables.exprs id
  let kind ← Json.Fields.get? record.fields "kind"
  if ExprKind.ofJson? kind = some .app then some record else none

/-- A record's field whose lack is a fault of the record. -/
def linkField (key id : Text) (record : Json) : Load Json :=
  Load.blaming (.blameRecord .exprs id) (Load.field key record)

/-- The application records from an id down to the head of the chain, the last one first, and the id of
the head; `chain` was passed already. The records bound the number of steps. -/
def walkChain (tables : Tables) :
    (bound : Nat) → (chain : List (Text × Json)) → (id : Text) → Load (List (Text × Json) × Text)
  | 0, _, _ => throw .unfinished
  | bound + 1, chain, id => do
    let s ← get
    match lookup? s.exprs id, tables.app? id with
    | none, some record =>
      if chain.any (·.1 = id) || s.isActive .exprs id then throw (.cyclic .exprs id)
      else do
        let fn ← linkField "fn" id record
        let next ← Load.written fn.label
        walkChain tables bound ((id, record) :: chain) next
    | _, _ => pure (chain, id)

/-- Applies a term to the argument of each record of a chain, the last record first. -/
def foldChain (tables : Tables) (resolve : Json → Load Term) (node : Term) :
    List (Text × Json) → Load Term
  | [] => pure node
  | (id, record) :: rest => do
    let ref ← linkField "arg" id record
    let arg ← resolve ref
    let app : Term := .app (← Load.fresh) node arg
    modify fun s => (tables.exprShelf.remember id app s).stop .exprs id
    foldChain tables resolve app rest

/-- The term of a chain of applications whose head and arguments are found by `resolve`. -/
def buildChain (tables : Tables) (resolve : Json → Load Term) (id : Text) : Load Term := do
  let (chain, head) ← walkChain tables (tables.exprs.length + 1) [] id
  Load.during .exprs (chain.reverse.map Prod.fst) do
    let node ← resolve (.text head)
    foldChain tables resolve node chain

/-- The bound variable or the literal of a record, made of the integer in one of its fields. -/
def buildNumber (id key : Text) (record : Json)
    (make : NodeId → Json → Except Term.NumberError Term) : Load Term :=
  Load.blaming (.blameNumber .exprs id) do
    let value ← Load.field key record
    let n ← Load.integer value
    match make (← get).next (.int n) with
    | .ok t => do
      let _ ← Load.fresh
      pure t
    | .error e => throw (.fault (.number e))

/-- The term of a record whose children are found by `resolve`. -/
def buildExpr (tables : Tables) (resolve : Json → Load Term) (id : Text) (record : Json) :
    Load Term := do
  let kind ← Load.field "kind" record
  let child (key : Text) : Load Term := do resolve (← Load.field key record)
  let named (key : Text) : Load Name := do name tables (← Load.field key record)
  let optional (key : Text) (default : Json) : Json :=
    (Json.Fields.get? record.fields key).getD default
  let binder : Load Name := name tables (optional "binder" .null)
  match ExprKind.ofJson? kind with
  | some .boundVar => buildNumber id "index" record Term.boundVarOf
  | some .freeVar => do
    let n ← named "name"
    pure (.freeVar (← Load.fresh) n)
  | some .metaVar => do
    let n ← named "name"
    pure (.metaVar (← Load.fresh) n)
  | some .sort => do
    let l ← level tables (← Load.field "level" record)
    pure (.sort (← Load.fresh) l)
  | some .const => do
    let refs ← Load.ofAccess (optional "levels" (.list [])).listed
    let levels ← Load.each (level tables) refs
    let n ← named "name"
    pure (.const (← Load.fresh) n levels)
  | some .app => do
    let fn ← child "fn"
    let arg ← child "arg"
    pure (.app (← Load.fresh) fn arg)
  | some .lambda => do
    let type ← child "type"
    let body ← child "body"
    let n ← binder
    pure (.lambda (← Load.fresh) type body n)
  | some .pi => do
    let type ← child "type"
    let body ← child "body"
    let n ← binder
    pure (.pi (← Load.fresh) type body n)
  | some .letIn => do
    let type ← child "type"
    let value ← child "value"
    let body ← child "body"
    let n ← binder
    pure (.letIn (← Load.fresh) type value body n)
  | some .natural => buildNumber id "value" record Term.naturalOf
  | some .text => do
    let value ← Load.field "value" record
    let text ← Load.written value.label
    pure (.text (← Load.fresh) text)
  | some .annotated => do
    let data ← Load.ofAccess ((optional "data" (.object [])).fieldsFor "items")
    let inner ← child "expr"
    pure (.annotated (← Load.fresh) inner data.sort)
  | some .proj => do
    let n ← named "type_name"
    let index ← Load.integer (← Load.field "index" record)
    let struct ← child "struct"
    pure (.proj (← Load.fresh) n index struct)
  | none => do
    let shown ← Load.written kind.describe
    throw (.unknownKind .exprs id shown)

/-- The term that a reference stands for, parts of it being found by `resolve`. An application that
was not built before is built along its chain. -/
def exprStep (tables : Tables) (resolve : Json → Load Term) (ref : Json) : Load Term := do
  let id ← Load.written ref.label
  let s ← get
  match lookup? s.exprs id, tables.app? id with
  | none, some _ => buildChain tables resolve id
  | _, _ => Load.resolve tables.exprShelf (buildExpr tables resolve) id

/-- The term that a reference stands for, within a bound on the nesting. -/
def exprWithin (tables : Tables) : Nat → Json → Load Term
  | 0, _ => throw .unfinished
  | bound + 1, ref => exprStep tables (exprWithin tables bound) ref

/-- The term that a reference stands for. -/
def expr (tables : Tables) (ref : Json) : Load Term :=
  exprWithin tables (tables.exprs.length + 1) ref

end TermText.Dump
