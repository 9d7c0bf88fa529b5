import TermText.Level

/-!
# Terms

Terms of a dependent type theory as an elaborator hands them over. Every node carries an identity:
two occurrences of one identity are the same object, and a term is thereby a graph whose shared
parts are written out wherever they occur.
-/

namespace TermText

/-- The identity of a node. -/
abbrev NodeId := Nat

/-- A term. Bound variables count binders outward; binder names and annotations carry no meaning. A
host may give other values for what a node holds: `document` is a literal with any value in the
place of a text, `unwritable` a bound variable or a literal and `unwritableProj` a projection with a
number that cannot be written. -/
inductive Term where
  | boundVar (id : NodeId) (index : Nat)
  | freeVar (id : NodeId) (name : Name)
  | metaVar (id : NodeId) (name : Name)
  | sort (id : NodeId) (level : Level)
  | const (id : NodeId) (name : Name) (levels : List Level)
  | app (id : NodeId) (fn arg : Term)
  | lambda (id : NodeId) (type body : Term) (binder : Name)
  | pi (id : NodeId) (type body : Term) (binder : Name)
  | letIn (id : NodeId) (type value body : Term) (binder : Name)
  | natural (id : NodeId) (value : Nat)
  | text (id : NodeId) (value : Text)
  | annotated (id : NodeId) (inner : Term) (data : List (Text × Json))
  | proj (id : NodeId) (typeName : Name) (index : Int) (struct : Term)
  | document (id : NodeId) (value : Json)
  | unwritable (id : NodeId) (error : Json.IntegerError)
  | unwritableProj (id : NodeId) (typeName : Name) (error : Json.IntegerError) (struct : Term)
  | foreign (id : NodeId) (f : Foreign)

namespace Term

/-- The identity of the node at the root. -/
def id : Term → NodeId
  | .boundVar id _ | .freeVar id _ | .metaVar id _ | .sort id _ | .const id _ _ | .app id _ _
  | .lambda id _ _ _ | .pi id _ _ _ | .letIn id _ _ _ _ | .natural id _ | .text id _
  | .annotated id _ _ | .proj id _ _ _ | .document id _ | .unwritable id _
  | .unwritableProj id _ _ _ | .foreign id _ => id

/-- A term of the model without children. -/
def isLeaf : Term → Bool
  | .boundVar .. | .freeVar .. | .metaVar .. | .sort .. | .const .. | .natural .. | .text ..
  | .document .. | .unwritable .. => true
  | _ => false

/-- The children from left to right. -/
def children : Term → List Term
  | .app _ fn arg => [fn, arg]
  | .lambda _ type body _ => [type, body]
  | .pi _ type body _ => [type, body]
  | .letIn _ type value body _ => [type, value, body]
  | .annotated _ inner _ => [inner]
  | .proj _ _ _ struct => [struct]
  | .unwritableProj _ _ _ struct => [struct]
  | _ => []

/-- The number of nodes of a term written out as a tree. -/
def size : Term → Nat
  | .app _ fn arg => fn.size + arg.size + 1
  | .lambda _ type body _ => type.size + body.size + 1
  | .pi _ type body _ => type.size + body.size + 1
  | .letIn _ type value body _ => type.size + value.size + body.size + 1
  | .annotated _ inner _ => inner.size + 1
  | .proj _ _ _ struct => struct.size + 1
  | .unwritableProj _ _ _ struct => struct.size + 1
  | _ => 1

/-- The application of a term to arguments, one after another; the new nodes are numbered from
`next` on. -/
def applyAll (next : NodeId) (fn : Term) : List Term → Term
  | [] => fn
  | arg :: rest => applyAll (next + 1) (.app next fn arg) rest

/-- The head of an application and its arguments in order, in front of further arguments. -/
def spineOnto : Term → List Term → Term × List Term
  | .app _ fn arg, args => spineOnto fn (arg :: args)
  | t, args => (t, args)

/-- The head of an application and its arguments in order. -/
def spine (t : Term) : Term × List Term :=
  t.spineOnto []

/-- The head and the arguments of an application, with the annotations around it and around its
partial applications removed, in front of further arguments. -/
def bareSpineOnto : Term → List Term → Term × List Term
  | .app _ fn arg, args => bareSpineOnto fn (arg :: args)
  | .annotated _ inner _, args => bareSpineOnto inner args
  | t, args => (t, args)

end Term

end TermText
