import TermText.Declaration.Basic

/-!
# Terms written out as trees

A term without the identities of its nodes: every node carries the identity zero, so two terms have
one tree exactly if they are alike up to sharing. Declarations are written out term by term.
-/

namespace TermText

namespace Term

/-- The term as a tree, whose nodes all carry the identity zero. -/
def tree : Term → Term
  | .boundVar _ index => .boundVar 0 index
  | .freeVar _ name => .freeVar 0 name
  | .metaVar _ name => .metaVar 0 name
  | .sort _ level => .sort 0 level
  | .const _ name levels => .const 0 name levels
  | .app _ fn arg => .app 0 fn.tree arg.tree
  | .lambda _ type body binder => .lambda 0 type.tree body.tree binder
  | .pi _ type body binder => .pi 0 type.tree body.tree binder
  | .letIn _ type value body binder => .letIn 0 type.tree value.tree body.tree binder
  | .natural _ value => .natural 0 value
  | .text _ value => .text 0 value
  | .annotated _ inner data => .annotated 0 inner.tree data
  | .proj _ typeName index struct => .proj 0 typeName index struct.tree
  | .document _ value => .document 0 value
  | .unwritable _ error => .unwritable 0 error
  | .unwritableProj _ typeName error struct => .unwritableProj 0 typeName error struct.tree
  | .foreign _ f => .foreign 0 f

/-- A tree is its own tree. -/
@[simp] theorem tree_tree (t : Term) : t.tree.tree = t.tree := by
  induction t <;> simp_all [tree]

end Term

namespace Declaration

mutual

/-- The declaration with all its terms written out as trees. -/
def tree : Declaration → Declaration
  | .mk name type payload => .mk name type.tree (payloadTree payload)

/-- The payload with all its terms written out as trees. -/
def payloadTree : Payload → Payload
  | .assumption => .assumption
  | .definition value => .definition value.tree
  | .proof value => .proof value.tree
  | .sealed value => .sealed value.tree
  | .quotient kind typeName => .quotient kind typeName
  | .family constructors => .family (treeAll constructors)
  | .constructor owner => .constructor owner
  | .eliminator => .eliminator
  | .foreign f => .foreign f

/-- Several declarations with all their terms written out as trees. -/
def treeAll : List Declaration → List Declaration
  | [] => []
  | d :: rest => tree d :: treeAll rest

end

end Declaration

/-- The module with all its terms written out as trees. -/
def Module.tree (m : Module) : Module :=
  ⟨m.name, Declaration.treeAll m.declarations⟩

end TermText
