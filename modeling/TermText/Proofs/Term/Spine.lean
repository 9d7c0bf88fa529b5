import TermText.Proofs.Term.Tree

/-!
# Applications and their spines

A term is applied to arguments from the first to the last, and its spine is collected from the last to
the first. The two are inverse. What is built has the spine of the function with the arguments behind
it, and a term is built anew from its spine: new applications lead from the same head to the same
arguments. Of all pairs whose head is no application, the spine is the only one for which this holds.

An annotated term is a head, whatever it annotates. Equal terms are the same nodes, so that an equation
between heads or between arguments speaks of objects and not only of their structure.
-/

namespace TermText.Term

/-- Whether the node at the root is an application; annotations are not looked through. -/
def isApp : Term → Bool
  | .app .. => true
  | _ => false

section Spine

/-- Arguments behind others come last in a spine. -/
theorem spineOnto_append (t : Term) (args more : List Term) :
    t.spineOnto (args ++ more) = ((t.spineOnto args).1, (t.spineOnto args).2 ++ more) := by
  fun_induction spineOnto t args with
  | case1 id fn arg args ih => exact ih
  | case2 t args happ =>
    cases t with
    | app id fn arg => exact absurd rfl (happ id fn arg)
    | _ => rfl

/-- An application has one argument more than its function. -/
theorem spine_app (id : NodeId) (fn arg : Term) :
    (Term.app id fn arg).spine = (fn.spine.1, fn.spine.2 ++ [arg]) :=
  fn.spineOnto_append [] [arg]

/-- What is no application is a head without arguments. -/
theorem spine_of_not_isApp {t : Term} (h : t.isApp = false) : t.spine = (t, []) := by
  cases t with
  | app id fn arg => cases h
  | _ => rfl

/-- The head of a spine is no application. -/
theorem isApp_spine (t : Term) : t.spine.1.isApp = false := by
  induction t with
  | app id fn arg ih =>
    rw [spine_app]
    exact ih
  | _ => rfl

/-- Arguments that a term is applied to come behind its own. -/
theorem spine_applyAll (next : NodeId) (fn : Term) (args : List Term) :
    (fn.applyAll next args).spine = (fn.spine.1, fn.spine.2 ++ args) := by
  induction args generalizing next fn with
  | nil => rw [applyAll, List.append_nil]
  | cons arg rest ih => rw [applyAll, ih, spine_app, List.append_assoc, List.singleton_append]

/-- A head with arguments has these as its spine. -/
theorem spine_applyAll_of_not_isApp {head : Term} (h : head.isApp = false) (next : NodeId)
    (args : List Term) : (head.applyAll next args).spine = (head, args) := by
  rw [spine_applyAll, spine_of_not_isApp h, List.nil_append]

end Spine

section Rebuilding

/-- The last argument is applied outermost. -/
theorem applyAll_concat (next : NodeId) (fn : Term) (args : List Term) (last : Term) :
    fn.applyAll next (args ++ [last]) = .app (next + args.length) (fn.applyAll next args) last := by
  induction args generalizing next fn with
  | nil => rfl
  | cons arg rest ih =>
    rw [List.cons_append, applyAll, ih, applyAll, List.length_cons, Nat.add_right_comm, Nat.add_assoc]

/-- Two terms that differ at most in the identities of the applications on the way to their head. The
head and every argument of one are those of the other. -/
inductive AppliesAlike : Term → Term → Prop where
  | same (t : Term) : AppliesAlike t t
  | app {fn fn' : Term} (id id' : NodeId) (arg : Term) (alike : AppliesAlike fn fn') :
    AppliesAlike (.app id fn arg) (.app id' fn' arg)

variable {t u : Term}

/-- Terms that apply alike have one spine. -/
theorem AppliesAlike.spine_eq (h : AppliesAlike t u) : t.spine = u.spine := by
  induction h with
  | same t => rfl
  | app id id' arg alike ih => rw [spine_app, spine_app, ih]

/-- Terms that apply alike are one tree. -/
theorem AppliesAlike.tree_eq (h : AppliesAlike t u) : t.tree = u.tree := by
  induction h with
  | same t => rfl
  | app id id' arg alike ih => rw [tree, tree, ih]

/-- A term is built anew from its spine. -/
theorem appliesAlike_applyAll_spine (next : NodeId) (t : Term) :
    AppliesAlike (t.spine.1.applyAll next t.spine.2) t := by
  induction t with
  | app id fn arg ih =>
    rw [spine_app, applyAll_concat]
    exact .app _ id arg ih
  | _ => exact .same _

/-- A head and arguments are the spine of a term exactly if the term is built from them. -/
theorem spine_eq_iff (next : NodeId) (t head : Term) (args : List Term) :
    t.spine = (head, args) ↔
      head.isApp = false ∧ AppliesAlike (head.applyAll next args) t := by
  constructor
  · intro h
    have hhead := t.isApp_spine
    have hbuilt := appliesAlike_applyAll_spine next t
    rw [h] at hhead hbuilt
    exact ⟨hhead, hbuilt⟩
  · intro ⟨hhead, hbuilt⟩
    rw [← hbuilt.spine_eq, spine_applyAll_of_not_isApp hhead]

end Rebuilding

section Trees

/-- A tree is an application if the term is one. -/
theorem isApp_tree (t : Term) : t.tree.isApp = t.isApp := by
  cases t <;> rfl

/-- The spine of a tree holds the trees of the head and of the arguments. -/
theorem spine_tree (t : Term) : t.tree.spine = (t.spine.1.tree, t.spine.2.map tree) := by
  induction t with
  | app id fn arg ih => rw [tree, spine_app, spine_app, ih, List.map_append, List.map_singleton]
  | _ => rfl

/-- The tree of a term with arguments is made of trees. -/
theorem tree_applyAll (next : NodeId) (fn : Term) (args : List Term) :
    (fn.applyAll next args).tree = (args.map tree).foldl (.app 0) fn.tree := by
  induction args generalizing next fn with
  | nil => rfl
  | cons arg rest ih =>
    rw [applyAll, ih]
    rfl

/-- A head and arguments build a term up to identities exactly if they are its spine up to identities. -/
theorem tree_applyAll_eq_iff (next : NodeId) (t head : Term) (args : List Term) :
    head.isApp = false ∧ (head.applyAll next args).tree = t.tree ↔
      head.tree = t.spine.1.tree ∧ args.map tree = t.spine.2.map tree := by
  constructor
  · intro ⟨hhead, hbuilt⟩
    have hspine := congrArg spine hbuilt
    rw [spine_tree, spine_tree, spine_applyAll_of_not_isApp hhead] at hspine
    exact Prod.mk.inj hspine
  · intro ⟨hhead, hargs⟩
    have hbuilt := (appliesAlike_applyAll_spine next t).tree_eq
    refine ⟨?_, ?_⟩
    · rw [← isApp_tree, hhead, isApp_tree, isApp_spine]
    · rw [tree_applyAll, hhead, hargs, ← tree_applyAll next, hbuilt]

end Trees

/-- Building applications and splitting them are inverse. What is built has the spine of the function
with the arguments behind it. A spine has a head that is no application, and the term is built anew
from it, of one structure and with the same head and arguments. No other pair does this, and a pair
that gives the structure alone is the spine up to identities. Annotations are not looked through. -/
theorem spine_inverts_applyAll (next : NodeId) (t : Term) :
    (∀ args, (t.applyAll next args).spine = (t.spine.1, t.spine.2 ++ args)) ∧
      t.spine.1.isApp = false ∧
      AppliesAlike (t.spine.1.applyAll next t.spine.2) t ∧
      (t.spine.1.applyAll next t.spine.2).tree = t.tree ∧
      (∀ (head : Term) (args : List Term), t.spine = (head, args) ↔
        head.isApp = false ∧ AppliesAlike (head.applyAll next args) t) ∧
      (∀ (head : Term) (args : List Term),
        head.isApp = false ∧ (head.applyAll next args).tree = t.tree ↔
          head.tree = t.spine.1.tree ∧ args.map tree = t.spine.2.map tree) ∧
      ∀ id data args,
        ((annotated id t data).applyAll next args).spine = (annotated id t data, args) := by
  have hbuilt := appliesAlike_applyAll_spine next t
  refine ⟨fun args => spine_applyAll next t args, t.isApp_spine, hbuilt, hbuilt.tree_eq, ?_, ?_, ?_⟩
  · intro head args
    exact spine_eq_iff next t head args
  · intro head args
    exact tree_applyAll_eq_iff next t head args
  · intro id data args
    exact spine_applyAll_of_not_isApp rfl next args

/-- A partial application behind an annotation is a head. -/
example (f a b : Term) :
    (Term.app 3 (.annotated 2 (.app 1 f a) []) b).spine = (.annotated 2 (.app 1 f a) [], [b]) :=
  rfl

end TermText.Term
