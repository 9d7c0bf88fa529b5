import TermText.Fingerprint
import TermText.Proofs.Term.Invariant
import TermText.Proofs.Term.Tree

/-!
# Encodings do not tell what is shared

Terms are encoded node by node whatever identities the nodes carry, so a term and its tree have one
encoding, or fail alike. The same holds for declarations, modules and fingerprints.
-/

namespace TermText

namespace Term

/-- The head and the arguments of a tree are trees. -/
theorem bareSpineOnto_tree (t : Term) (args : List Term) :
    t.tree.bareSpineOnto (args.map tree) =
      ((t.bareSpineOnto args).1.tree, (t.bareSpineOnto args).2.map tree) := by
  fun_induction bareSpineOnto t args with
  | case1 id fn arg args ih => exact ih
  | case2 id inner data args ih => exact ih
  | case3 t args happ hannotated =>
    cases t with
    | app id fn arg => exact absurd rfl (happ id fn arg)
    | annotated id inner data => exact absurd rfl (hannotated id inner data)
    | _ => rfl

/-- A term is encoded as its tree is. -/
theorem encode_tree (t : Term) : t.tree.encode = t.encode := by
  -- The induction follows the encoding, which enters the arguments of an application and not its function.
  induction t using encode.induct with
  | case6 id fn arg parts ihhead ihargs =>
    have hparts : fn.tree.bareSpineOnto [arg.tree] = (parts.1.tree, parts.2.map tree) :=
      bareSpineOnto_tree fn [arg]
    have hargs : (parts.2.map tree).map encode = parts.2.map encode := by
      rw [List.map_map]
      exact List.map_congr_left ihargs
    rw [tree, encode_app, encode_app, hparts, ihhead, hargs]
  | case7 id type body binder ihtype ihbody => rw [tree, encode, encode, ihtype, ihbody]
  | case8 id type body binder ihtype ihbody => rw [tree, encode, encode, ihtype, ihbody]
  | case9 id type value body binder ihtype ihvalue ihbody =>
    rw [tree, encode, encode, ihtype, ihvalue, ihbody]
  | case12 id inner data ih => rw [tree, encode, encode, ih]
  | case13 id typeName index struct ih => rw [tree, encode, encode, ih]
  | case16 id typeName error struct ih => rw [tree, encode, encode, ih]
  | _ => rw [tree, encode, encode]

end Term

namespace Declaration

mutual

/-- A declaration is encoded as the one whose terms are written out as trees. -/
theorem encode_tree (d : Declaration) : d.tree.encode = d.encode := by
  cases d with
  | mk name type payload =>
    rw [tree, encode, encode, type.encode_tree, encodePayload_tree type payload]

/-- The encoding of a payload does not depend on identities. -/
theorem encodePayload_tree (type : Term) (payload : Payload) :
    encodePayload type.tree (payloadTree payload) = encodePayload type payload := by
  cases payload with
  | definition value => rw [payloadTree, encodePayload, encodePayload, value.encode_tree]
  | proof value => rw [payloadTree, encodePayload, encodePayload, value.encode_tree]
  | sealed value => rw [payloadTree, encodePayload, encodePayload, value.encode_tree]
  | family constructors =>
    rw [payloadTree, encodePayload, encodePayload, type.encode_tree, encodeAll_treeAll constructors]
  | eliminator => rw [payloadTree, encodePayload, encodePayload, type.encode_tree]
  | _ => rw [payloadTree, encodePayload, encodePayload]

/-- The encodings of several declarations do not depend on identities. -/
theorem encodeAll_treeAll (ds : List Declaration) : encodeAll (treeAll ds) = encodeAll ds := by
  cases ds with
  | nil => rfl
  | cons d rest => rw [treeAll, encodeAll, encodeAll, encode_tree d, encodeAll_treeAll rest]

end

/-- Without its identities a declaration has the same name. -/
@[simp] theorem name_tree (d : Declaration) : d.tree.name = d.name := by
  cases d
  rfl

/-- Several declarations lose their identities one by one. -/
theorem treeAll_eq_map (ds : List Declaration) : treeAll ds = ds.map tree := by
  induction ds with
  | nil => rfl
  | cons d rest ih => rw [treeAll, List.map_cons, ih]

end Declaration

namespace Module

/-- A module is encoded as the one whose terms are written out as trees, whatever is internal. -/
theorem encode_tree (m : Module) (internal : Name → Bool) :
    m.tree.encode internal = m.encode internal := by
  have hvisible : (Declaration.treeAll m.declarations).filter (fun d => d.name.isVisible internal) =
      Declaration.treeAll (m.declarations.filter fun d => d.name.isVisible internal) := by
    rw [Declaration.treeAll_eq_map, Declaration.treeAll_eq_map, List.filter_map]
    simp [Function.comp_def]
  rw [encode, encode, tree, hvisible, Declaration.encodeAll_treeAll]

end Module

namespace Fingerprint

/-- A declaration has the fingerprint of the one whose terms are written out as trees. -/
theorem ofDeclaration_tree (d : Declaration) : ofDeclaration d.tree = ofDeclaration d := by
  rw [ofDeclaration, ofDeclaration, d.encode_tree]

/-- A table has the fingerprint of the one whose terms are written out as trees. -/
theorem ofDeclarations_treeAll (ds : List Declaration) :
    ofDeclarations (Declaration.treeAll ds) = ofDeclarations ds := by
  have heach : ofEach (Declaration.treeAll ds) = ofEach ds := by
    induction ds with
    | nil => rfl
    | cons d rest ih => rw [Declaration.treeAll, ofEach, ofEach, ofDeclaration_tree, ih]
  rw [ofDeclarations, ofDeclarations, heach]

end Fingerprint

end TermText
