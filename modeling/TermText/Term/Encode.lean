import TermText.Term.Basic

/-!
# Encoding of terms

A term is encoded by its meaning: identities, binder names and annotations leave no trace, and an
application is flattened to its head and all its arguments, also through annotations around partial
applications. A term with a number or a hash that cannot be written has no encoding.
-/

namespace TermText.Term

/-- The head of a spine is no larger than the term. -/
theorem sizeOf_bareSpineOnto_fst (t : Term) (args : List Term) :
    sizeOf (t.bareSpineOnto args).1 ≤ sizeOf t := by
  fun_induction bareSpineOnto t args with
  | case1 id fn arg args ih => simp only [app.sizeOf_spec]; omega
  | case2 id inner data args ih => simp only [annotated.sizeOf_spec]; omega
  | case3 => exact Nat.le_refl _

/-- An argument of a spine was there before or is smaller than the term. -/
theorem sizeOf_of_mem_bareSpineOnto {x : Term} (t : Term) (args : List Term)
    (h : x ∈ (t.bareSpineOnto args).2) : x ∈ args ∨ sizeOf x < sizeOf t := by
  fun_induction bareSpineOnto t args with
  | case1 id fn arg args ih =>
    rcases ih h with h | h
    · rcases List.mem_cons.1 h with rfl | h
      · right; simp only [app.sizeOf_spec]; omega
      · exact .inl h
    · right; simp only [app.sizeOf_spec]; omega
  | case2 id inner data args ih =>
    rcases ih h with h | h
    · exact .inl h
    · right; simp only [annotated.sizeOf_spec]; omega
  | case3 => exact .inl h

/-- The encoding of a term. -/
def encode : Term → Except EncodeError Value
  | .boundVar _ index => .ok (.tagged .boundVar [.int index])
  | .freeVar _ name => name.encode
  | .metaVar _ name => do
    let n ← name.encode
    .ok (.tagged .metaVar [n])
  | .sort _ level => do
    let l ← level.encode
    .ok (.tagged .sort [l])
  | .const _ name levels => do
    let (n, ls) ← Encoding.pair name.encode (Encoding.all (levels.map Level.encode))
    .ok (.tagged .const [n, .list ls])
  | .app _ fn arg => do
    let parts := fn.bareSpineOnto [arg]
    let (head, args) ← Encoding.pair (encode parts.1)
      (Encoding.all (parts.2.attach.map fun ⟨x, _⟩ => encode x))
    .ok (.tagged .apply (head :: args))
  | .lambda _ type body _ => do
    let (t, b) ← Encoding.pair (encode type) (encode body)
    .ok (.tagged .lambda [t, b])
  | .pi _ type body _ => do
    let (t, b) ← Encoding.pair (encode type) (encode body)
    .ok (.tagged .pi [t, b])
  | .letIn _ type value body _ => do
    let (t, v, b) ← Encoding.pair (encode type) (Encoding.pair (encode value) (encode body))
    .ok (.tagged .letIn [t, v, b])
  | .natural _ value => .ok (.tagged .literal [.int value])
  | .text _ value => .ok (.tagged .literal [.text value])
  | .annotated _ inner _ => encode inner
  | .proj _ typeName index struct => do
    let (n, s) ← Encoding.pair typeName.encode (encode struct)
    .ok (.tagged .proj [n, .int index, s])
  | .document _ value => .ok (.tagged .literal [.document value])
  | .unwritable _ error => .error (.number error)
  | .unwritableProj _ typeName error struct => do
    let (n, index, s) ← Encoding.pair typeName.encode
      (Encoding.pair (.error (.number error)) (encode struct))
    .ok (.tagged .proj [n, index, s])
  | .foreign _ f => .error (.term f)
termination_by t => sizeOf t
decreasing_by
  · have := sizeOf_bareSpineOnto_fst fn [arg]
    simp only [app.sizeOf_spec]
    omega
  · rename_i h
    simp only [app.sizeOf_spec]
    rcases sizeOf_of_mem_bareSpineOnto fn [arg] h with h | h
    · rcases List.mem_cons.1 h with rfl | h
      · omega
      · cases h
    · omega
  all_goals simp only [lambda.sizeOf_spec, pi.sizeOf_spec, letIn.sizeOf_spec, annotated.sizeOf_spec,
    proj.sizeOf_spec, unwritableProj.sizeOf_spec]; omega

end TermText.Term
