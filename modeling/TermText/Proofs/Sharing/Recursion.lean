import TermText.Proofs.Sharing.Counting

/-!
# Counting by recursion

The nodes of a term are counted from a stack. A visitor that calls itself for the children of a node, from
left to right, leaves the same tally and stops with the same failure, whatever was counted before and
wherever foreign objects stand: what is on the stack is what the calls under way have still to visit.

A failure leaves the tally as it was when the foreign object was met, with the object itself entered last
if it can be looked up. Nothing is asked of identities here, so two nodes that differ may carry one.
-/

namespace TermText

/-- What a visit leaves: the tally, and why it did not come to its end if it did not. -/
abbrev Visited := Tally × Except SharingError Unit

namespace Visited

/-- Goes on with a visit unless it failed. -/
def andThen : Visited → (Tally → Visited) → Visited
  | (tally, .ok _), next => next tally
  | (tally, .error e), _ => (tally, .error e)

/-- A visit goes on with two others as with both together. -/
theorem andThen_assoc (v : Visited) (next later : Tally → Visited) :
    (v.andThen next).andThen later = v.andThen fun tally => (next tally).andThen later := by
  obtain ⟨tally, result⟩ := v
  cases result <;> rfl

end Visited

/-- Meets a node: it is counted if it was met before, and otherwise entered, and what is inside it is
visited. -/
def Tally.meet (tally : Tally) (id : NodeId) (inside : Tally → Visited) : Visited :=
  if tally.contains id then (tally.bump id, .ok ()) else inside (tally.enter id)

/-- A visit goes on behind a node as behind what is inside it. -/
theorem Tally.andThen_meet (tally : Tally) (id : NodeId) (inside next : Tally → Visited) :
    (tally.meet id inside).andThen next =
      if tally.contains id then next (tally.bump id)
      else (inside (tally.enter id)).andThen next := by
  rw [meet]
  split <;> rfl

namespace Term

/-- Visits a term by recursion: what is inside a node are its children, one after another; a leaf is
counted if it is in the tally all the same, and else passed over; and a foreign object, which has no
children to ask for, ends the visit once it is entered, or before if it cannot be looked up. -/
def explore (tally : Tally) : Term → Visited
  | .app id fn arg => tally.meet id fun t => (fn.explore t).andThen fun t => arg.explore t
  | .lambda id type body _ => tally.meet id fun t => (type.explore t).andThen fun t => body.explore t
  | .pi id type body _ => tally.meet id fun t => (type.explore t).andThen fun t => body.explore t
  | .letIn id type value body _ => tally.meet id fun t =>
    (type.explore t).andThen fun t => (value.explore t).andThen fun t => body.explore t
  | .annotated id inner _ => tally.meet id fun t => inner.explore t
  | .proj id _ _ struct => tally.meet id fun t => struct.explore t
  | .unwritableProj id _ _ struct => tally.meet id fun t => struct.explore t
  | .foreign id f =>
    if f.hashable then tally.meet id fun t => (t, .error (.unsupported f))
    else (tally, .error (.unhashable f))
  | .boundVar id _ | .freeVar id _ | .metaVar id _ | .sort id _ | .const id _ _ | .natural id _
  | .text id _ | .document id _ | .unwritable id _ =>
    (if tally.contains id then tally.bump id else tally, .ok ())

/-- What is on a stack behind a leaf is visited after it. -/
theorem visit_leaf {t : Term} (hknown : ∀ id f, t ≠ .foreign id f) (hleaf : t.isLeaf = true)
    (rest : List Term) (tally : Tally) :
    visit (t :: rest) tally = visit rest (if tally.contains t.id then tally.bump t.id else tally) := by
  rw [visit_cons hknown, if_pos hleaf]
  split <;> rfl

/-- What is on a stack behind an inner node is visited after its children. -/
theorem visit_inner {t : Term} (hknown : ∀ id f, t ≠ .foreign id f) (hinner : t.isLeaf = false)
    (inside : Tally → Visited) (rest : List Term) (tally : Tally)
    (hchildren : ∀ tally, visit (t.children ++ rest) tally = (inside tally).andThen (visit rest)) :
    visit (t :: rest) tally = (tally.meet t.id inside).andThen (visit rest) := by
  rw [visit_cons hknown, hinner, if_neg Bool.false_ne_true, hchildren, Tally.andThen_meet]

/-- A foreign object ends the visit when it is met for the first time, and always if it cannot be looked
up. -/
theorem visit_foreign (id : NodeId) (f : Foreign) (rest : List Term) (tally : Tally) :
    visit (.foreign id f :: rest) tally = ((Term.foreign id f).explore tally).andThen (visit rest) := by
  rw [visit]
  cases hf : f.hashable with
  | false => simp only [lookupError?, explore, hf, Visited.andThen, Bool.false_eq_true, if_false]
  | true =>
    simp only [lookupError?, explore, hf, if_true, Tally.andThen_meet]
    rfl

/-- A term on top of a stack is visited as by recursion, and then the rest of the stack. -/
theorem visit_eq_explore (t : Term) (rest : List Term) (tally : Tally) :
    visit (t :: rest) tally = (t.explore tally).andThen (visit rest) := by
  induction t generalizing rest tally with
  | app id fn arg ihfn iharg =>
    refine visit_inner (by simp) rfl _ rest tally fun tally => ?_
    rw [Visited.andThen_assoc]
    exact (ihfn (arg :: rest) tally).trans (congrArg _ (funext (iharg rest)))
  | lambda id type body binder ihtype ihbody =>
    refine visit_inner (by simp) rfl _ rest tally fun tally => ?_
    rw [Visited.andThen_assoc]
    exact (ihtype (body :: rest) tally).trans (congrArg _ (funext (ihbody rest)))
  | pi id type body binder ihtype ihbody =>
    refine visit_inner (by simp) rfl _ rest tally fun tally => ?_
    rw [Visited.andThen_assoc]
    exact (ihtype (body :: rest) tally).trans (congrArg _ (funext (ihbody rest)))
  | letIn id type value body binder ihtype ihvalue ihbody =>
    refine visit_inner (by simp) rfl _ rest tally fun tally => ?_
    have hvalue : visit (value :: body :: rest) = fun tally =>
        ((value.explore tally).andThen fun t => body.explore t).andThen (visit rest) := by
      funext tally
      rw [Visited.andThen_assoc]
      exact (ihvalue (body :: rest) tally).trans (congrArg _ (funext (ihbody rest)))
    rw [Visited.andThen_assoc, ← hvalue]
    exact ihtype (value :: body :: rest) tally
  | annotated id inner data ih => exact visit_inner (by simp) rfl _ rest tally (ih rest)
  | proj id typeName index struct ih => exact visit_inner (by simp) rfl _ rest tally (ih rest)
  | unwritableProj id typeName error struct ih => exact visit_inner (by simp) rfl _ rest tally (ih rest)
  | foreign id f => exact visit_foreign id f rest tally
  | _ => exact visit_leaf (by simp) rfl rest tally

/-- Counting a term is exploring it. -/
theorem count_eq_explore (t : Term) (tally : Tally) : t.count tally = t.explore tally := by
  have hnil : visit [] = fun tally => (tally, .ok ()) := funext fun tally => by rw [visit]
  rw [count, visit_eq_explore, hnil]
  obtain ⟨next, result⟩ := t.explore tally
  cases result <;> rfl

/-- A visit that stopped: a foreign object was reached, to which the tally had grown. One that can be
looked up is met for the first time and is the last to be entered; any other one is not entered. -/
inductive Stopped (stack : List Term) (tally : Tally) : Tally → SharingError → Prop where
  | entered {id : NodeId} {f : Foreign} {before : Tally} (lookup : f.hashable = true)
      (reached : Reached stack (.foreign id f)) (grown : tally.Grows before)
      (new : id ∉ before.keys) : Stopped stack tally (before.enter id) (.unsupported f)
  | refused {id : NodeId} {f : Foreign} {before : Tally} (lookup : f.hashable = false)
      (reached : Reached stack (.foreign id f)) (grown : tally.Grows before) :
      Stopped stack tally before (.unhashable f)

/-- A visit that stops after a step has stopped. -/
theorem Stopped.of_step {stack below : List Term} {tally next final : Tally} {e : SharingError}
    (h : Stopped below next final e) (hreached : ∀ t, Reached below t → Reached stack t)
    (hgrown : tally.Grows next) : Stopped stack tally final e := by
  cases h with
  | entered lookup reached grown new =>
    exact .entered lookup (hreached _ reached) (hgrown.trans grown) new
  | refused lookup reached grown => exact .refused lookup (hreached _ reached) (hgrown.trans grown)

/-- What stands below the top of a stack is reached from the stack. -/
theorem Reached.below {t u : Term} {rest : List Term} (h : Reached rest u) : Reached (t :: rest) u := by
  obtain ⟨r, hr, hreach⟩ := h
  exact ⟨r, List.mem_cons_of_mem t hr, hreach⟩

/-- What is reached once a node is replaced by its children was reached before. -/
theorem Reached.of_children {t u : Term} {rest : List Term} (h : Reached (t.children ++ rest) u) :
    Reached (t :: rest) u := by
  obtain ⟨r, hr, hreach⟩ := h
  obtain hchild | hrest := List.mem_append.1 hr
  · exact ⟨t, List.mem_cons_self, .head hchild hreach⟩
  · exact .below ⟨r, hrest, hreach⟩

/-- A visit fails at a foreign object and nowhere else. -/
theorem stopped_of_visit {stack : List Term} {tally final : Tally} {e : SharingError}
    (h : visit stack tally = (final, .error e)) : Stopped stack tally final e := by
  fun_induction visit stack tally with
  | case1 tally => cases h
  | case2 tally t rest e' hlookup =>
    obtain ⟨rfl, ⟨⟩⟩ := Prod.mk.inj h
    obtain ⟨id, f, rfl, hf, rfl⟩ :
        ∃ id f, t = .foreign id f ∧ f.hashable = false ∧ e = .unhashable f := by
      unfold lookupError? at hlookup
      split at hlookup
      · split at hlookup
        · cases hlookup
        · next hf => exact ⟨_, _, rfl, Bool.eq_false_iff.mpr hf, (Option.some.inj hlookup).symm⟩
      · cases hlookup
    exact .refused hf ⟨_, List.mem_cons_self, .refl⟩ (.refl tally)
  | case3 tally t rest hlookup hmet ih =>
    exact (ih h).of_step (fun _ => Reached.below) (tally.grows_bump t.id)
  | case4 tally t rest hlookup hmet hleaf ih =>
    exact (ih h).of_step (fun _ => Reached.below) (.refl tally)
  | case5 tally t rest hlookup hmet hleaf e' hfailed =>
    obtain ⟨rfl, ⟨⟩⟩ := Prod.mk.inj h
    obtain ⟨id, f, rfl, rfl⟩ : ∃ id f, t = .foreign id f ∧ e = .unsupported f := by
      unfold childrenOrError at hfailed
      split at hfailed
      · exact ⟨_, _, rfl, (Except.error.inj hfailed).symm⟩
      · cases hfailed
    have hf : f.hashable = true := by simpa [lookupError?] using hlookup
    exact .entered hf ⟨_, List.mem_cons_self, .refl⟩ (.refl tally) (mt Tally.contains_iff.2 hmet)
  | case6 tally t rest hlookup hmet hleaf children hgiven ih =>
    rw [eq_children_of_childrenOrError hgiven] at ih h
    exact (ih h).of_step (fun _ => Reached.of_children) (tally.grows_enter t.id)

/-- Counting is the recursive visit, with any tally to begin with: the same nodes are entered in the same
order with the same counts, and where one stops at a foreign object the other stops there too, for the
same reason and with the same tally. Nothing is then visited after the object, which was entered if it can
be looked up. -/
theorem count_agrees_with_recursion (t : Term) (tally : Tally) :
    t.count tally = t.explore tally ∧
      ∀ final e, t.count tally = (final, .error e) → Stopped [t] tally final e :=
  ⟨count_eq_explore t tally, fun _ _ h => stopped_of_visit h⟩

/-- Counting goes on with the tally that a failure left: a node entered then is counted and not opened, so
that the object inside it stops nothing, and neither does that object where it is met again; an object met
for the first time is entered, and the node behind it is not counted. -/
theorem count_agrees_with_recursion_after_failure :
    let tuple : Foreign := .builtin "tuple" true 0
    let void : Foreign := .builtin "NoneType" true 0
    let failed : Term := .app 1 (.natural 0 7) (.foreign 2 tuple)
    let next : Term := .app 3 failed
      (.app 4 (.annotated 5 (.foreign 2 tuple) []) (.app 6 (.foreign 7 void) failed))
    let left : Tally := [(1, 0), (2, 0)]
    let final : Tally := [(1, 1), (2, 1), (3, 0), (4, 0), (5, 0), (6, 0), (7, 0)]
    failed.count [] = (left, .error (.unsupported tuple)) ∧
      next.count left = (final, .error (.unsupported void)) ∧
      Stopped [next] left final (.unsupported void) := by
  intro tuple void failed next left final
  have hfinal : next.count left = (final, .error (.unsupported void)) :=
    (count_agrees_with_recursion next left).1.trans rfl
  exact ⟨(count_agrees_with_recursion failed []).1.trans rfl, hfinal,
    (count_agrees_with_recursion next left).2 final _ hfinal⟩

end Term

end TermText
