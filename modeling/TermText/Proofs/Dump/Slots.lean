import TermText.Proofs.Dump.Declarations
import TermText.Proofs.Dump.Place

/-!
# What recipes put in their slots

The recipe of a term record makes a node whose children are the answers to the references that the
record gives for them, and the recipe of a declaration record fills each slot with the answer to the
reference in the slot. Neither asks for a term in another place. So a reference and the term that it
was answered by can be followed side by side, whatever answers them.
-/

namespace TermText

namespace Dump

section

variable {α β γ δ : Type} {R : α → β → Prop} {S : γ → δ → Prop}

/-- Two values that may be missing are related if both are missing or both are there and related. -/
theorem rel_bind {x : Option α} {y : Option β} {f : α → Option γ} {g : β → Option δ}
    (h : Option.Rel R x y) (hf : ∀ a b, R a b → Option.Rel S (f a) (g b)) :
    Option.Rel S (x.bind f) (y.bind g) := by
  cases h with
  | none => exact .none
  | some hab => exact hf _ _ hab

/-- Lists whose members are related one by one have related members at each position. -/
theorem rel_getElem? {xs : List α} {ys : List β} (h : List.Forall₂ R xs ys) (i : Nat) :
    Option.Rel R xs[i]? ys[i]? := by
  induction h generalizing i with
  | nil => exact .none
  | cons hfirst _ ih =>
    cases i with
    | zero => exact .some hfirst
    | succ i => exact ih i

end

variable {α β : Type} {M : Meaning} {P : Text → Prop}

namespace Recipe

/-- A recipe that asks for terms of some ids only, whatever is found. -/
def AsksWithin (P : Text → Prop) : Recipe α → Prop
  | .done _ | .fail _ => True
  | .askName _ next => ∀ n, (next n).AsksWithin P
  | .askLevel _ next => ∀ l, (next l).AsksWithin P
  | .askExpr ref next => (∀ id, ref.label = .ok id → P id) ∧ ∀ t, (next t).AsksWithin P

/-- A recipe asks for the terms of its course. -/
theorem SameCourse.asksWithin {ν : Type} {View : α → ν → Prop} {refs : List Key} {r : Recipe α}
    (h : r.SameCourse View refs r) (hrefs : ∀ id, (.exprs, id) ∈ refs → P id) :
    r.AsksWithin P := by
  induction r generalizing refs with
  | done a => trivial
  | fail e => trivial
  | askName ref next ih =>
    obtain ⟨_, rest, rfl, hnext⟩ := h
    exact fun n => ih n (hnext n) fun id hid => hrefs id (List.mem_append_right _ hid)
  | askLevel ref next ih =>
    obtain ⟨_, rest, rfl, hnext⟩ := h
    exact fun l => ih l (hnext l) fun id hid => hrefs id (List.mem_append_right _ hid)
  | askExpr ref next ih =>
    obtain ⟨_, rest, rfl, hnext⟩ := h
    refine ⟨fun id hid => hrefs id (List.mem_append_left _ (mem_labelKeys.2 ⟨rfl, hid⟩)), fun t => ?_⟩
    exact ih t (hnext t t rfl) fun id hid => hrefs id (List.mem_append_right _ hid)

/-- The records that a declaration record refers to as terms are those of the references in its slots. -/
theorem mem_declarationReferences_iff {record : Json} {id : Text} :
    (Table.exprs, id) ∈ declarationReferences record ↔
      ∃ slot ref, referenceIn? slot record = some ref ∧ Json.label ref = .ok id := by
  induction hdepth : record.depth using Nat.strongRecOn generalizing record with
  | ind depth ih =>
    have hvalue : (Table.exprs, id) ∈ payloadReferences record ↔
        ∃ ref, referenceIn? .value record = some ref ∧ Json.label ref = .ok id := by
      rw [payloadReferences, referenceIn?]
      cases declarationKind? record with
      | none => simp
      | some kind => cases kind <;> simp [mem_fieldKeys_expr, not_mem_fieldKeys_name]
    have hinner (inner : Json) (hmem : inner ∈ constructorRecords record) :=
      ih inner.depth (hdepth ▸ depth_lt_of_mem_constructorRecords hmem) rfl
    rw [declarationReferences_eq, List.mem_append, List.mem_append, List.mem_append, List.mem_flatMap,
      mem_fieldKeys_expr, hvalue]
    constructor
    · intro h
      obtain h | ⟨ref, href, hid⟩ | ⟨ref, href, hid⟩ | ⟨inner, hmem, hbelow⟩ := h
      · exact absurd h (not_mem_fieldKeys_name _ _ _)
      · exact ⟨.type, ref, href, hid⟩
      · exact ⟨.value, ref, href, hid⟩
      · obtain ⟨slot, ref, href, hid⟩ := (hinner inner hmem).mp hbelow
        obtain ⟨i, hi⟩ := List.mem_iff_getElem?.mp hmem
        exact ⟨.constructor i slot, ref, Option.bind_eq_some_iff.mpr ⟨inner, hi, href⟩, hid⟩
    · intro h
      obtain ⟨slot, ref, href, hid⟩ := h
      cases slot with
      | type => exact .inr (.inl ⟨ref, href, hid⟩)
      | value => exact .inr (.inr (.inl ⟨ref, href, hid⟩))
      | constructor i slot =>
        obtain ⟨inner, hi, href⟩ := Option.bind_eq_some_iff.mp href
        have hmem := List.mem_of_getElem? hi
        exact .inr (.inr (.inr ⟨inner, hmem, (hinner inner hmem).mpr ⟨slot, ref, href, hid⟩⟩))

/-- The recipe of a declaration asks for the terms in the slots of its record. -/
theorem asksWithin_ofDeclaration {record : Json}
    (h : ∀ slot ref id, referenceIn? slot record = some ref → Json.label ref = .ok id → P id) :
    (ofDeclaration (record.depth + 1) record).AsksWithin P := by
  refine (sameCourse_ofDeclaration record.depth.lt_succ_self).asksWithin fun id hid => ?_
  obtain ⟨slot, ref, href, hlabel⟩ := mem_declarationReferences_iff.mp hid
  exact h slot ref id href hlabel

/-- The node of a term record has the identity that it is given, and its children are the terms that
the record's references to children stand for. -/
theorem children_of_yields {tables : Tables} {id : Text} {record : Json} {make : NodeId → Term}
    (hrecord : Json.Fields.get? tables.exprs id = some record)
    (h : (ofExpr id record).Yields M (· = make)) (node : NodeId) :
    (make node).id = node ∧
      ∀ i, Option.Rel M.expr (tables.childReference? (.text id) i) (make node).children[i]? := by
  obtain ⟨fields, kind, rfl, hkind, h⟩ := (yields_ofExpr _ _ _).1 h
  have hchild : ∀ i, tables.childReference? (.text id) i =
      kind.childFields[i]?.bind (Json.Fields.get? fields) := by
    intro i
    have hread : ExprKind.ofJson? (.text kind.word) = some kind := ExprKind.ofJson?_eq_some.2 rfl
    change (Json.Fields.get? tables.exprs id).bind _ = _
    simp only [hrecord, Option.bind_some, Json.fields, hkind, hread]
  suffices hparts : (make node).id = node ∧ List.Forall₂
      (fun key t => ∃ ref, fields.get? key = some ref ∧ M.expr ref t) kind.childFields
      (make node).children by
    refine ⟨hparts.1, fun i => ?_⟩
    rw [hchild, ← Option.bind_fun_some (make node).children[i]?]
    refine rel_bind (rel_getElem? hparts.2 i) fun key t hkey => ?_
    obtain ⟨ref, href, ht⟩ := hkey
    rw [href]
    exact .some ht
  cases kind with
  | boundVar | natural =>
    obtain ⟨value, _, k, _, rfl⟩ := h
    exact ⟨rfl, .nil⟩
  | freeVar | metaVar =>
    obtain ⟨name, _, n, _, rfl⟩ := h
    exact ⟨rfl, .nil⟩
  | sort =>
    obtain ⟨level, _, l, _, rfl⟩ := h
    exact ⟨rfl, .nil⟩
  | const =>
    obtain ⟨refs, _, ls, _, name, _, n, _, rfl⟩ := h
    exact ⟨rfl, .nil⟩
  | text =>
    obtain ⟨given, _, t, _, rfl⟩ := h
    exact ⟨rfl, .nil⟩
  | app =>
    obtain ⟨fn, hfn, f, hf, arg, harg, a, ha, rfl⟩ := h
    exact ⟨rfl, .cons ⟨fn, hfn, hf⟩ (.cons ⟨arg, harg, ha⟩ .nil)⟩
  | lambda | pi =>
    obtain ⟨type, htype, t, ht, body, hbody, b, hb, n, _, rfl⟩ := h
    exact ⟨rfl, .cons ⟨type, htype, ht⟩ (.cons ⟨body, hbody, hb⟩ .nil)⟩
  | letIn =>
    obtain ⟨type, htype, t, ht, value, hvalue, v, hv, body, hbody, b, hb, n, _, rfl⟩ := h
    exact ⟨rfl, .cons ⟨type, htype, ht⟩ (.cons ⟨value, hvalue, hv⟩ (.cons ⟨body, hbody, hb⟩ .nil))⟩
  | annotated =>
    obtain ⟨data, _, expr, hexpr, t, ht, rfl⟩ := h
    exact ⟨rfl, .cons ⟨expr, hexpr, ht⟩ .nil⟩
  | proj =>
    obtain ⟨name, _, n, _, value, _, index, _, struct, hstruct, t, ht, rfl⟩ := h
    exact ⟨rfl, .cons ⟨struct, hstruct, ht⟩ .nil⟩

/-- A payload and a record hold terms and references in the same slots, if those of its constructors
do. -/
theorem slots_of_yields_payload {declare : Json → Recipe Declaration} {record : Json}
    {payload : Payload} (h : (ofPayload declare record).Yields M (· = payload))
    (hdeclare : ∀ inner d, (declare inner).Yields M (· = d) →
      ∀ slot, Option.Rel M.expr (referenceIn? slot inner) (d.termIn? slot)) :
    Option.Rel M.expr (referenceIn? .value record) payload.value? ∧
      ∀ (i : Nat) (slot : Slot), Option.Rel M.expr ((constructorRecords record)[i]?.bind (referenceIn? slot))
        (payload.constructors[i]?.bind (Declaration.termIn? slot)) := by
  obtain ⟨fields, kind, rfl, hkind, h⟩ := (yields_ofPayload _ _ _).mp h
  have hnone : ∀ (i : Nat) (slot : Slot), Option.Rel M.expr
      (([] : List Json)[i]?.bind (referenceIn? slot))
      (([] : List Declaration)[i]?.bind (Declaration.termIn? slot)) := fun i slot => .none
  by_cases hfamily : kind = .family
  · subst hfamily
    obtain ⟨_, ds, hds, rfl⟩ := h
    simp only [referenceIn?, hkind]
    refine ⟨.none, fun i slot => ?_⟩
    exact rel_bind (rel_getElem? hds i) fun inner d hinner => hdeclare inner d hinner slot
  · rw [constructorRecords_of_ne (by simp [hkind, hfamily])]
    simp only [referenceIn?, hkind]
    cases kind with
    | assumption | eliminator =>
      subst h
      exact ⟨.none, hnone⟩
    | definition | proof | sealed =>
      obtain ⟨value, hvalue, t, ht, rfl⟩ := h
      rw [Json.fields, hvalue]
      exact ⟨.some ht, hnone⟩
    | constructor =>
      obtain ⟨ref, _, n, _, rfl⟩ := h
      exact ⟨.none, hnone⟩
    | quotient =>
      obtain ⟨given, _, quotient, _, ref, _, n, _, rfl⟩ := h
      exact ⟨.none, hnone⟩
    | family => exact absurd rfl hfamily

/-- A declaration and its record hold terms and references in the same slots. -/
theorem slots_of_yields {bound : Nat} {record : Json} {d : Declaration}
    (h : (ofDeclaration bound record).Yields M (· = d)) (slot : Slot) :
    Option.Rel M.expr (referenceIn? slot record) (d.termIn? slot) := by
  induction bound generalizing record d slot with
  | zero => exact h.elim
  | succ bound ih =>
    simp only [ofDeclaration, yields_blaming, yields_bind, yields_named, yields_child] at h
    obtain ⟨fields, nameRef, rfl, _, n, _, fields', ref, hfields, href, t, ht, h⟩ := h
    cases hfields
    obtain ⟨payload, hpayload, rfl⟩ := yields_iff_exists.mp h
    have hslots := slots_of_yields_payload hpayload fun inner d hinner slot => ih hinner slot
    cases slot with
    | type =>
      simp only [referenceIn?, Json.fields, href]
      exact .some ht
    | value => exact hslots.1
    | constructor i slot => exact hslots.2 i slot

end Recipe

end Dump

end TermText
