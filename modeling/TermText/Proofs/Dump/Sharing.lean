import Mathlib.Algebra.BigOperators.Group.Finset.Basic
import TermText.Proofs.Dump.Contents
import TermText.Proofs.Sharing.Figures

/-!
# The sharing of what is loaded

A loaded module shares exactly what its dump shares: its inner nodes are the term records of an inner kind
that are reached from the declarations, and a node is held by as many places as there are references to its
record. So the figures of the declarations are those of the graph of records, in which nothing is counted
that has an order.
-/

namespace TermText.Dump

/-- The kinds of term records with children. -/
def ExprKind.isInner : ExprKind → Bool
  | .app | .lambda | .pi | .letIn | .annotated | .proj => true
  | .boundVar | .freeVar | .metaVar | .sort | .const | .natural | .text => false

/-- The record of an id is a term record of a kind with children. -/
def Tables.IsInner (tables : Tables) (id : Text) : Prop :=
  ∃ kind fields, tables.ExprRecord kind (.text id) fields ∧ kind.isInner = true

/-- A reference stands for a record of one kind only. -/
theorem Tables.ExprRecord.kind_eq {tables : Tables} {kind kind' : ExprKind} {ref : Json}
    {fields fields' : Json.Fields} (h : tables.ExprRecord kind ref fields)
    (h' : tables.ExprRecord kind' ref fields') : kind = kind' := by
  obtain ⟨⟨id, hlabel, hrecord⟩, hkind⟩ := h
  obtain ⟨⟨id', hlabel', hrecord'⟩, hkind'⟩ := h'
  obtain rfl := Except.ok.inj (hlabel.symm.trans hlabel')
  obtain rfl := Json.object.inj (Option.some.inj (hrecord.symm.trans hrecord'))
  have hsame : Json.text kind.word = .text kind'.word := Option.some.inj (hkind.symm.trans hkind')
  exact Option.some.inj
    ((ExprKind.ofJson?_eq_some.mpr rfl).symm.trans (ExprKind.ofJson?_eq_some.mpr hsame))

/-- The label of a reference that has one. -/
def labelled? (ref : Json) : Option Text :=
  ref.label.toOption

/-- A reference with a label has that one. -/
theorem labelled?_of_label {ref : Json} {id : Text} (h : ref.label = .ok id) :
    labelled? ref = some id := by
  rw [labelled?, h, Except.toOption]

/-- The ids of term records among some keys. -/
def exprIds (keys : List Key) : List Text :=
  keys.filterMap fun key => if key.1 = .exprs then some key.2 else none

section

variable {α β : Type} {R : α → β → Prop}

/-- What two options hold is related one by one if they are. -/
theorem forall₂_toList {x : Option α} {y : Option β} (h : Option.Rel R x y) :
    List.Forall₂ R x.toList y.toList := by
  cases h with
  | none => exact .nil
  | some hxy => exact .cons hxy .nil

/-- What is found for the members of a list is related one by one to a list that it is related to at each
position. -/
theorem forall₂_filterMap {γ : Type} {find : γ → Option α} {keys : List γ} {ys : List β}
    (h : ∀ i : Nat, Option.Rel R (keys[i]?.bind find) ys[i]?) :
    List.Forall₂ R (keys.filterMap find) ys := by
  induction keys generalizing ys with
  | nil =>
    cases ys with
    | nil => exact .nil
    | cons y rest => exact nomatch h 0
  | cons key rest ih =>
    have hfirst : Option.Rel R (find key) ys[0]? := h 0
    cases ys with
    | nil =>
      have hrest : List.Forall₂ R (rest.filterMap find) ([] : List β) := ih fun i => h (i + 1)
      cases hfound : find key with
      | none => rwa [List.filterMap_cons_none hfound]
      | some a => rw [hfound] at hfirst; exact nomatch hfirst
    | cons y ys =>
      have hrest : List.Forall₂ R (rest.filterMap find) ys := ih fun i => h (i + 1)
      cases hfound : find key with
      | none => rw [hfound] at hfirst; exact nomatch hfirst
      | some a =>
        rw [hfound] at hfirst
        rw [List.filterMap_cons_some hfound]
        cases hfirst with
        | some hay => exact .cons hay hrest

end

section

variable {keys keys' : List Key} {key : Text} {fields : Json.Fields} {record : Json} {tables : Tables}

/-- The ids of term records among more keys. -/
@[simp] theorem exprIds_append : exprIds (keys ++ keys') = exprIds keys ++ exprIds keys' :=
  List.filterMap_append

/-- Among no keys there is none. -/
@[simp] theorem exprIds_nil : exprIds [] = [] := rfl

/-- How often a term record is among some keys. -/
theorem count_exprIds (keys : List Key) (id : Text) :
    (exprIds keys).count id = keys.count (.exprs, id) := by
  induction keys with
  | nil => rfl
  | cons key rest ih =>
    obtain ⟨table, other⟩ := key
    cases table <;> simp [exprIds, List.count_cons, ← ih]

/-- An id is among those of term records exactly if its key is among the keys. -/
theorem mem_exprIds {id : Text} : id ∈ exprIds keys ↔ (.exprs, id) ∈ keys := by
  rw [← List.count_pos_iff, ← List.count_pos_iff, count_exprIds]

/-- A reference to a name leads to no term record. -/
@[simp] theorem exprIds_fieldKeys_name : exprIds (fieldKeys nameKeys key fields) = [] :=
  List.eq_nil_iff_forall_not_mem.mpr fun id hid => not_mem_fieldKeys_name key fields id (mem_exprIds.mp hid)

/-- Neither does a reference to a level. -/
@[simp] theorem exprIds_fieldKeys_level : exprIds (fieldKeys levelKeys key fields) = [] :=
  List.eq_nil_iff_forall_not_mem.mpr fun id hid =>
    not_mem_fieldKeys_level key fields id (mem_exprIds.mp hid)

/-- A reference to a term leads to the term record of its label. -/
@[simp] theorem exprIds_fieldKeys_expr :
    exprIds (fieldKeys exprKeys key fields) = ((fields.get? key).bind labelled?).toList := by
  unfold fieldKeys
  cases fields.get? key with
  | none => rfl
  | some ref =>
    rw [Option.elim_some, Option.bind_some, labelled?, exprKeys, labelKeys]
    cases ref.label <;> rfl

/-- The ids of term records among the keys of several things. -/
theorem exprIds_flatMap {α : Type} (f : α → List Key) (xs : List α) :
    exprIds (xs.flatMap f) = xs.flatMap fun x => exprIds (f x) :=
  List.filterMap_flatMap ..

/-- The term records that a term record refers to are those of its children from left to right. -/
theorem exprIds_exprReferences {kind : ExprKind}
    (hkind : (fields.get? "kind").bind ExprKind.ofJson? = some kind) :
    exprIds (exprReferences fields) =
      kind.childFields.filterMap fun key => (fields.get? key).bind labelled? := by
  have hlevels (refs : List Json) : exprIds (refs.flatMap levelKeys) = [] :=
    List.eq_nil_iff_forall_not_mem.mpr fun id hid => by
      obtain ⟨ref, -, hmem⟩ := List.mem_flatMap.mp (mem_exprIds.mp hid)
      simpa using (mem_labelKeys.mp hmem).1
  rw [List.filterMap_eq_flatMap_toList]
  unfold exprReferences
  rw [hkind]
  cases kind <;> simp [ExprKind.childFields, hlevels]

/-- The term records that a term record refers to are found as the references of its children. -/
theorem Tables.exists_childKeys (tables : Tables) (id : Text) :
    ∃ (keys : List Text) (find : Text → Option Json),
      (∀ i, tables.childReference? (.text id) i = keys[i]?.bind find) ∧
        exprIds (tables.references (.exprs, id)) = keys.filterMap fun key => (find key).bind labelled? := by
  unfold Tables.references Tables.childReference?
  change ∃ keys find, (∀ i : Nat, (Json.Fields.get? tables.exprs id).bind _ = _) ∧
    exprIds ((Json.Fields.get? tables.exprs id).elim [] _) = _
  cases Json.Fields.get? tables.exprs id with
  | none => exact ⟨[], fun _ => none, fun _ => rfl, rfl⟩
  | some record =>
    cases hkind : (Json.Fields.get? record.fields "kind").bind ExprKind.ofJson? with
    | none =>
      refine ⟨[], fun _ => none, fun _ => by simp [hkind], ?_⟩
      simp [exprReferences, hkind]
    | some kind =>
      refine ⟨kind.childFields, Json.Fields.get? record.fields, fun i => by simp [hkind], ?_⟩
      exact exprIds_exprReferences hkind

/-- The term records that a declaration record refers to: that of its type, that of its value, and those
of its constructors. -/
theorem exprIds_declarationReferences (record : Json) : exprIds (declarationReferences record) =
    ((referenceIn? .type record).bind labelled?).toList ++
      (((referenceIn? .value record).bind labelled?).toList ++
        (constructorRecords record).flatMap fun inner => exprIds (declarationReferences inner)) := by
  have hvalue : exprIds (payloadReferences record) =
      ((referenceIn? .value record).bind labelled?).toList := by
    rw [payloadReferences, referenceIn?]
    cases declarationKind? record with
    | none => rfl
    | some kind => cases kind <;> simp
  rw [declarationReferences_eq]
  simp only [exprIds_append, exprIds_fieldKeys_name, List.nil_append, exprIds_fieldKeys_expr, hvalue,
    exprIds_flatMap]
  rfl

end

namespace Session

variable {s : Session} {tables : Tables} {P : Text → Prop} {id : Text} {t : Term}

/-- The terms that a session built for the records of some ids. -/
def HoldsEach (s : Session) : List Text → List Term → Prop :=
  List.Forall₂ fun id t => lookup? s.exprs id = some t

/-- A reference that was built is the id of the record that was built. -/
theorem rel_label {x : Option Json} {y : Option Term} (h : Option.Rel s.Holds x y) :
    Option.Rel (fun id t => lookup? s.exprs id = some t) (x.bind labelled?) y := by
  cases h with
  | none => exact .none
  | some hheld =>
    obtain ⟨id, hlabel, hbuilt⟩ := hheld
    rw [Option.bind_some, labelled?_of_label hlabel]
    exact .some hbuilt

/-- The children of a term were built for the term records that its record refers to. -/
theorem Mirrors.holds_children (h : s.Mirrors tables P) (ht : lookup? s.exprs id = some t) :
    s.HoldsEach (exprIds (tables.references (.exprs, id))) t.children := by
  obtain ⟨keys, find, hfind, hids⟩ := tables.exists_childKeys id
  rw [hids]
  refine forall₂_filterMap fun i => ?_
  have hrel := rel_label (h.children id t ht i)
  rwa [hfind, Option.bind_assoc] at hrel

/-- The terms of several declarations were built for the term records that their records refer to, if so
are those of each. -/
theorem holds_terms_of_each {records : List Json} {ds : List Declaration}
    (heach : ∀ record ∈ records, ∀ d : Declaration,
      (∀ slot, Option.Rel s.Holds (referenceIn? slot record) (d.termIn? slot)) →
        s.HoldsEach (exprIds (declarationReferences record)) d.terms)
    (h : ∀ (i : Nat) (slot : Slot), Option.Rel s.Holds (records[i]?.bind (referenceIn? slot))
      (ds[i]?.bind (Declaration.termIn? slot))) :
    s.HoldsEach (records.flatMap fun record => exprIds (declarationReferences record))
      (ds.flatMap Declaration.terms) := by
  induction records generalizing ds with
  | nil =>
    cases ds with
    | nil => exact .nil
    | cons d rest => exact nomatch h 0 .type
  | cons record rest ih =>
    obtain ⟨hrecord, hall⟩ := List.forall_mem_cons.mp heach
    cases ds with
    | nil =>
      have hnone : exprIds (declarationReferences record) = [] :=
        List.eq_nil_iff_forall_not_mem.mpr fun id hid => by
          obtain ⟨slot, ref, href, -⟩ :=
            Recipe.mem_declarationReferences_iff.mp (mem_exprIds.mp hid)
          have hslot : Option.Rel s.Holds (referenceIn? slot record) none := h 0 slot
          rw [href] at hslot
          cases hslot
      have hrest : ∀ (i : Nat) (slot : Slot), Option.Rel s.Holds (rest[i]?.bind (referenceIn? slot))
          (([] : List Declaration)[i]?.bind (Declaration.termIn? slot)) := fun i => h (i + 1)
      rw [List.flatMap_cons, hnone]
      exact ih hall hrest
    | cons d ds => exact List.rel_append (hrecord d fun slot => h 0 slot) (ih hall fun i => h (i + 1))

/-- The terms of a declaration were built for the term records that its record refers to. -/
theorem holds_terms_of_slots {record : Json} {d : Declaration}
    (h : ∀ slot, Option.Rel s.Holds (referenceIn? slot record) (d.termIn? slot)) :
    s.HoldsEach (exprIds (declarationReferences record)) d.terms := by
  induction hdepth : record.depth using Nat.strongRecOn generalizing record d with
  | ind depth ih =>
    obtain ⟨name, type, payload⟩ := d
    have hterms : Declaration.payloadTerms payload =
        payload.value?.toList ++ payload.constructors.flatMap Declaration.terms := by
      cases payload <;> simp [Declaration.payloadTerms, Payload.value?, Payload.constructors,
        Declaration.termsOfAll_eq_flatMap]
    have hconstructors : s.HoldsEach
        ((constructorRecords record).flatMap fun inner => exprIds (declarationReferences inner))
        (payload.constructors.flatMap Declaration.terms) :=
      holds_terms_of_each (fun inner hinner d hslots =>
          ih inner.depth (hdepth ▸ depth_lt_of_mem_constructorRecords hinner) hslots rfl)
        fun i slot => h (.constructor i slot)
    rw [exprIds_declarationReferences, Declaration.terms, hterms]
    exact List.rel_append (forall₂_toList (rel_label (h .type)))
      (List.rel_append (forall₂_toList (rel_label (h .value))) hconstructors)

/-- The terms of a loaded module were built for the term records that the declaration records refer to. -/
theorem Fills.holds_terms {dump : Json} {m : Module} {records : List Json} (h : s.Fills dump m)
    (hrecords : recordsOf dump.fields = .ok records) (htables : tablesOf dump.fields = .ok tables) :
    s.HoldsEach (exprIds (records.flatMap declarationReferences))
      (m.declarations.flatMap Declaration.terms) := by
  rw [exprIds_flatMap]
  refine holds_terms_of_each (fun _ _ _ => holds_terms_of_slots) fun i slot => ?_
  have hplace := h ⟨i, slot, []⟩
  simpa [referenceAt?, Module.termAt?, hrecords, htables, Except.toOption, Tables.referenceBelow?,
    Term.below?] using hplace

/-- What is reached from terms that were built was built. -/
theorem Mirrors.exists_id (h : s.Mirrors tables P) {ids : List Text} {roots : List Term}
    (hroots : s.HoldsEach ids roots) (ht : Term.Reached roots t) :
    ∃ id, lookup? s.exprs id = some t := by
  have of_mem {ids : List Text} {ts : List Term} (hts : s.HoldsEach ids ts) {u : Term} (hu : u ∈ ts) :
      ∃ id, lookup? s.exprs id = some u := by
    induction hts with
    | nil => cases hu
    | @cons id _ _ _ hfirst _ ih =>
      obtain rfl | hrest := List.mem_cons.mp hu
      · exact ⟨id, hfirst⟩
      · exact ih hrest
  obtain ⟨root, hroot, hreach⟩ := ht
  induction hreach with
  | refl => exact of_mem hroots hroot
  | tail _ hchild ih =>
    obtain ⟨id, hid⟩ := ih
    exact of_mem (h.holds_children hid) hchild

end Session

/-- A record that denotes a term is of an inner kind exactly if the term is no leaf, and the term is no
foreign object. -/
theorem DenotesExpr.exists_kind {tables : Tables} {ref : Json} {t : Term}
    (h : DenotesExpr tables ref t) :
    (∃ kind fields, tables.ExprRecord kind ref fields ∧ kind.isInner = !t.isLeaf) ∧
      ∀ id f, t ≠ .foreign id f := by
  cases h <;> exact ⟨⟨_, _, ‹_›, rfl⟩, nofun⟩

namespace Session

variable {s : Session} {tables : Tables} {P : Text → Prop} {id : Text} {t : Term} {ids : List Text}
  {roots : List Term}

/-- A term that was built is no leaf exactly if its record is of an inner kind. -/
theorem Sound.isInner_iff (h : s.Sound tables) (ht : lookup? s.exprs id = some t) :
    tables.IsInner id ↔ t.isLeaf = false := by
  obtain ⟨⟨kind, fields, hrecord, hinner⟩, -⟩ := (h.exprs id t ht).exists_kind
  have hleaf : t.tree.isLeaf = t.isLeaf := by cases t <;> rfl
  rw [hleaf] at hinner
  constructor
  · intro hgiven
    obtain ⟨kind', fields', hrecord', hinner'⟩ := hgiven
    obtain rfl := hrecord.kind_eq hrecord'
    rw [hinner] at hinner'
    simpa using hinner'
  · intro hnoleaf
    exact ⟨kind, fields, hrecord, by rw [hinner, hnoleaf]; rfl⟩

/-- Terms that a session built are one graph. -/
theorem Mirrors.oneGraph (h : s.Mirrors tables P) (hsound : s.Sound tables)
    (hroots : s.HoldsEach ids roots) : Term.OneGraph roots where
  known t ht id f heq := by
    obtain ⟨id', hid⟩ := h.exists_id hroots ht
    exact (hsound.exprs id' t hid).exists_kind.2 0 f (by rw [heq, Term.tree])
  same t u ht hu heq := by
    obtain ⟨a, ha⟩ := h.exists_id hroots ht
    obtain ⟨b, hb⟩ := h.exists_id hroots hu
    obtain rfl := h.distinct a b t u ha hb heq
    exact Option.some.inj (ha.symm.trans hb)

/-- A node is among terms as often as its id is among the ids that they were built for. -/
theorem Mirrors.count_ids (h : s.Mirrors tables P) (hroots : s.HoldsEach ids roots)
    (ht : lookup? s.exprs id = some t) : (roots.map Term.id).count t.id = ids.count id := by
  induction hroots with
  | nil => rfl
  | @cons other u _ _ hfirst _ ih =>
    have hsame : u.id = t.id ↔ other = id := by
      refine ⟨h.distinct other id u t hfirst ht, fun heq => ?_⟩
      subst heq
      rw [Option.some.inj (hfirst.symm.trans ht)]
    rw [List.map_cons, List.count_cons, List.count_cons, ih]
    simp only [beq_iff_eq, hsame]

/-- The term that was built for an id; for other ids it is of no meaning. -/
def termOf (s : Session) (id : Text) : Term :=
  (lookup? s.exprs id).getD (.boundVar 0 0)

/-- The term of an id is the one that is remembered for it. -/
theorem termOf_eq (h : lookup? s.exprs id = some t) : s.termOf id = t := by
  rw [termOf, h, Option.getD_some]

end Session

namespace Contents

/-- How often a term record is referred to: by the records of some ids, and by the declarations, their
constructors included. -/
def referenceCount (c : Contents) (ids : Finset Text) (id : Text) : Nat :=
  ∑ other ∈ ids, (c.tables.references (.exprs, other)).count (.exprs, id) +
    (c.declarations.flatMap declarationReferences).count (.exprs, id)

/-- The figures of the records of some ids. -/
def figures (c : Contents) (ids : Finset Text) : SharingMetrics where
  distinct := ids.card
  shared := (ids.filter fun id => 2 ≤ c.referenceCount ids id).card
  revisits := ∑ id ∈ ids, (c.referenceCount ids id - 1)

/-- The figures of records are those of the numbers of references to them. -/
theorem figures_eq_ofPlaces (c : Contents) (ids : Finset Text) :
    c.figures ids = SharingMetrics.ofPlaces (ids.toList.map (c.referenceCount ids)) := by
  have hshared : (ids.filter fun id => 2 ≤ c.referenceCount ids id).card =
      ids.toList.countP fun id => 2 ≤ c.referenceCount ids id := by
    rw [Finset.card_def, Finset.filter_val, ← Multiset.countP_eq_card_filter, ← Finset.coe_toList ids,
      Multiset.coe_countP]
  have hrevisits : ∑ id ∈ ids, (c.referenceCount ids id - 1) =
      (ids.toList.map fun id => c.referenceCount ids id - 1).sum :=
    (Finset.sum_map_toList ids _).symm
  rw [figures, SharingMetrics.ofPlaces, List.length_map, Finset.length_toList, List.countP_map,
    List.map_map, hshared, hrevisits]
  rfl

variable {c : Contents} {s : Session} {P : Text → Prop} {ids : Finset Text} {roots : List Term}
  {id : Text} {t : Term}

/-- As many places hold a node as there are references to its record. -/
theorem places_eq_referenceCount (hmirrors : s.Mirrors c.tables P)
    (hroots : s.HoldsEach (exprIds (c.declarations.flatMap declarationReferences)) roots)
    (hids : ∀ id ∈ ids, ∃ t, lookup? s.exprs id = some t) (ht : lookup? s.exprs id = some t) :
    Term.places (ids.toList.map s.termOf) roots t = c.referenceCount ids id := by
  have hslots : Term.slots (ids.toList.map s.termOf) t.id =
      ∑ other ∈ ids, (c.tables.references (.exprs, other)).count (.exprs, id) := by
    rw [Term.slots, List.map_flatMap, List.count_flatMap, List.map_map, ← Finset.sum_map_toList]
    refine congrArg List.sum (List.map_congr_left fun other hother => ?_)
    obtain ⟨u, hu⟩ := hids other (Finset.mem_toList.mp hother)
    have hcount := hmirrors.count_ids (hmirrors.holds_children hu) ht
    rw [count_exprIds] at hcount
    rw [← hcount, Function.comp_apply, Function.comp_apply, Session.termOf_eq hu]
  rw [Term.places, referenceCount, hslots, hmirrors.count_ids hroots ht, count_exprIds]

end Contents

namespace Session

variable {s : Session} {tables : Tables} {dump : Json} {m : Module} {id : Text} {t : Term}

/-- The ids for which a session built inner nodes. -/
def innerIds (s : Session) : Finset Text :=
  (s.exprs.map Prod.fst).toFinset.filter fun id => (s.termOf id).isLeaf = false

/-- The inner ids are those of remembered terms that are no leaves. -/
theorem mem_innerIds_iff :
    id ∈ s.innerIds ↔ lookup? s.exprs id = some (s.termOf id) ∧ (s.termOf id).isLeaf = false := by
  rw [innerIds, Finset.mem_filter, List.mem_toFinset]
  refine and_congr_left fun hinner => ⟨fun _ => ?_, fun hbuilt => ?_⟩
  · cases hbuilt : lookup? s.exprs id with
    | none =>
      rw [termOf, hbuilt] at hinner
      cases hinner
    | some t => rw [termOf_eq hbuilt]
  · obtain ⟨entry, hentry, -⟩ := Option.map_eq_some_iff.mp hbuilt
    have hid : entry.1 = id := by simpa using List.find?_some hentry
    exact hid ▸ List.mem_map_of_mem (List.mem_of_find?_eq_some hentry)

/-- A term on a way down from another one is reached from it. -/
theorem reaches_of_below? {way : List Nat} {u : Term} (h : t.below? way = some u) : t.Reaches u := by
  induction way generalizing t with
  | nil => exact Option.some.inj h ▸ .refl
  | cons i way ih =>
    obtain ⟨child, hchild, hbelow⟩ := Option.bind_eq_some_iff.mp h
    exact .head (List.mem_of_getElem? hchild) (ih hbelow)

/-- A term that was built for an id that is reached is reached from the terms of the declarations. -/
theorem Fills.reached (h : s.Fills dump m) (hreached : ReachedId dump id)
    (ht : lookup? s.exprs id = some t) :
    Term.Reached (m.declarations.flatMap Declaration.terms) t := by
  obtain ⟨p, u, hu, hbuilt⟩ := h.exists_place hreached
  obtain rfl : u = t := Option.some.inj (hbuilt.symm.trans ht)
  obtain ⟨d, hd, hbelow⟩ := Option.bind_eq_some_iff.mp hu
  obtain ⟨root, hroot, hway⟩ := Option.bind_eq_some_iff.mp hbelow
  refine ⟨root, List.mem_flatMap.mpr ⟨d, List.mem_of_getElem? hd, ?_⟩, reaches_of_below? hway⟩
  exact d.mem_terms_iff.mpr ⟨p.slot, hroot⟩

/-- The nodes that were built for different ids are different. -/
theorem Mirrors.nodup_innerNodes {P : Text → Prop} (h : s.Mirrors tables P) :
    (s.innerIds.toList.map s.termOf).Nodup := by
  apply List.Nodup.map_on _ s.innerIds.nodup_toList
  intro a ha b hb heq
  have hbuilt (id : Text) (hid : id ∈ s.innerIds.toList) : lookup? s.exprs id = some (s.termOf id) :=
    (mem_innerIds_iff.mp (Finset.mem_toList.mp hid)).1
  exact h.distinct a b _ _ (hbuilt a ha) (hbuilt b hb) (congrArg Term.id heq)

/-- The nodes that were built are the inner nodes of the declarations. -/
theorem Mirrors.mem_innerNodes_iff (h : s.Mirrors tables (ReachedId dump)) (hfills : s.Fills dump m)
    {ids : List Text} (hroots : s.HoldsEach ids (m.declarations.flatMap Declaration.terms)) :
    t ∈ s.innerIds.toList.map s.termOf ↔
      Term.Reached (m.declarations.flatMap Declaration.terms) t ∧ t.isLeaf = false := by
  simp only [List.mem_map, Finset.mem_toList]
  constructor
  · intro hmem
    obtain ⟨id, hid, rfl⟩ := hmem
    obtain ⟨hbuilt, hinner⟩ := mem_innerIds_iff.mp hid
    exact ⟨hfills.reached (h.within id _ hbuilt) hbuilt, hinner⟩
  · intro hmem
    obtain ⟨id, hid⟩ := h.exists_id hroots hmem.1
    have hterm : s.termOf id = t := termOf_eq hid
    exact ⟨id, mem_innerIds_iff.mpr (by rw [hterm]; exact ⟨hid, hmem.2⟩), hterm⟩

/-- The ids of inner nodes are those of the records of an inner kind that are reached. -/
theorem Mirrors.mem_innerIds_iff_reached (h : s.Mirrors tables (ReachedId dump)) (hfills : s.Fills dump m)
    (hsound : s.Sound tables) : id ∈ s.innerIds ↔ ReachedId dump id ∧ tables.IsInner id := by
  rw [mem_innerIds_iff]
  constructor
  · intro hid
    exact ⟨h.within id _ hid.1, (hsound.isInner_iff hid.1).mpr hid.2⟩
  · intro hid
    obtain ⟨p, t, -, ht⟩ := hfills.exists_place hid.1
    rw [termOf_eq ht]
    exact ⟨ht, (hsound.isInner_iff ht).mp hid.2⟩

end Session

section

variable {c : Contents} {dump : Json} {m : Module}

/-- The terms of a loaded module are one graph, and its figures are those of the records of an inner kind
that are reached. -/
theorem exists_figures (hheld : c.HeldBy dump) (hload : load dump = .ok m) :
    ∃ ids : Finset Text, (∀ id, id ∈ ids ↔ ReachedId dump id ∧ c.tables.IsInner id) ∧
      (∀ id ∈ ids, 0 < c.referenceCount ids id) ∧
      Term.OneGraph (m.declarations.flatMap Declaration.terms) ∧
      SharingMetrics.ofDeclarations m.declarations = .ok (c.figures ids) := by
  obtain ⟨c', s, hheld', hrun, hsound, -⟩ := Contents.exists_heldBy_of_load hload
  obtain rfl := hheld.unique hheld'
  have hparts : tablesOf dump.fields = .ok c.tables ∧ recordsOf dump.fields = .ok c.declarations := by
    obtain ⟨fields, rfl, htables, -, hrecords⟩ := hheld
    exact ⟨htables, hrecords⟩
  obtain ⟨htables, hrecords⟩ := hparts
  obtain ⟨hmirrors, hfills⟩ := mirrors_of_moduleOf hrecords htables hrun
  have hroots := hfills.holds_terms hrecords htables
  have graph := hmirrors.oneGraph hsound hroots
  have hnodes := fun t => hmirrors.mem_innerNodes_iff (t := t) hfills hroots
  have hbuilt (id : Text) (hid : id ∈ s.innerIds) : lookup? s.exprs id = some (s.termOf id) :=
    (Session.mem_innerIds_iff.mp hid).1
  have hplaces (id : Text) (hid : id ∈ s.innerIds) :=
    Contents.places_eq_referenceCount hmirrors hroots (fun id hid => ⟨_, hbuilt id hid⟩) (hbuilt id hid)
  obtain ⟨tally, htally, hfigures⟩ :=
    SharingMetrics.exists_countAll_of_graph graph hmirrors.nodup_innerNodes hnodes
  refine ⟨s.innerIds, fun id => hmirrors.mem_innerIds_iff_reached hfills hsound, fun id hid => ?_, graph, ?_⟩
  · rw [← hplaces id hid]
    have hreached := hfills.reached (hmirrors.within id _ (hbuilt id hid)) (hbuilt id hid)
    exact Term.places_pos (fun u hu hinner => (hnodes u).mpr ⟨hu, hinner⟩) hreached
  · have hcounts : s.innerIds.toList.map (c.referenceCount s.innerIds) =
        (s.innerIds.toList.map s.termOf).map
          (Term.places (s.innerIds.toList.map s.termOf) (m.declarations.flatMap Declaration.terms)) := by
      rw [List.map_map]
      exact List.map_congr_left fun id hid => (hplaces id (Finset.mem_toList.mp hid)).symm
    rw [SharingMetrics.ofDeclarations, htally, Contents.figures_eq_ofPlaces, hcounts, ← hfigures]
    rfl

end

end TermText.Dump
