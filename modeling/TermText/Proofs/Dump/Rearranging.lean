import TermText.Proofs.Dump.Sharing

/-!
# Rearranged declarations

Whether a declaration record can be read does not depend on the records beside it, nor does it matter in
which order a family lists its constructors. So a dump whose declarations are rearranged is loaded, too,
and its sharing has the same figures, since records and references are only counted.
-/

namespace TermText.Dump

/-- What a record of a kind holds by its kind alone can be read; the constructors of a family are only
listed. -/
def PayloadReadable (M : Meaning) (fields : Json.Fields) : DeclarationKind → Prop
  | .assumption | .eliminator => True
  | .definition | .proof | .sealed => ∃ ref, fields.get? "value" = some ref ∧ ∃ t, M.expr ref t
  | .quotient => (∃ given, fields.get? "quot_kind" = some given ∧ ∃ q, QuotientKind.ofJson? given = some q) ∧
      ∃ ref, fields.get? "type_name" = some ref ∧ ∃ n, M.name ref n
  | .family => ∃ items, ((fields.get? "constructors").getD (.list [])).listed? = some items
  | .constructor => ∃ ref, fields.get? "induct" = some ref ∧ ∃ n, M.name ref n

/-- A declaration record can be read: its name, its type, what it holds by its kind, and the records of its
constructors. -/
inductive Readable (M : Meaning) : Json → Prop
  | object {fields : Json.Fields} {kind : DeclarationKind}
      (hname : ∃ ref, fields.get? "name" = some ref ∧ ∃ n, M.name ref n)
      (htype : ∃ ref, fields.get? "type" = some ref ∧ ∃ t, M.expr ref t)
      (hkind : declarationKind? (.object fields) = some kind) (hpayload : PayloadReadable M fields kind)
      (hconstructors : ∀ inner ∈ constructorRecords (.object fields), Readable M inner) :
      Readable M (.object fields)

/-- Declaration records that stand in another order, and those of families among them whose constructors
do. -/
inductive Rearranged : List Json → List Json → Prop
  | perm {records records' : List Json} (h : records.Perm records') : Rearranged records records'
  | within {before after items items' : List Json} {fields fields' : Json.Fields}
      (hfields : ∀ key : Text, key ≠ "constructors" → fields.get? key = fields'.get? key)
      (hitems : fields.get? "constructors" = some (.list items))
      (hitems' : fields'.get? "constructors" = some (.list items')) (h : Rearranged items items') :
      Rearranged (before ++ .object fields :: after) (before ++ .object fields' :: after)
  | trans {records records' records'' : List Json} (h : Rearranged records records')
      (h' : Rearranged records' records'') : Rearranged records records''

variable {M : Meaning} {records records' : List Json}

namespace Recipe

/-- Recipes for several values yield something if each of them does. -/
theorem yields_each_iff_forall {α : Type} {step : Json → Recipe α} {values : List Json} :
    (each step values).Yields M (fun _ => True) ↔
      ∀ value ∈ values, (step value).Yields M fun _ => True := by
  induction values with
  | nil => simp [each]
  | cons value rest ih =>
    simp only [each, yields_bind, pure_eq_done, yields_done, List.forall_mem_cons, ← ih]
    constructor
    · intro h
      obtain ⟨x, hx, hrest⟩ := yields_iff_exists.mp h
      exact ⟨yields_iff_exists.mpr ⟨x, hx, trivial⟩, hrest⟩
    · intro h
      obtain ⟨x, hx, -⟩ := yields_iff_exists.mp h.1
      exact yields_iff_exists.mpr ⟨x, hx, h.2⟩

/-- A payload is yielded if what the record holds can be read and its constructors are yielded. -/
theorem yields_ofPayload_iff (declare : Json → Recipe Declaration) (fields : Json.Fields) :
    (ofPayload declare (.object fields)).Yields M (fun _ => True) ↔
      ∃ kind, declarationKind? (.object fields) = some kind ∧ PayloadReadable M fields kind ∧
        ∀ inner ∈ constructorRecords (.object fields), (declare inner).Yields M fun _ => True := by
  rw [yields_ofPayload]
  simp only [Json.object.injEq, exists_and_left, exists_eq_left', and_true]
  refine exists_congr fun kind => and_congr_right fun hkind => ?_
  by_cases hfamily : kind = .family
  · subst hfamily
    rw [← yields_each_iff_forall, yields_each]
    simp only [PayloadReadable, and_true]
    refine and_congr_left fun _ => ⟨fun h => ⟨_, h⟩, fun h => ?_⟩
    obtain ⟨items, hitems⟩ := h
    rw [hitems, constructorRecords_of_family hkind, Json.fields, hitems, Option.getD_some]
  · rw [constructorRecords_of_ne (by simp [hkind, hfamily])]
    cases kind with
    | family => exact absurd rfl hfamily
    | quotient => simp [PayloadReadable, ← and_assoc]
    | _ => simp [PayloadReadable]

/-- A declaration is yielded if its record can be read. -/
theorem yields_ofDeclaration_iff {record : Json} {bound : Nat} (h : record.depth < bound) :
    (ofDeclaration bound record).Yields M (fun _ => True) ↔ Readable M record := by
  induction bound generalizing record with
  | zero => omega
  | succ bound ih =>
    simp only [ofDeclaration, yields_blaming, yields_bind, yields_named, yields_child, pure_eq_done,
      yields_done]
    have hinner (inner : Json) (hmem : inner ∈ constructorRecords record) :=
      ih (Nat.lt_of_lt_of_le (depth_lt_of_mem_constructorRecords hmem) (Nat.le_of_lt_succ h))
    constructor
    · intro hyields
      obtain ⟨fields, ref, rfl, href, n, hn, _, type, hfields, htype, t, ht, hpayload⟩ := hyields
      cases hfields
      obtain ⟨kind, hkind, hreadable, hconstructors⟩ := (yields_ofPayload_iff _ fields).mp hpayload
      exact .object ⟨ref, href, n, hn⟩ ⟨type, htype, t, ht⟩ hkind hreadable fun inner hmem =>
        (hinner inner hmem).mp (hconstructors inner hmem)
    · intro hreadable
      obtain @⟨fields, kind, ⟨ref, href, n, hn⟩, ⟨type, htype, t, ht⟩, hkind, hpayload, hconstructors⟩ :=
        hreadable
      refine ⟨fields, ref, rfl, href, n, hn, fields, type, rfl, htype, t, ht, ?_⟩
      exact (yields_ofPayload_iff _ fields).mpr ⟨kind, hkind, hpayload, fun inner hmem =>
        (hinner inner hmem).mpr (hconstructors inner hmem)⟩

end Recipe

/-- The constructors that a record holds: those in its field if it is of a family. -/
theorem constructorRecords_object {fields : Json.Fields} {items : List Json}
    (h : fields.get? "constructors" = some (.list items)) :
    constructorRecords (.object fields) =
      if declarationKind? (.object fields) = some .family then items else [] := by
  by_cases hfamily : declarationKind? (.object fields) = some .family
  · rw [constructorRecords_of_family hfamily, if_pos hfamily, Json.fields, h]
    rfl
  · rw [constructorRecords_of_ne hfamily, if_neg hfamily]

/-- Fields that differ in the constructors only name the same kind. -/
theorem declarationKind?_congr {fields fields' : Json.Fields}
    (hfields : ∀ key : Text, key ≠ "constructors" → fields.get? key = fields'.get? key) :
    declarationKind? (.object fields') = declarationKind? (.object fields) := by
  rw [declarationKind?, declarationKind?, Json.fields, Json.fields, hfields "kind" (by decide)]

/-- Rearranged records can be read, too. -/
theorem Rearranged.readable (h : Rearranged records records') :
    (∀ record ∈ records, Readable M record) → ∀ record ∈ records', Readable M record := by
  induction h with
  | perm h => exact fun hall record hmem => hall record (h.mem_iff.mpr hmem)
  | @within before after items items' fields fields' hfields hitems hitems' _ ih =>
    intro hall
    simp only [List.forall_mem_append, List.forall_mem_cons] at hall ⊢
    refine ⟨hall.1, ?_, hall.2.2⟩
    obtain @⟨_, kind, hname, htype, hkind, hpayload, hconstructors⟩ := hall.2.1
    have hkind' := (declarationKind?_congr hfields).trans hkind
    rw [constructorRecords_object hitems] at hconstructors
    refine .object (hfields "name" (by decide) ▸ hname) (hfields "type" (by decide) ▸ htype) hkind' ?_ ?_
    · cases kind with
      | family => exact ⟨items', by rw [hitems']; rfl⟩
      | assumption | eliminator => trivial
      | definition | proof | sealed =>
        rw [PayloadReadable] at hpayload ⊢
        rwa [← hfields "value" (by decide)]
      | quotient =>
        rw [PayloadReadable] at hpayload ⊢
        rwa [← hfields "quot_kind" (by decide), ← hfields "type_name" (by decide)]
      | constructor =>
        rw [PayloadReadable] at hpayload ⊢
        rwa [← hfields "induct" (by decide)]
    · rw [constructorRecords_object hitems', hkind']
      rw [hkind] at hconstructors
      split
      · next hfamily => exact ih (by rwa [if_pos hfamily] at hconstructors)
      · exact List.forall_mem_nil _
  | trans _ _ ih ih' => exact ih' ∘ ih

/-- Rearranged records refer to the same records, in another order. -/
theorem Rearranged.perm_references (h : Rearranged records records') :
    (records.flatMap declarationReferences).Perm (records'.flatMap declarationReferences) := by
  induction h with
  | perm h => exact h.flatMap_right declarationReferences
  | @within before after items items' fields fields' hfields hitems hitems' _ ih =>
    have hkind := declarationKind?_congr hfields
    have hkeys (keys : Json → List Key) (key : Text) (hkey : key ≠ "constructors") :
        fieldKeys keys key fields' = fieldKeys keys key fields := by
      rw [fieldKeys, fieldKeys, hfields key hkey]
    have hpayload : payloadReferences (.object fields') = payloadReferences (.object fields) := by
      rw [payloadReferences, payloadReferences, hkind, Json.fields, Json.fields,
        hkeys _ "value" (by decide), hkeys _ "type_name" (by decide), hkeys _ "induct" (by decide)]
    have hconstructors : ((constructorRecords (.object fields)).flatMap declarationReferences).Perm
        ((constructorRecords (.object fields')).flatMap declarationReferences) := by
      rw [constructorRecords_object hitems, constructorRecords_object hitems', hkind]
      split
      · exact ih
      · exact .refl _
    have hrecord : (declarationReferences (.object fields)).Perm
        (declarationReferences (.object fields')) := by
      rw [declarationReferences_eq (.object fields), declarationReferences_eq (.object fields'), hpayload,
        Json.fields, Json.fields, hkeys _ "name" (by decide), hkeys _ "type" (by decide)]
      exact ((hconstructors.append_left _).append_left _).append_left _
    rw [List.flatMap_append, List.flatMap_append, List.flatMap_cons, List.flatMap_cons]
    exact (hrecord.append_right _).append_left _
  | trans _ _ ih ih' => exact ih.trans ih'

namespace Contents

variable {c : Contents} {dump : Json}

/-- A dump is loaded exactly if the name of its module and its declaration records can be read. -/
theorem HeldBy.loads_iff (h : c.HeldBy dump) : (∃ m, load dump = .ok m) ↔
    (∃ n, DenotesName c.tables c.module n) ∧
      ∀ record ∈ c.declarations, Readable c.tables.meaning record := by
  have hdenotes : (∃ m, load dump = .ok m) ↔
      (Recipe.ofModule c).Yields c.tables.meaning fun _ => True := by
    rw [Recipe.yields_iff_exists]
    constructor
    · intro hload
      obtain ⟨m, hm⟩ := hload
      obtain ⟨a, ha, -⟩ := Recipe.yields_iff_exists.mp (h.exists_load_iff.mp ⟨m, hm, rfl⟩)
      exact ⟨a, ha, trivial⟩
    · intro hyields
      obtain ⟨a, ha, -⟩ := hyields
      have htree : c.Denotes a.tree := Recipe.yields_iff_exists.mpr ⟨a, ha, rfl⟩
      obtain ⟨m, hm, -⟩ := h.exists_load_iff.mpr htree
      exact ⟨m, hm⟩
  rw [hdenotes, Recipe.ofModule, Recipe.Yields]
  simp only [Recipe.yields_bind, Recipe.pure_eq_done, Recipe.yields_done,
    Recipe.yields_each_iff_forall, exists_and_right]
  refine and_congr_right fun _ => forall₂_congr fun record _ => ?_
  exact Recipe.yields_ofDeclaration_iff record.depth.lt_succ_self

/-- An id is reached from the declarations of a dump if it is from one that their records refer to. -/
theorem HeldBy.reachedId_iff (h : c.HeldBy dump) {id : Text} : ReachedId dump id ↔
    ∃ root, (.exprs, root) ∈ c.declarations.flatMap declarationReferences ∧
      c.tables.Reaches (.exprs, root) (.exprs, id) := by
  obtain ⟨fields, rfl, htables, -, hrecords⟩ := h
  simp only [List.mem_flatMap, Recipe.mem_declarationReferences_iff]
  constructor
  · intro hreached
    obtain ⟨records, tables, hrecords', htables', record, hmem, slot, ref, root, href, hlabel, hreach⟩ :=
      hreached
    obtain rfl := Except.ok.inj (hrecords.symm.trans hrecords')
    obtain rfl := Except.ok.inj (htables.symm.trans htables')
    exact ⟨root, ⟨record, hmem, slot, ref, href, hlabel⟩, hreach⟩
  · intro hreached
    obtain ⟨root, ⟨record, hmem, slot, ref, href, hlabel⟩, hreach⟩ := hreached
    exact ⟨c.declarations, c.tables, hrecords, htables, record, hmem, slot, ref, root, href, hlabel, hreach⟩

end Contents

/-- The sharing of a loaded module is that of the records of its dump. -/
structure SharesAsRecords (dump : Json) (m : Module) (c : Contents) (ids : Finset Text) : Prop where
  contents : c.HeldBy dump
  /-- The records that count are those of an inner kind that are reached from the declarations. -/
  inner : ∀ id, id ∈ ids ↔ ReachedId dump id ∧ c.tables.IsInner id
  /-- Something refers to each of them. -/
  referred : ∀ id ∈ ids, 0 < c.referenceCount ids id
  /-- The figures of the declarations are those of the records. -/
  figures : SharingMetrics.ofDeclarations m.declarations = .ok (c.figures ids)
  /-- The declarations may be rearranged after they were loaded. -/
  rearranged : ∀ ds, Declaration.Rearranged m.declarations ds →
    SharingMetrics.ofDeclarations ds = .ok (c.figures ids)
  /-- The records may be rearranged before they are loaded. -/
  reloaded : ∀ records dump', Rearranged c.declarations records →
    Contents.HeldBy { c with declarations := records } dump' →
      ∃ m', load dump' = .ok m' ∧ SharingMetrics.ofDeclarations m'.declarations = .ok (c.figures ids)

/-- Whatever is loaded, the figures of its declarations count the term records of an inner kind that are
reached, those that are referred to more than once, and the references beyond the first one, in whatever
order the declarations and the constructors of families stand. -/
theorem load_shares_as_records {dump : Json} {m : Module} (h : load dump = .ok m) :
    ∃ c ids, SharesAsRecords dump m c ids := by
  obtain ⟨c, -, hheld, -⟩ := Contents.exists_heldBy_of_load h
  obtain ⟨ids, hinner, hreferred, graph, hfigures⟩ := exists_figures hheld h
  refine ⟨c, ids, hheld, hinner, hreferred, hfigures, fun ds hds => ?_,
    fun records dump' hrecords hheld' => ?_⟩
  · rw [SharingMetrics.ofDeclarations_of_rearranged graph hds, hfigures]
  · obtain ⟨hname, hreadable⟩ := hheld.loads_iff.mp ⟨m, h⟩
    obtain ⟨m', hload'⟩ := hheld'.loads_iff.mpr ⟨hname, hrecords.readable hreadable⟩
    obtain ⟨ids', hinner', -, -, hfigures'⟩ := exists_figures hheld' hload'
    have hids : ids' = ids := by
      refine Finset.ext fun id => ?_
      rw [hinner', hinner, hheld.reachedId_iff, hheld'.reachedId_iff]
      simp only [hrecords.perm_references.mem_iff]
    have hcounts : Contents.referenceCount { c with declarations := records } ids = c.referenceCount ids :=
      funext fun id => by
        rw [Contents.referenceCount, Contents.referenceCount, hrecords.perm_references.count_eq]
    refine ⟨m', hload', ?_⟩
    rw [hfigures', hids, Contents.figures, Contents.figures, hcounts]

/-- A pair that a theorem and a constructor share, and a family of two constructors. -/
theorem load_shares_as_records_across_constructors :
    let pair : Json := .object [("kind", .text "app"), ("fn", .text "a"), ("arg", .text "a")]
    let rule (id : Text) : Json :=
      .object [("name", .null), ("type", .text id), ("kind", .text "constructor"), ("induct", .null)]
    let dump : Json := .object
      [("exprs", .object
          [("a", .object [("kind", .text "bvar"), ("index", .int 0)]), ("f", pair),
            ("p", .object [("kind", .text "pi"), ("type", .text "f"), ("body", .text "f")])]),
        ("declarations", .list
          [.object [("name", .null), ("type", .text "p"), ("kind", .text "inductive"),
              ("constructors", .list [rule "f", rule "p"])],
            .object [("name", .null), ("type", .text "a"), ("kind", .text "theorem"),
              ("value", .text "f")]])]
    ∃ m c ids, load dump = .ok m ∧ SharesAsRecords dump m c ids ∧ c.figures ids = ⟨2, 2, 4⟩ := by
  intro pair rule dump
  obtain ⟨m, hload, hfigures⟩ : ∃ m, load dump = .ok m ∧
      SharingMetrics.ofDeclarations m.declarations = .ok ⟨2, 2, 4⟩ := ⟨_, rfl, by cbv⟩
  obtain ⟨c, ids, h⟩ := load_shares_as_records hload
  exact ⟨m, c, ids, hload, h, Except.ok.inj (h.figures.symm.trans hfigures)⟩

end TermText.Dump
