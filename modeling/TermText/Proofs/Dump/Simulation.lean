import TermText.Proofs.Dump.Contents

/-!
# Dumps that follow one another

Two recipes match if they ask for related references and go on alike whatever is found. If the recipes
of related records match, then related references denote the same; so whatever one dump denotes, the
other one does. Only success is carried over, in one direction: where the first recipe fails, nothing is
asked of the second one.
-/

namespace TermText.Dump

variable {α β : Type} {ρ : Table → Json → Json → Prop}

namespace Recipe

/-- Recipes that ask for related references, whatever is found, and end in the same object unless the
first one fails. -/
def Matches (ρ : Table → Json → Json → Prop) : Recipe α → Recipe α → Prop
  | .fail _, _ => True
  | .done a, .done b => a = b
  | .askName ref next, .askName ref' next' => ρ .names ref ref' ∧ ∀ n, Matches ρ (next n) (next' n)
  | .askLevel ref next, .askLevel ref' next' => ρ .levels ref ref' ∧ ∀ l, Matches ρ (next l) (next' l)
  | .askExpr ref next, .askExpr ref' next' => ρ .exprs ref ref' ∧ ∀ t, Matches ρ (next t) (next' t)
  | _, _ => False

/-- A recipe yields what a matching one does, if related references stand for the same. -/
theorem Matches.yields {M M' : Meaning} {Q : α → Prop} {r r' : Recipe α} (h : r.Matches ρ r')
    (hname : ∀ ref ref' n, ρ .names ref ref' → M.name ref n → M'.name ref' n)
    (hlevel : ∀ ref ref' l, ρ .levels ref ref' → M.level ref l → M'.level ref' l)
    (hexpr : ∀ ref ref' t, ρ .exprs ref ref' → M.expr ref t → M'.expr ref' t)
    (hyields : r.Yields M Q) : r'.Yields M' Q := by
  induction r generalizing r' with
  | done a =>
    cases r' with
    | done b => exact (h : a = b) ▸ hyields
    | _ => exact h.elim
  | fail e => exact hyields.elim
  | askName ref next ih =>
    cases r' with
    | askName ref' next' =>
      obtain ⟨n, hn, hyields⟩ := hyields
      exact ⟨n, hname ref ref' n h.1 hn, ih n (h.2 n) hyields⟩
    | _ => exact h.elim
  | askLevel ref next ih =>
    cases r' with
    | askLevel ref' next' =>
      obtain ⟨l, hl, hyields⟩ := hyields
      exact ⟨l, hlevel ref ref' l h.1 hl, ih l (h.2 l) hyields⟩
    | _ => exact h.elim
  | askExpr ref next ih =>
    cases r' with
    | askExpr ref' next' =>
      obtain ⟨t, ht, hyields⟩ := hyields
      exact ⟨t, hexpr ref ref' t h.1 ht, ih t (h.2 t) hyields⟩
    | _ => exact h.elim

/-- Matching recipes that are continued by matching ones match. -/
theorem Matches.bind {r r' : Recipe α} {f f' : α → Recipe β} (h : r.Matches ρ r')
    (hf : ∀ a, (f a).Matches ρ (f' a)) : (r >>= f).Matches ρ (r' >>= f') := by
  induction r generalizing r' with
  | done a =>
    cases r' with
    | done b => exact (h : a = b) ▸ hf a
    | _ => exact h.elim
  | fail e => trivial
  | askName ref next ih =>
    cases r' with
    | askName ref' next' => exact ⟨h.1, fun n => ih n (h.2 n)⟩
    | _ => exact h.elim
  | askLevel ref next ih =>
    cases r' with
    | askLevel ref' next' => exact ⟨h.1, fun l => ih l (h.2 l)⟩
    | _ => exact h.elim
  | askExpr ref next ih =>
    cases r' with
    | askExpr ref' next' => exact ⟨h.1, fun t => ih t (h.2 t)⟩
    | _ => exact h.elim

/-- Matching recipes match whatever becomes of their errors. -/
theorem Matches.blaming {r r' : Recipe α} (h : r.Matches ρ r') (blame blame' : Error → Error) :
    (r.blaming blame).Matches ρ (r'.blaming blame') := by
  induction r generalizing r' with
  | done a =>
    cases r' with
    | done b => exact h
    | _ => exact h.elim
  | fail e => trivial
  | askName ref next ih =>
    cases r' with
    | askName ref' next' => exact ⟨h.1, fun n => ih n (h.2 n)⟩
    | _ => exact h.elim
  | askLevel ref next ih =>
    cases r' with
    | askLevel ref' next' => exact ⟨h.1, fun l => ih l (h.2 l)⟩
    | _ => exact h.elim
  | askExpr ref next ih =>
    cases r' with
    | askExpr ref' next' => exact ⟨h.1, fun t => ih t (h.2 t)⟩
    | _ => exact h.elim

/-- Recipes for several values match if those for each value do. -/
theorem matches_each {step step' : Json → Recipe α} {values values' : List Json}
    (h : List.Forall₂ (fun value value' => (step value).Matches ρ (step' value')) values values') :
    (each step values).Matches ρ (each step' values') := by
  induction h with
  | nil => rfl
  | cons hfirst _ ih => exact hfirst.bind fun x => ih.bind fun xs => rfl

/-- A recipe that can only fail matches any other one. -/
theorem matches_refusal (x : Except Numeral.Error Text) (e : Text → Error) (r : Recipe α) :
    (written x >>= fun shown => fail (e shown)).Matches ρ r := by
  cases x <;> trivial

/-- A recipe that ends at once matches itself. -/
theorem Ends.matches {r : Recipe α} (h : r.Ends) : r.Matches ρ r := by
  obtain ⟨a, rfl⟩ | ⟨e, rfl, -⟩ := h
  · rfl
  · trivial

end Recipe

/-- The records that a reference to a table stands for. -/
def keysOf : Table → Json → List Key
  | .names => nameKeys
  | .levels => levelKeys
  | .exprs => exprKeys

/-- References related to themselves alone, if they stand for records of a kind. -/
def Staying (P : Key → Prop) (table : Table) (ref ref' : Json) : Prop :=
  ref = ref' ∧ ∀ key ∈ keysOf table ref, P key

/-- A recipe matches itself, all of its references staying. -/
theorem Recipe.SameCourse.matches {ν : Type} {View : α → ν → Prop} {P : Key → Prop} {refs : List Key}
    {r : Recipe α} (h : r.SameCourse View refs r) (hrefs : ∀ key ∈ refs, P key) :
    r.Matches (Staying P) r := by
  induction r generalizing refs with
  | done a => rfl
  | fail e => trivial
  | askName ref next ih =>
    obtain ⟨_, rest, rfl, hnext⟩ := h
    obtain ⟨hasked, hrest⟩ := List.forall_mem_append.mp hrefs
    exact ⟨⟨rfl, hasked⟩, fun n => ih n (hnext n) hrest⟩
  | askLevel ref next ih =>
    obtain ⟨_, rest, rfl, hnext⟩ := h
    obtain ⟨hasked, hrest⟩ := List.forall_mem_append.mp hrefs
    exact ⟨⟨rfl, hasked⟩, fun l => ih l (hnext l) hrest⟩
  | askExpr ref next ih =>
    obtain ⟨_, rest, rfl, hnext⟩ := h
    obtain ⟨hasked, hrest⟩ := List.forall_mem_append.mp hrefs
    exact ⟨⟨rfl, hasked⟩, fun t => ih t (hnext t t rfl) hrest⟩

/-- Tables that follow other ones: a reference that stands for a record is related to references that
stand for records with matching recipes only, and null, which is no name, to null. -/
structure Tables.Follows (ρ : Table → Json → Json → Prop) (tables tables' : Tables) : Prop where
  null : ∀ ref', ρ .names .null ref' → ref' = .null
  name : ∀ ref ref' id record, ref ≠ .null → ρ .names ref ref' → ref.label = .ok id →
    Json.Fields.get? tables.names id = some record → ref' ≠ .null ∧
      ∃ id' record', ref'.label = .ok id' ∧ Json.Fields.get? tables'.names id' = some record' ∧
        (Recipe.ofName id record).Matches ρ (Recipe.ofName id' record')
  level : ∀ ref ref' id record, ρ .levels ref ref' → ref.label = .ok id →
    Json.Fields.get? tables.levels id = some record →
      ∃ id' record', ref'.label = .ok id' ∧ Json.Fields.get? tables'.levels id' = some record' ∧
        (Recipe.ofLevel id record).Matches ρ (Recipe.ofLevel id' record')
  expr : ∀ ref ref' id record, ρ .exprs ref ref' → ref.label = .ok id →
    Json.Fields.get? tables.exprs id = some record →
      ∃ id' record', ref'.label = .ok id' ∧ Json.Fields.get? tables'.exprs id' = some record' ∧
        (Recipe.ofExpr id record).Matches ρ (Recipe.ofExpr id' record')

namespace Tables.Follows

variable {tables tables' : Tables} {ref ref' : Json}

/-- Related references denote the same names. -/
theorem denotesName (h : tables.Follows ρ tables') {n : Name} (hn : DenotesName tables ref n)
    (href : ρ .names ref ref') : DenotesName tables' ref' n := by
  refine DenotesName.induct (motive := fun ref n => ∀ ref', ρ .names ref ref' →
    DenotesName tables' ref' n) ?_ ?_ hn ref' href
  · intro ref' href
    rw [h.null ref' href]
    exact .null
  · intro ref id record n hnull hlabel hrecord hyields ref' href
    obtain ⟨hnull', id', record', hlabel', hrecord', hmatches⟩ :=
      h.name ref ref' id record hnull href hlabel hrecord
    refine .of_yields hnull' hlabel' hrecord' (hmatches.yields ?_ ?_ ?_ hyields)
    · exact fun inner inner' n hinner hn => hn.2 inner' hinner
    · exact fun _ _ _ _ hl => hl.elim
    · exact fun _ _ _ _ ht => ht.elim

/-- Related references denote the same levels. -/
theorem denotesLevel (h : tables.Follows ρ tables') {l : Level} (hl : DenotesLevel tables ref l)
    (href : ρ .levels ref ref') : DenotesLevel tables' ref' l := by
  refine DenotesLevel.induct (motive := fun ref l => ∀ ref', ρ .levels ref ref' →
    DenotesLevel tables' ref' l) ?_ hl ref' href
  intro ref id record l hlabel hrecord hyields ref' href
  obtain ⟨id', record', hlabel', hrecord', hmatches⟩ := h.level ref ref' id record href hlabel hrecord
  refine .of_yields hlabel' hrecord' (hmatches.yields ?_ ?_ ?_ hyields)
  · exact fun inner inner' n hinner hn => h.denotesName hn hinner
  · exact fun inner inner' l hinner hl => hl.2 inner' hinner
  · exact fun _ _ _ _ ht => ht.elim

/-- Related references denote the same terms. -/
theorem denotesExpr (h : tables.Follows ρ tables') {t : Term} (ht : DenotesExpr tables ref t)
    (href : ρ .exprs ref ref') : DenotesExpr tables' ref' t := by
  refine DenotesExpr.induct (motive := fun ref t => ∀ ref', ρ .exprs ref ref' →
    DenotesExpr tables' ref' t) ?_ ht ref' href
  intro ref id record t hlabel hrecord hyields ref' href
  obtain ⟨id', record', hlabel', hrecord', hmatches⟩ := h.expr ref ref' id record href hlabel hrecord
  refine .of_yields hlabel' hrecord' (hmatches.yields ?_ ?_ ?_ hyields)
  · exact fun inner inner' n hinner hn => h.denotesName hn hinner
  · exact fun inner inner' l hinner hl => h.denotesLevel hl hinner
  · exact fun inner inner' t hinner ht => ht.2 inner' hinner

/-- Contents denote what matching contents of the tables that they follow do. -/
theorem denotes {c c' : Contents} (h : c.tables.Follows ρ c'.tables)
    (hmatches : (Recipe.ofModule c).Matches ρ (Recipe.ofModule c')) {m : Module} (hm : c.Denotes m) :
    c'.Denotes m :=
  hmatches.yields (fun _ _ _ href hn => h.denotesName hn href)
    (fun _ _ _ href hl => h.denotesLevel hl href) (fun _ _ _ href ht => h.denotesExpr ht href) hm

end Tables.Follows

end TermText.Dump
