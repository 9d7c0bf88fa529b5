import Mathlib.Data.List.Permutation
import TermText.Json.Basic

/-!
# The fields of an object

What is found under a key, what sorting fields by their keys leaves, and what adding fields gives. If no key
comes twice, it does not matter where a field stands. Fields that are in order are left as they are.
-/

namespace TermText

/-- No text precedes itself. -/
theorem Text.precedes_irrefl (t : Text) : t.precedes t = false := by
  induction t with
  | nil => rfl
  | cons c rest ih => simp [precedes, ih]

/-- A text precedes what comes behind a text that it precedes. -/
theorem Text.precedes_trans {t u w : Text} (h : t.precedes u = true) (h' : u.precedes w = true) :
    t.precedes w = true := by
  induction t generalizing u w with
  | nil =>
    cases u with
    | nil => cases h
    | cons d u =>
      cases w with
      | nil => cases h'
      | cons e w => rfl
  | cons c t ih =>
    cases u with
    | nil => cases h
    | cons d u =>
      cases w with
      | nil => cases h'
      | cons e w =>
        simp only [precedes, Bool.or_eq_true, Bool.and_eq_true, decide_eq_true_eq] at h h' ⊢
        obtain hlt | ⟨rfl, hrest⟩ := h <;> obtain hlt' | ⟨rfl, hrest'⟩ := h'
        · exact .inl (Nat.lt_trans hlt hlt')
        · exact .inl hlt
        · exact .inl hlt'
        · exact .inr ⟨rfl, ih hrest hrest'⟩

end TermText

namespace TermText.Json.Fields

variable {fields fields' more : Fields} {key : Text} {value : Json}

/-- What is found under a key stands among the fields. -/
theorem exists_mem_of_get? (h : fields.get? key = some value) : (key, value) ∈ fields := by
  unfold get? at h
  obtain ⟨⟨key', value⟩, hfound, rfl⟩ := Option.map_eq_some_iff.mp h
  have hkey : key' = key := by simpa using List.find?_some hfound
  exact hkey ▸ List.mem_of_find?_eq_some hfound

/-- A field in front is found, and hides no other one. -/
theorem get?_cons (key : Text) (value : Json) (fields : Fields) (other : Text) :
    get? ((key, value) :: fields) other = if key = other then some value else fields.get? other := by
  by_cases hkey : key = other <;> simp [get?, hkey]

/-- If no key comes twice, a field stands among others exactly if it is found by its key. -/
theorem get?_eq_some_iff (hkeys : (fields.map Prod.fst).Nodup) :
    fields.get? key = some value ↔ (key, value) ∈ fields := by
  refine ⟨exists_mem_of_get?, fun hmem => ?_⟩
  cases hfound : fields.get? key with
  | none =>
    simp only [get?, Option.map_eq_none_iff, List.find?_eq_none] at hfound
    exact absurd (decide_eq_true rfl) (hfound _ hmem)
  | some value' =>
    have heq : (key, value') = (key, value) :=
      List.inj_on_of_nodup_map hkeys (exists_mem_of_get? hfound) hmem rfl
    rw [(Prod.mk.inj heq).2]

/-- Where a field stands among others does not matter. -/
theorem get?_eq_of_perm (h : fields.Perm fields') (hkeys : (fields.map Prod.fst).Nodup) (key : Text) :
    fields.get? key = fields'.get? key := by
  have hkeys' : (fields'.map Prod.fst).Nodup := (h.map Prod.fst).nodup_iff.mp hkeys
  refine Option.ext fun value => ?_
  rw [get?_eq_some_iff hkeys, get?_eq_some_iff hkeys', h.mem_iff]

/-- Placing a field among sorted ones adds this field. -/
theorem perm_insertSorted (key : Text) (value : Json) (sorted : Fields) :
    (insertSorted key value sorted).Perm ((key, value) :: sorted) := by
  induction sorted with
  | nil => rfl
  | cons field rest ih =>
    rw [insertSorted]
    split
    · rfl
    · exact (ih.cons field).trans (.swap _ _ _)

/-- Sorting fields leaves the same fields. -/
theorem perm_sort (fields : Fields) : fields.sort.Perm fields := by
  have hall (more sorted : Fields) :
      (more.foldl (fun sorted field => insertSorted field.1 field.2 sorted) sorted).Perm
        (more ++ sorted) := by
    induction more generalizing sorted with
    | nil => rfl
    | cons field rest ih =>
      exact (ih _).trans (((perm_insertSorted field.1 field.2 sorted).append_left rest).trans
        List.perm_middle)
  have hsort : fields.sort.Perm (fields ++ []) := hall fields []
  rwa [List.append_nil] at hsort

/-- Fields of which none precedes one that stands before it. -/
def Sorted (fields : Fields) : Prop :=
  fields.Pairwise fun earlier later => later.1.precedes earlier.1 = false

/-- Placing a field among sorted ones leaves them sorted. -/
theorem sorted_insertSorted {sorted : Fields} (h : sorted.Sorted) (key : Text) (value : Json) :
    (insertSorted key value sorted).Sorted := by
  induction sorted with
  | nil => exact List.pairwise_singleton ..
  | cons field rest ih =>
    obtain ⟨k, v⟩ := field
    obtain ⟨hfirst, hrest⟩ := List.pairwise_cons.mp h
    rw [insertSorted]
    split
    · next hbefore =>
      refine List.pairwise_cons.mpr ⟨fun later hlater => Bool.eq_false_iff.mpr fun hprecedes => ?_, h⟩
      -- A later field that preceded the new one would precede the first one.
      have hearly : later.1.precedes k = true := Text.precedes_trans hprecedes hbefore
      obtain rfl | hmem := List.mem_cons.mp hlater
      · rw [Text.precedes_irrefl] at hearly
        cases hearly
      · rw [hfirst later hmem] at hearly
        cases hearly
    · next hbehind =>
      refine List.pairwise_cons.mpr ⟨fun later hlater => ?_, ih hrest⟩
      obtain rfl | hmem := List.mem_cons.mp ((perm_insertSorted key value rest).mem_iff.mp hlater)
      · exact Bool.eq_false_iff.mpr hbehind
      · exact hfirst later hmem

/-- Sorting fields leaves them sorted. -/
theorem sorted_sort (fields : Fields) : fields.sort.Sorted := by
  have hall (more sorted : Fields) (h : sorted.Sorted) :
      (more.foldl (fun sorted field => insertSorted field.1 field.2 sorted) sorted).Sorted := by
    induction more generalizing sorted with
    | nil => exact h
    | cons field rest ih => exact ih _ (sorted_insertSorted h field.1 field.2)
  exact hall fields [] .nil

/-- A field that precedes no other one is placed at the end. -/
theorem insertSorted_of_last {sorted : Fields} (h : ∀ field ∈ sorted, key.precedes field.1 = false)
    (value : Json) : insertSorted key value sorted = sorted ++ [(key, value)] := by
  induction sorted with
  | nil => rfl
  | cons field rest ih =>
    obtain ⟨hfirst, hrest⟩ := List.forall_mem_cons.mp h
    rw [insertSorted, if_neg (Bool.eq_false_iff.mp hfirst), ih hrest]
    rfl

/-- Fields that are sorted are left as they are. -/
theorem Sorted.sort_eq (h : fields.Sorted) : fields.sort = fields := by
  have hall (more sorted : Fields) (h : (sorted ++ more).Sorted) :
      more.foldl (fun sorted field => insertSorted field.1 field.2 sorted) sorted = sorted ++ more := by
    induction more generalizing sorted with
    | nil => exact (List.append_nil sorted).symm
    | cons field rest ih =>
      have hlast : ∀ earlier ∈ sorted, field.1.precedes earlier.1 = false := fun earlier hearlier =>
        (List.pairwise_append.mp h).2.2 earlier hearlier field List.mem_cons_self
      rw [List.foldl_cons, insertSorted_of_last hlast, ih, List.append_assoc]
      · rfl
      · rwa [List.append_assoc]
  exact hall fields [] h

/-- A field with a new key is added at the end. -/
theorem insert_of_notMem (h : key ∉ fields.map Prod.fst) (value : Json) :
    fields.insert key value = fields ++ [(key, value)] := by
  induction fields with
  | nil => rfl
  | cons field rest ih =>
    obtain ⟨hne, hrest⟩ := not_or.mp (List.mem_cons.not.mp h)
    rw [insert, if_neg (Ne.symm hne), ih hrest]
    rfl

/-- Fields with keys of their own are added at the end as they are. -/
theorem insertAll_of_nodup (h : ((fields ++ more).map Prod.fst).Nodup) :
    fields.insertAll more = fields ++ more := by
  induction more generalizing fields with
  | nil => exact (List.append_nil fields).symm
  | cons field more ih =>
    have hkey : field.1 ∉ fields.map Prod.fst := fun hmem =>
      (List.nodup_append.mp (List.map_append ▸ h)).2.2 _ hmem _ List.mem_cons_self rfl
    have hnodup : ((fields ++ [field] ++ more).map Prod.fst).Nodup := by
      rwa [List.append_assoc]
    calc fields.insertAll (field :: more)
        = (fields.insert field.1 field.2).insertAll more := rfl
      _ = (fields ++ [field]).insertAll more := by rw [insert_of_notMem hkey]
      _ = fields ++ field :: more := (ih hnodup).trans (List.append_assoc ..)

end TermText.Json.Fields
