import Mathlib.Data.Fintype.Card
import Mathlib.Data.Set.Finite.List
import Mathlib.Logic.Relation
import TermText.Proofs.Dump.Denotation
import TermText.Proofs.Json.Digits

/-!
# References between records

The graph of the records of the tables. A record on a cycle, or one from which a cycle is reached,
denotes nothing. If no cycle is reached from a record and all records that are reached are well
formed by themselves, it denotes an object: the tables are finite, so the references that are
followed come to an end.
-/

namespace TermText.Dump

open Relation

/-- A record refers to another one. -/
def Tables.Refers (tables : Tables) (a b : Key) : Prop :=
  b ∈ tables.references a

/-- No reference can be followed from a record without end. -/
def Tables.Grounded (tables : Tables) (key : Key) : Prop :=
  Acc (fun b a => tables.Refers a b) key

/-- A record that leads back to itself. -/
def Tables.Cyclic (tables : Tables) (key : Key) : Prop :=
  TransGen tables.Refers key key

/-- A record is reached from another one by references. -/
def Tables.Reaches (tables : Tables) : Key → Key → Prop :=
  ReflTransGen tables.Refers

variable {tables : Tables} {key key' : Key}

/-- A grounded record is on no cycle. -/
theorem Tables.Grounded.not_cyclic (h : tables.Grounded key) : ¬ tables.Cyclic key := by
  induction h with
  | intro key _ ih =>
    intro hcycle
    obtain ⟨next, hnext, hback⟩ := TransGen.head'_iff.mp hcycle
    exact ih next hnext (TransGen.tail' hback hnext)

/-- What is reached from a grounded record is grounded. -/
theorem Tables.Grounded.of_reaches (h : tables.Grounded key) (hreach : tables.Reaches key key') :
    tables.Grounded key' := by
  induction hreach with
  | refl => exact h
  | tail _ hstep ih => exact ih.inv hstep

/-- A reference that is not null stands for the record of its label. -/
theorem nameKeys_of_ne {ref : Json} (h : ref ≠ .null) : nameKeys ref = labelKeys .names ref := by
  cases ref <;> first | rfl | exact absurd rfl h

/-- A statement that holds of the records behind all answers to a recipe's requests holds of all
records that the recipe asks for, if it yields an object. -/
theorem Recipe.forall_mem_of_yields {α ν : Type} {M : Meaning} {P : Key → Prop}
    {View : α → ν → Prop} {refs : List Key} {Q : α → Prop} {r : Recipe α}
    (hcourse : r.SameCourse View refs r) (h : r.Yields M Q)
    (hname : ∀ ref n, M.name ref n → ∀ key ∈ nameKeys ref, P key)
    (hlevel : ∀ ref l, M.level ref l → ∀ key ∈ levelKeys ref, P key)
    (hexpr : ∀ ref t, M.expr ref t → ∀ key ∈ exprKeys ref, P key) : ∀ key ∈ refs, P key := by
  induction r generalizing refs with
  | done a =>
    obtain ⟨rfl, _⟩ := hcourse
    simp
  | fail e => exact h.elim
  | askName ref next ih =>
    obtain ⟨_, rest, rfl, hnext⟩ := hcourse
    obtain ⟨n, hn, h⟩ := h
    intro key hkey
    rcases List.mem_append.mp hkey with hkey | hkey
    · exact hname ref n hn key hkey
    · exact ih n (hnext n) h key hkey
  | askLevel ref next ih =>
    obtain ⟨_, rest, rfl, hnext⟩ := hcourse
    obtain ⟨l, hl, h⟩ := h
    intro key hkey
    rcases List.mem_append.mp hkey with hkey | hkey
    · exact hlevel ref l hl key hkey
    · exact ih l (hnext l) h key hkey
  | askExpr ref next ih =>
    obtain ⟨_, rest, rfl, hnext⟩ := hcourse
    obtain ⟨t, ht, h⟩ := h
    intro key hkey
    rcases List.mem_append.mp hkey with hkey | hkey
    · exact hexpr ref t ht key hkey
    · exact ih t (hnext t t rfl) h key hkey

/-- A reference that denotes a name is grounded. -/
theorem DenotesName.grounded {ref : Json} {n : Name} (h : DenotesName tables ref n) :
    ∀ key ∈ nameKeys ref, tables.Grounded key := by
  refine DenotesName.induct (motive := fun ref _ => ∀ key ∈ nameKeys ref, tables.Grounded key)
    (by simp [nameKeys]) ?_ h
  intro ref id record n href hlabel hrecord hyields
  rw [nameKeys_of_ne href, labelKeys_eq hlabel, List.forall_mem_singleton]
  refine .intro _ fun key hkey => ?_
  rw [Tables.Refers, Tables.references, hrecord] at hkey
  exact Recipe.forall_mem_of_yields (Recipe.sameCourse_ofName _ _) hyields (fun _ _ h => h.2)
    (fun _ _ h => h.elim) (fun _ _ h => h.elim) key hkey

/-- A reference that denotes a level is grounded. -/
theorem DenotesLevel.grounded {ref : Json} {l : Level} (h : DenotesLevel tables ref l) :
    ∀ key ∈ levelKeys ref, tables.Grounded key := by
  refine DenotesLevel.induct (motive := fun ref _ => ∀ key ∈ levelKeys ref, tables.Grounded key) ?_ h
  intro ref id record l hlabel hrecord hyields
  rw [levelKeys, labelKeys_eq hlabel, List.forall_mem_singleton]
  refine .intro _ fun key hkey => ?_
  rw [Tables.Refers, Tables.references, hrecord] at hkey
  exact Recipe.forall_mem_of_yields (Recipe.sameCourse_ofLevel _ _) hyields
    (fun _ _ => DenotesName.grounded) (fun _ _ h => h.2) (fun _ _ h => h.elim) key hkey

/-- A reference that denotes a term is grounded. -/
theorem DenotesExpr.grounded {ref : Json} {t : Term} (h : DenotesExpr tables ref t) :
    ∀ key ∈ exprKeys ref, tables.Grounded key := by
  refine DenotesExpr.induct (motive := fun ref _ => ∀ key ∈ exprKeys ref, tables.Grounded key) ?_ h
  intro ref id record t hlabel hrecord hyields
  rw [exprKeys, labelKeys_eq hlabel, List.forall_mem_singleton]
  refine .intro _ fun key hkey => ?_
  rw [Tables.Refers, Tables.references, hrecord] at hkey
  exact Recipe.forall_mem_of_yields (Recipe.sameCourse_ofExpr _ _) hyields
    (fun _ _ => DenotesName.grounded) (fun _ _ => DenotesLevel.grounded) (fun _ _ h => h.2) key hkey

/-- A record denotes an object of its table. -/
def Tables.Denotes (tables : Tables) : Key → Prop
  | (.names, id) => ∃ n, DenotesName tables (.text id) n
  | (.levels, id) => ∃ l, DenotesLevel tables (.text id) l
  | (.exprs, id) => ∃ t, DenotesExpr tables (.text id) t

/-- A name whose hash is an integer within the limit for numerals, so that a segment may be added to it. -/
def HasShortHash (n : Name) : Prop :=
  ∃ i : Int, n.hash = .int i ∧ Numeral.Fits i

/-- The anonymous name has a hash within the limit. -/
theorem hasShortHash_anonymous : HasShortHash .anonymous :=
  ⟨Name.anonymousHash, rfl, Numeral.fits_of_lt_pow 4 (by decide) (by decide)⟩

/-- A recipe all of whose references have labels and that ends in an object of a kind whatever objects
answer its requests; names carry short integers for hashes. -/
def Recipe.Succeeds {α : Type} (Q : α → Prop) : Recipe α → Prop
  | .done a => Q a
  | .fail _ => False
  | .askName ref next => ref.isWritable = true ∧ ∀ n : Name, HasShortHash n → (next n).Succeeds Q
  | .askLevel ref next => ref.isWritable = true ∧ ∀ l, (next l).Succeeds Q
  | .askExpr ref next => ref.isWritable = true ∧ ∀ t, (next t).Succeeds Q

/-- A record that is there and well formed by itself: once its references are answered, it gives an
object, and a short hash if the object is a name. -/
def Tables.WellFormed (tables : Tables) : Key → Prop
  | (.names, id) => ∃ record, Json.Fields.get? tables.names id = some record ∧
    (Recipe.ofName id record).Succeeds HasShortHash
  | (.levels, id) => ∃ record, Json.Fields.get? tables.levels id = some record ∧
    (Recipe.ofLevel id record).Succeeds fun _ => True
  | (.exprs, id) => ∃ record, Json.Fields.get? tables.exprs id = some record ∧
    (Recipe.ofExpr id record).Succeeds fun _ => True

/-- A record denotes an object of its table, and one with a short hash if it is a name. -/
def Tables.DenotesShort (tables : Tables) : Key → Prop
  | (.names, id) => ∃ n, DenotesName tables (.text id) n ∧ HasShortHash n
  | key => tables.Denotes key

/-- A reference with a label denotes a name if the record that it stands for does; null denotes one too. -/
theorem exists_denotesName {ref : Json} (hwritable : ref.isWritable = true)
    (h : ∀ key ∈ nameKeys ref, tables.DenotesShort key) :
    ∃ n, DenotesName tables ref n ∧ HasShortHash n := by
  by_cases href : ref = .null
  · exact ⟨.anonymous, href ▸ DenotesName.null, hasShortHash_anonymous⟩
  · have hlabel := Json.label_eq_ok.mpr ⟨hwritable, rfl⟩
    obtain ⟨n, hn, hhash⟩ := h (.names, ref.spelled) (by simp [nameKeys_of_ne href, labelKeys_eq hlabel])
    exact ⟨n, (denotesName_label href hlabel).mp hn, hhash⟩

/-- A reference with a label denotes a level if the record that it stands for does. -/
theorem exists_denotesLevel {ref : Json} (hwritable : ref.isWritable = true)
    (h : ∀ key ∈ levelKeys ref, tables.DenotesShort key) : ∃ l, DenotesLevel tables ref l := by
  have hlabel := Json.label_eq_ok.mpr ⟨hwritable, rfl⟩
  obtain ⟨l, hl⟩ := h (.levels, ref.spelled) (by simp [levelKeys, labelKeys_eq hlabel])
  exact ⟨l, (denotesLevel_label hlabel).mp hl⟩

/-- A reference with a label denotes a term if the record that it stands for does. -/
theorem exists_denotesExpr {ref : Json} (hwritable : ref.isWritable = true)
    (h : ∀ key ∈ exprKeys ref, tables.DenotesShort key) : ∃ t, DenotesExpr tables ref t := by
  have hlabel := Json.label_eq_ok.mpr ⟨hwritable, rfl⟩
  obtain ⟨t, ht⟩ := h (.exprs, ref.spelled) (by simp [exprKeys, labelKeys_eq hlabel])
  exact ⟨t, (denotesExpr_label hlabel).mp ht⟩

/-- A recipe that ends in an object in any case yields one if all records that it asks for denote. -/
theorem Recipe.exists_yields {α ν : Type} {View : α → ν → Prop} {Q : α → Prop} {refs : List Key}
    {r : Recipe α} (hcourse : r.SameCourse View refs r) (h : r.Succeeds Q)
    (hrefs : ∀ key ∈ refs, tables.DenotesShort key) :
    ∃ v, r.Yields tables.meaning fun a => View a v ∧ Q a := by
  induction r generalizing refs with
  | done a =>
    obtain ⟨_, v, hv, _⟩ := hcourse
    exact ⟨v, hv, h⟩
  | fail e => exact h.elim
  | askName ref next ih =>
    obtain ⟨_, rest, rfl, hnext⟩ := hcourse
    obtain ⟨hwritable, h⟩ := h
    have hrest (key) (hkey : key ∈ rest) := hrefs key (List.mem_append_right _ hkey)
    obtain ⟨n, hn, hhash⟩ :=
      exists_denotesName hwritable fun key hkey => hrefs key (List.mem_append_left _ hkey)
    obtain ⟨v, hv⟩ := ih n (hnext n) (h n hhash) hrest
    exact ⟨v, n, hn, hv⟩
  | askLevel ref next ih =>
    obtain ⟨_, rest, rfl, hnext⟩ := hcourse
    obtain ⟨hwritable, h⟩ := h
    have hrest (key) (hkey : key ∈ rest) := hrefs key (List.mem_append_right _ hkey)
    obtain ⟨l, hl⟩ :=
      exists_denotesLevel hwritable fun key hkey => hrefs key (List.mem_append_left _ hkey)
    obtain ⟨v, hv⟩ := ih l (hnext l) (h l) hrest
    exact ⟨v, l, hl, hv⟩
  | askExpr ref next ih =>
    obtain ⟨_, rest, rfl, hnext⟩ := hcourse
    obtain ⟨hwritable, h⟩ := h
    have hrest (key) (hkey : key ∈ rest) := hrefs key (List.mem_append_right _ hkey)
    obtain ⟨t, ht⟩ :=
      exists_denotesExpr hwritable fun key hkey => hrefs key (List.mem_append_left _ hkey)
    obtain ⟨v, hv⟩ := ih t (hnext t t rfl) (h t) hrest
    exact ⟨v, t, ht, hv⟩

/-- A well-formed record denotes an object if all records that it refers to do. -/
theorem Tables.WellFormed.denotes (h : tables.WellFormed key)
    (hrefs : ∀ next, tables.Refers key next → tables.DenotesShort next) : tables.DenotesShort key := by
  unfold Tables.Refers at hrefs
  obtain ⟨table, id⟩ := key
  cases table with
  | names =>
    obtain ⟨record, hrecord, hsucceeds⟩ := h
    rw [Tables.references, hrecord] at hrefs
    obtain ⟨v, hv⟩ := Recipe.exists_yields (Recipe.sameCourse_ofName id record) hsucceeds hrefs
    obtain ⟨n, hn, -, hhash⟩ := Recipe.yields_iff_exists.mp hv
    exact ⟨n, .of_yields (by simp) (Json.label_text id) hrecord hn, hhash⟩
  | levels =>
    obtain ⟨record, hrecord, hsucceeds⟩ := h
    rw [Tables.references, hrecord] at hrefs
    obtain ⟨v, hv⟩ := Recipe.exists_yields (Recipe.sameCourse_ofLevel id record) hsucceeds hrefs
    obtain ⟨l, hl, -⟩ := Recipe.yields_iff_exists.mp hv
    exact ⟨l, .of_yields (Json.label_text id) hrecord hl⟩
  | exprs =>
    obtain ⟨record, hrecord, hsucceeds⟩ := h
    rw [Tables.references, hrecord] at hrefs
    obtain ⟨v, hv⟩ := Recipe.exists_yields (Recipe.sameCourse_ofExpr id record) hsucceeds hrefs
    exact ⟨v, .of_yields (Json.label_text id) hrecord (hv.imp fun _ h => h.1)⟩

/-- A well-formed record is one of finitely many. -/
theorem Tables.finite_wellFormed (tables : Tables) : {key | tables.WellFormed key}.Finite := by
  have hids (records : Json.Fields) (table : Table) :
      {key : Key | key.1 = table ∧ ∃ record, Json.Fields.get? records key.2 = some record}.Finite := by
    refine (records.map fun record => (table, record.1)).finite_toSet.subset ?_
    intro key hkey
    obtain ⟨rfl, record, hrecord⟩ := hkey
    exact List.mem_map.mpr ⟨(key.2, record), Json.Fields.exists_mem_of_get? hrecord, rfl⟩
  refine (((hids tables.names .names).union (hids tables.levels .levels)).union
    (hids tables.exprs .exprs)).subset ?_
  intro key hkey
  obtain ⟨table, id⟩ := key
  cases table with
  | names => exact .inl (.inl ⟨rfl, hkey.imp fun _ h => h.1⟩)
  | levels => exact .inl (.inr ⟨rfl, hkey.imp fun _ h => h.1⟩)
  | exprs => exact .inr ⟨rfl, hkey.imp fun _ h => h.1⟩

/-- If no cycle is reached from a record, and only well-formed records are, it denotes an object. -/
theorem Tables.denotes_of_acyclic (hcycle : ∀ next, tables.Reaches key next → ¬ tables.Cyclic next)
    (hformed : ∀ next, tables.Reaches key next → tables.WellFormed next) : tables.DenotesShort key := by
  -- The relation is followed within the finitely many records that are reached.
  let Reached := {next // tables.Reaches key next}
  have hfinite : Finite Reached := tables.finite_wellFormed.subset hformed
  let leads (b a : Reached) : Prop := TransGen tables.Refers a.1 b.1
  have htrans : IsTrans Reached leads := ⟨fun _ _ _ hba hcb => hcb.trans hba⟩
  have hirrefl : Std.Irrefl leads := ⟨fun a => hcycle a.1 a.2⟩
  have hground : WellFounded leads := Finite.wellFounded_of_trans_of_irrefl leads
  have hdenotes (a : Reached) : tables.DenotesShort a.1 := by
    induction a using hground.induction with
    | _ a ih =>
      refine (hformed a.1 a.2).denotes fun next hnext => ?_
      exact ih ⟨next, a.2.tail hnext⟩ (.single hnext)
  exact hdenotes ⟨key, .refl⟩

end TermText.Dump
