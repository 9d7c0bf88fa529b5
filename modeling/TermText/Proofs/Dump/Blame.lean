import TermText.Proofs.Dump.Flaw
import TermText.Proofs.Dump.Message
import TermText.Proofs.Dump.Numbers
import TermText.Proofs.Dump.Plain

/-!
# Errors blame the right record

An error of resolving a reference is right about the record that it names: a record that is said to be
unknown is missing, one that is said to be cyclic lies on a cycle, and any other one has a flaw of its own;
and it is reached by references from the one that was asked for. Beyond the dumps that are ready for JSON,
the limit for numerals may be blamed on a record that only leads to one with an integer above it. As in the decision of what
references denote, the induction is on the records that may still be entered, and it carries along that
every record being built leads to the reference that is resolved. A record never refers to one of a later
table, so a cycle stays within its table. What an error says is read off its message.
-/

namespace TermText.Dump

open Relation

variable {α β ν : Type} {tables : Tables} {active keys : List Key}

/-- A record that is asked for, or that records which are reached from one asked for refer to. -/
def Tables.Reached (tables : Tables) (keys : List Key) (key : Key) : Prop :=
  ∃ asked ∈ keys, tables.Reaches asked key

/-- An error that is right about the record that it names, when records of given keys are asked for. The
limit for numerals is blamed on a record that leads to an integer above it, or left as it is. -/
inductive Tables.Justifies (tables : Tables) (keys : List Key) : Error → Prop where
  | unknown {table : Table} {id : Text} (hreached : tables.Reached keys (table, id))
      (hmissing : Json.Fields.get? (tables.records table) id = none) :
      Justifies tables keys (.unknown table id)
  | cyclic {table : Table} {id : Text} (hreached : tables.Reached keys (table, id))
      (hcycle : tables.Cyclic (table, id)) : Justifies tables keys (.cyclic table id)
  | flawed {table : Table} {id : Text} {record : Json} {e : Error}
      (hreached : tables.Reached keys (table, id))
      (hrecord : Json.Fields.get? (tables.records table) id = some record)
      (hflaw : Flaw id table record e) : Justifies tables keys e
  | limit {table : Table} {id : Text} {record : Json} {e : Error}
      (hreached : tables.Reached keys (table, id))
      (hrecord : Json.Fields.get? (tables.records table) id = some record)
      (hblames : e.BlamesLimit table id)
      (hlong : ∃ key, tables.Reaches (table, id) key ∧ tables.HoldsLong key) : Justifies tables keys e
  | unblamed (hlong : ∃ key, tables.Reached keys key ∧ tables.HoldsLong key) :
      Justifies tables keys (.fault (.numeral .tooLong))
  | infinite : Justifies tables keys .infinite

/-- An error stays right if what leads to its record is asked for. -/
theorem Tables.Justifies.of_reached {keys' : List Key} {e : Error} (h : tables.Justifies keys e)
    (hkeys : ∀ key, tables.Reached keys key → tables.Reached keys' key) : tables.Justifies keys' e := by
  cases h with
  | unknown hreached hmissing => exact .unknown (hkeys _ hreached) hmissing
  | cyclic hreached hcycle => exact .cyclic (hkeys _ hreached) hcycle
  | flawed hreached hrecord hflaw => exact .flawed (hkeys _ hreached) hrecord hflaw
  | limit hreached hrecord hblames hlong => exact .limit (hkeys _ hreached) hrecord hblames hlong
  | unblamed hlong => exact .unblamed (hlong.imp fun _ h => ⟨hkeys _ h.1, h.2⟩)
  | infinite => exact .infinite

/-- An error stays right if more records are asked for. -/
theorem Tables.Justifies.mono {keys' : List Key} {e : Error} (h : tables.Justifies keys e)
    (hkeys : keys ⊆ keys') : tables.Justifies keys' e :=
  h.of_reached fun _ ⟨asked, hasked, hreach⟩ => ⟨asked, hkeys hasked, hreach⟩

/-- An integer that a value gives is within the limit if the value holds no longer one. -/
theorem fits_of_integer {value : Json} {n : Int} (h : value.isWritable = true)
    (hn : value.integer = .ok n) : Numeral.Fits n := by
  refine admits_fits.integer ?_ hn
  cases value with
  | int k => exact Json.isWritable_int.mp h
  | list | object => cases hn
  | _ => trivial

/-- A hash above the limit is one that the name's own record gives. -/
theorem DenotesName.exists_hash {ref : Json} {n : Name} (h : DenotesName tables ref n) :
    ∃ i : Int, n.hash = .int i ∧
      (¬ Numeral.Fits i → ∃ key ∈ nameKeys ref, tables.HoldsLong key) := by
  have hroot : Numeral.Fits Name.anonymousHash := admits_fits.root
  by_cases hnull : ref = .null
  · subst hnull
    obtain rfl : Name.anonymous = n := by
      cases h with
      | null => rfl
      | root hrecord | text hrecord | number hrecord => exact absurd rfl hrecord.1
    exact ⟨_, rfl, fun hlong => absurd hroot hlong⟩
  · obtain ⟨id, record, hlabel, hrecord, hyields⟩ := (denotesName_iff hnull).mp h
    obtain ⟨fields, rfl, parent, -, hash, hgives, hsegment⟩ := (yields_ofName _ _ _).mp hyields
    have hchild {segment : Segment} (hchild : parent.child segment hash = .ok n) :
        ∃ i : Int, n.hash = .int i ∧
          (¬ Numeral.Fits i → ∃ key ∈ nameKeys ref, tables.HoldsLong key) := by
      by_cases hhash : hash = .null
      · subst hhash
        obtain ⟨octets, -, rfl, -⟩ := Name.exists_octets_of_child hchild
        exact ⟨_, rfl, fun hlong => absurd (Blake2b.fits_digest8 octets) hlong⟩
      · cases hgives with
        | missing | null => exact absurd rfl hhash
        | @integer value i hgiven hvalue =>
          cases hchild
          refine ⟨i, rfl, fun hlong => ⟨(.names, id), ?_, .object fields, hrecord, ?_⟩⟩
          · simp [nameKeys_of_ne hnull, labelKeys_eq hlabel]
          · rw [Bool.eq_false_iff]
            exact fun hwritable => hlong (fits_of_integer
              (Json.isWritable_of_get? hwritable hgiven) hvalue)
    split at hsegment
    · obtain ⟨t, _, -, hadded, rfl⟩ := hsegment
      exact hchild hadded
    · obtain ⟨k, _, -, hadded, rfl⟩ := hsegment
      exact hchild hadded
    · obtain ⟨-, rfl⟩ := hsegment
      exact ⟨_, rfl, fun hlong => absurd hroot hlong⟩

/-- A step whose errors, in sound sessions with given records being built, are of a kind. -/
def Load.FailsIn (tables : Tables) (active : List Key) (E : Error → Prop) (m : Load α) : Prop :=
  ∀ s : Session, s.Fits tables active → ∀ e s', m s = .error e s' → E e

/-- A loader whose errors are right, as far as references to some of the records are resolved. -/
structure Loader.Justified (loader : Loader) (tables : Tables) (active keys : List Key) : Prop where
  name : ∀ ref, (∀ key ∈ nameKeys ref, key ∈ keys) →
    (loader.name ref).FailsIn tables active (OrUnlabelled (tables.Justifies (nameKeys ref)) ref)
  level : ∀ ref, (∀ key ∈ levelKeys ref, key ∈ keys) →
    (loader.level ref).FailsIn tables active (OrUnlabelled (tables.Justifies (levelKeys ref)) ref)
  expr : ∀ ref, (∀ key ∈ exprKeys ref, key ∈ keys) →
    (loader.expr ref).FailsIn tables active (OrUnlabelled (tables.Justifies (exprKeys ref)) ref)

/-- A loader is as right about fewer references. -/
theorem Loader.Justified.mono {loader : Loader} {keys' : List Key}
    (h : loader.Justified tables active keys) (hkeys : ∀ key ∈ keys', key ∈ keys) :
    loader.Justified tables active keys' :=
  ⟨fun ref href => h.name ref fun key hkey => hkeys key (href key hkey),
    fun ref href => h.level ref fun key hkey => hkeys key (href key hkey),
    fun ref href => h.expr ref fun key hkey => hkeys key (href key hkey)⟩

/-- Errors of a kind are of any kind that includes it. -/
theorem Load.FailsIn.mono {m : Load α} {E E' : Error → Prop} (h : m.FailsIn tables active E)
    (hE : ∀ e, E e → E' e) : m.FailsIn tables active E' :=
  fun s hs e s' hrun => hE e (h s hs e s' hrun)

/-- What is made of an answer without failing changes no error. -/
theorem Load.FailsIn.bind_pure {m : Load α} {f : α → Load β} {E : Error → Prop}
    (h : m.FailsIn tables active E) (hf : ∀ a s e s', f a s ≠ .error e s') :
    (m >>= f).FailsIn tables active E := by
  intro s hs e s' hrun
  rcases bind_error hrun with hstep | ⟨a, s'', -, hnext⟩
  · exact h s hs e s' hstep
  · exact absurd hnext (hf a s'' e s')

/-- Changing an answer changes no error. -/
theorem Load.FailsIn.map {m : Load α} {E : Error → Prop} (h : m.FailsIn tables active E) (f : α → β) :
    (f <$> m).FailsIn tables active E :=
  h.bind_pure fun _ _ _ _ => nofun

section

variable (h : tables.Leads active keys)
  (hentered : ∀ {table id record}, (table, id) ∈ keys →
    Json.Fields.get? (tables.records table) id = some record → (table, id) ∉ active →
      tables.loader.Justified tables ((table, id) :: active) (tables.references (table, id)))

include h hentered

end

/-- A record of a table refers to another one of the table. -/
def Tables.RefersWithin (tables : Tables) (table : Table) (id id' : Text) : Prop :=
  tables.Refers (table, id) (table, id')

/-- How far the records of a table are from names, which refer to names only. -/
def Table.rank : Table → Nat
  | .names => 0
  | .levels => 1
  | .exprs => 2

/-- No two tables are equally far from names. -/
theorem Table.rank_injective : Function.Injective Table.rank := by
  intro table table' h
  cases table <;> cases table' <;> first | rfl | cases h

/-- Name records refer to name records only. -/
theorem eq_names_of_refers {id : Text} {key : Key} (h : tables.Refers (.names, id) key) :
    key.1 = .names := by
  change key ∈ (Json.Fields.get? tables.names id).elim [] _ at h
  cases hrecord : Json.Fields.get? tables.names id with
  | none => simp [hrecord] at h
  | some record =>
    rw [hrecord, Option.elim_some, nameReferences, mem_fieldKeys] at h
    obtain ⟨value, _, hmem⟩ := h
    exact eq_names_of_mem_nameKeys hmem

/-- References lead to records of the same table, or of one that is nearer to names. -/
theorem Tables.Refers.rank_le {key key' : Key} (h : tables.Refers key key') :
    key'.1.rank ≤ key.1.rank := by
  obtain ⟨table, id⟩ := key
  obtain ⟨table', id'⟩ := key'
  cases table with
  | names =>
    obtain rfl : table' = .names := eq_names_of_refers h
    exact Nat.le_refl _
  | levels =>
    cases table' with
    | exprs => cases eq_exprs_of_refers h
    | _ => simp [Table.rank]
  | exprs => cases table' <;> simp [Table.rank]

/-- References that come back to a table have not left it. -/
theorem Tables.refersWithin_of_refers {key key' : Key} (h : TransGen tables.Refers key key') :
    key'.1.rank ≤ key.1.rank ∧
      (key'.1 = key.1 → TransGen (tables.RefersWithin key.1) key.2 key'.2) := by
  have hwithin {key next : Key} {table : Table} (hstep : tables.Refers key next) (hkey : key.1 = table)
      (hnext : next.1 = table) : tables.RefersWithin table key.2 next.2 := by
    obtain ⟨_, _⟩ := key
    obtain ⟨_, _⟩ := next
    subst hkey hnext
    exact hstep
  induction h with
  | single hstep => exact ⟨hstep.rank_le, fun hsame => .single (hwithin hstep rfl hsame)⟩
  | @tail between last _ hstep ih =>
    obtain ⟨hle, hpath⟩ := ih
    refine ⟨hstep.rank_le.trans hle, fun hsame => ?_⟩
    have hstay : between.1 = key.1 :=
      Table.rank_injective (hle.antisymm (hsame ▸ hstep.rank_le))
    exact (hpath hstay).tail (hwithin hstep hstay hsame)

/-- A record on a cycle is on a cycle of its table. -/
theorem Tables.Cyclic.within {table : Table} {id : Text} (h : tables.Cyclic (table, id)) :
    TransGen (tables.RefersWithin table) id id :=
  (Tables.refersWithin_of_refers h).2 rfl

/-- The records that a call names. -/
def Call.references : Call → List Key
  | .name ref => nameKeys ref
  | .level ref => levelKeys ref
  | .expr ref => exprKeys ref
  | .declaration record => declarationReferences record

namespace Recipe

end Recipe

/-- The session after calls one after another, whether they fail or not. -/
def Tables.sessionAfter (tables : Tables) (calls : List Call) : Session :=
  calls.foldl (fun s call => (call.perform tables).after s) Session.empty

/-- An annotation without data of the term of an id. -/
def annotationOf (id : Text) : Json :=
  .object [("kind", .text "mdata"), ("expr", .text id)]

/-- An annotation fails as its term does. -/
theorem buildExpr_annotationOf {tables : Tables} {resolve : Json → Load Term} {inner : Text} {s s' : Session}
    {e : Error} (h : resolve (.text inner) s = .error e s') (id : Text) :
    buildExpr tables resolve id (annotationOf inner) s = .error e s' := by
  change (resolve (.text inner) >>= _) s = _
  rw [Load.bind_apply, h]

/-- The limit is needed: of an annotated application whose function has no label, the annotation is blamed,
which has no flaw, and not the application. -/
theorem sound_record_blamed_beyond_limit :
    let tables : Tables := ⟨[], [], [("a", unlabelledFunction), ("b", annotationOf "a")]⟩
    let blamed : Error := .malformed .exprs "b" (.numeral .tooLong)
    ¬ tables.Ready ∧
      (Call.perform tables (.expr (.text "b"))).outcome (tables.sessionAfter []) = .error blamed ∧
        ∀ e, ¬ Flaw "b" .exprs (annotationOf "a") e := by
  intro tables blamed
  let marked : Session := Session.empty.start .exprs "b"
  have happ : tables.app? "a" = some unlabelledFunction := rfl
  have hinner : linkedExpr tables (.text "a") marked = .error (.fault (.numeral .tooLong)) marked := by
    rw [linkedExpr_text, linkedAt_unlabelledFunction happ rfl rfl]
  have hbuild : buildExpr tables (linkedExpr tables) "b" (annotationOf "a") marked =
      .error (.fault (.numeral .tooLong)) marked := buildExpr_annotationOf hinner "b"
  have hexpr : expr tables (.text "b") .empty = .error blamed .empty := by
    have hrecord : Json.Fields.get? tables.linkShelf.records "b" = some (annotationOf "a") := rfl
    have hbuilt : lookup? (tables.linkShelf.built .empty) "b" = none := rfl
    have htable : tables.linkShelf.table = .exprs := rfl
    have hblame : tables.linkShelf.blame = tables.blameLink := rfl
    have hidle : Session.empty.isActive .exprs "b" = false := rfl
    have hother : tables.app? "b" = none := rfl
    rw [expr_eq_linkedExpr, linkedExpr_text, linkedAt, Load.resolve_apply]
    simp only [hrecord, hbuilt, htable, hidle, hblame, Bool.false_eq_true, if_false]
    rw [hbuild]
    simp only [Tables.blameLink_of_none hother, Error.blameRecord, marked, Session.stop_start hidle, blamed]
  refine ⟨Tables.not_ready_of_unlabelledFunction happ, ?_, fun e hflaw => ?_⟩
  · change (Answer.expr <$> expr tables (.text "b") : Load Answer).outcome .empty = _
    rw [Load.outcome, Load.map_apply, hexpr]
  -- Above a sound record the annotation denotes a term, so it has no flaw.
  · let sound : Tables :=
      ⟨[], [], [("a", .object [("kind", .text "natlit"), ("value", .int 1)]), ("b", annotationOf "a")]⟩
    have hone : DenotesExpr sound (.text "a") (.natural 0 1) :=
      @DenotesExpr.natural sound (.text "a") (.int 1) _ 1 ⟨⟨"a", rfl, rfl⟩, rfl⟩ rfl rfl
    have hdenotes : DenotesExpr sound (.text "b") (.annotated 0 (.natural 0 1) []) :=
      .annotated ⟨⟨"b", rfl, rfl⟩, rfl⟩ rfl rfl hone
    have hrecord : Json.Fields.get? (sound.records .exprs) "b" = some (annotationOf "a") := rfl
    exact hflaw.not_denotes hrecord ⟨_, hdenotes⟩

end TermText.Dump
