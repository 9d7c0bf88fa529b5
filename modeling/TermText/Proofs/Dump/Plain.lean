import TermText.Proofs.Dump.Declarations

/-!
# Chains and plain recursion

By plain recursion every reference is resolved by itself, and an application is built from its function and
its argument; a fault that is met in a record is blamed on the record. Building applications along their
chains finds the same terms, leaves the same sessions and reports the same errors.

A dump is a JSON document, and a loader is given one that is ready for JSON: it holds no integer above the
limit for numerals, which has no text and so is neither read nor written. Beyond these dumps the errors differ
in one case: where the function or the argument of an application has no label, plain recursion blames the
application record, and a chain blames no record or one from which the application is reached.
-/

namespace TermText.Dump

variable {α β : Type}

/-- The term that a reference stands for by plain recursion, its parts being found by `resolve`. -/
def plainStep (tables : Tables) (resolve : Json → Load Term) (ref : Json) : Load Term := do
  let id ← Load.written ref.label
  Load.resolve tables.exprShelf (buildExpr tables resolve) id

/-- The term that a reference stands for by plain recursion. -/
def plainExpr (tables : Tables) : Json → Load Term :=
  nestedExpr tables (.blameRecord .exprs)

/-- Plain recursion resolves a reference by a step that resolves those in its record. -/
theorem plainExpr_eq (tables : Tables) : plainExpr tables = plainStep tables (plainExpr tables) :=
  nestedExpr_eq tables (.blameRecord .exprs)

/-- A text is its own label. -/
theorem plainExpr_text (tables : Tables) (id : Text) : plainExpr tables (.text id) =
    Load.resolve (tables.blamingShelf (.blameRecord .exprs)) (buildExpr tables (plainExpr tables)) id :=
  congrFun (nestedExpr_eq tables (.blameRecord .exprs)) (.text id)

variable {R : Error → Error → Prop}

/-- The tables of a dump that is ready for JSON, as the loader asks of its dumps: it holds no integer above the
limit for numerals, for which there is no JSON text. -/
def Tables.Ready (tables : Tables) : Prop :=
  ∃ dump : Json, dump.isWritable = true ∧ Dump.tables dump = .ok tables

/-- So are all records of its tables. -/
theorem Tables.Ready.isWritable {tables : Tables} (h : tables.Ready) {table : Table} {id : Text}
    {record : Json} (hrecord : Json.Fields.get? (tables.records table) id = some record) :
    record.isWritable = true := by
  obtain ⟨dump, hdump, htables⟩ := h
  have htable {records : Json.Fields} (hrecords : tableOf dump.fields table = .ok records)
      (hfound : records.get? id = some record) : record.isWritable = true := by
    unfold tableOf at hrecords
    split at hrecords
    · cases hrecords
      cases hfound
    · next hfield =>
      cases hrecords
      exact Json.isWritable_of_get? (Json.isWritable_of_get? hdump hfield) hfound
    · cases hrecords
  unfold Dump.tables at htables
  split at htables
  · next fields hfields =>
    obtain rfl : fields = dump.fields := by
      cases dump <;> simp_all [Json.fieldsFor, Json.fields]
    obtain ⟨hnames, hlevels, hexprs⟩ := tablesOf_eq_ok htables
    cases table with
    | names => exact htable hnames hrecord
    | levels => exact htable hlevels hrecord
    | exprs => exact htable hexprs hrecord
  · cases htables

/-- An application record whose function or argument has no label. -/
def Tables.Unlabelled (tables : Tables) (id : Text) : Prop :=
  ∃ record, tables.app? id = some record ∧
    ∃ (key : Text) (ref : Json), (key = "fn" ∨ key = "arg") ∧ record.field key = .ok ref ∧
      ref.isWritable = false

variable {tables : Tables} {id : Text} {record ref : Json} {s s' : Session} {e e' : Error}

/-- In the tables of a dump that is ready for JSON every reference has a label. -/
theorem Tables.Ready.not_unlabelled (h : tables.Ready) (id : Text) : ¬ tables.Unlabelled id := by
  rintro ⟨record, happ, key, ref, -, hfield, hwritable⟩
  have hrecord : Json.Fields.get? (tables.records .exprs) id = some record := (exists_kind_of_app? happ).1
  rw [Json.isWritable_of_get? (h.isWritable hrecord) (Recipe.get?_of_field hfield)] at hwritable
  cases hwritable

/-- The least integer above the limit for numerals. -/
def leastUnwritable : Json :=
  .int (Numeral.boundOf Numeral.digitLimit)

/-- It has no text. -/
theorem isWritable_leastUnwritable : leastUnwritable.isWritable = false := by
  rw [← Bool.not_eq_true, leastUnwritable, Json.isWritable_int, Numeral.fits_iff, ← Numeral.boundOf_eq,
    Int.natAbs_natCast]
  exact Nat.lt_irrefl _

/-- An application whose function is referred to by an integer above the limit. -/
def unlabelledFunction : Json :=
  .object [("kind", .text "app"), ("fn", leastUnwritable), ("arg", .text "x")]

/-- The least integer above the limit has no label. -/
theorem label_leastUnwritable : leastUnwritable.label = .error .tooLong :=
  Json.label_eq_error.mpr ⟨isWritable_leastUnwritable, rfl⟩

/-- Tables with such an application come of no dump that is ready for JSON. -/
theorem Tables.not_ready_of_unlabelledFunction (happ : tables.app? id = some unlabelledFunction) :
    ¬ tables.Ready :=
  fun hready => hready.not_unlabelled id ⟨_, happ, "fn", _, .inl rfl, rfl, isWritable_leastUnwritable⟩

/-- Along its chain such an application reports the bare fault, and leaves the session as it was. -/
theorem linkedAt_unlabelledFunction (happ : tables.app? id = some unlabelledFunction)
    (hmiss : lookup? s.exprs id = none) (hidle : s.isActive .exprs id = false) :
    linkedAt tables id s = .error (.fault (.numeral .tooLong)) s := by
  have hfn : unlabelledFunction.field "fn" = .ok leastUnwritable := rfl
  have hfunction (s : Session) :
      linkedExpr tables leastUnwritable s = .error (.fault (.numeral .tooLong)) s := by
    rw [linkedExpr_eq, label_leastUnwritable]
    rfl
  rw [linkedAt_app_apply happ hmiss hidle]
  simp only [hfn, hfunction, Session.stop_start hidle]

/-- The limit is needed: where the function of an application has no label, plain recursion blames the
application, and a chain reports the bare fault. -/
theorem chains_differ_beyond_limit :
    let tables : Tables := ⟨[], [], [("a", unlabelledFunction)]⟩
    ¬ tables.Ready ∧ expr tables (.text "a") .empty = .error (.fault (.numeral .tooLong)) .empty ∧
      plainExpr tables (.text "a") .empty =
        .error (.malformed .exprs "a" (.numeral .tooLong)) .empty := by
  intro tables
  have happ : tables.app? "a" = some unlabelledFunction := rfl
  have hfn : unlabelledFunction.field "fn" = .ok leastUnwritable := rfl
  have hmark : (Session.empty.start .exprs "a").stop .exprs "a" = .empty := Session.stop_start rfl
  have hfunction (s : Session) :
      plainExpr tables leastUnwritable s = .error (.fault (.numeral .tooLong)) s := by
    rw [plainExpr_eq, plainStep, label_leastUnwritable]
    rfl
  refine ⟨Tables.not_ready_of_unlabelledFunction happ, ?_, ?_⟩
  · rw [expr_eq_linkedExpr, linkedExpr_text, linkedAt_unlabelledFunction happ rfl rfl]
  · rw [plainExpr_text, resolve_app_apply happ rfl rfl]
    simp only [hfn, hfunction, hmark, Error.blameRecord]

end TermText.Dump
