import TermText.Export.Journal
import TermText.Proofs.Declaration.Ascii
import TermText.Proofs.Dump.Numbers
import TermText.Proofs.Export.Outcome
import TermText.Proofs.Sharing.Counting

/-!
# Whatever is loaded can be exported

A loaded module is of the model, so nothing that is done with it can fail: it is encoded and exported
whatever names are internal, what tracers write of it is encoded in UTF-8, and its declarations have
fingerprints and figures of sharing. All of its numbers can be written, if those of the dump can.

Texts with surrogates that stand alone are no exception, as all that is written is in ASCII.
-/

namespace TermText

namespace Journal

/-- A hook adds lines in ASCII only. -/
theorem ascii_receive {j : Journal} (hj : ∀ line ∈ j.lines, line.Ascii) (event : Event)
    (hook : Hook) : ∀ line ∈ (j.receive event hook).lines, line.Ascii := by
  cases hook with
  | collector => exact hj
  | tracer index =>
    exact List.forall_mem_append.mpr ⟨hj, List.forall_mem_singleton.mpr (Json.ascii_compact _)⟩

/-- An event that is delivered to hooks adds lines in ASCII only. -/
theorem ascii_deliver {j : Journal} (hj : ∀ line ∈ j.lines, line.Ascii) (hooks : List Hook)
    (event : Event) : ∀ line ∈ (deliver hooks j event).lines, line.Ascii := by
  induction hooks generalizing j with
  | nil => exact hj
  | cons hook rest ih => exact ih (ascii_receive hj event hook)

/-- Whatever is delivered, the lines stay in ASCII. -/
theorem ascii_deliverAll {j : Journal} (hj : ∀ line ∈ j.lines, line.Ascii) (hooks : List Hook)
    (events : List Event) : ∀ line ∈ (j.deliverAll hooks events).lines, line.Ascii := by
  induction events generalizing j with
  | nil => exact hj
  | cons event rest ih => exact ih (ascii_deliver hj hooks event)

end Journal

namespace Term

variable {t : Term}

/-- A term of the model can be looked up. -/
theorem InModel.lookupError?_eq (h : t.InModel) : t.lookupError? = none := by
  cases t with
  | foreign id f => exact h.elim
  | _ => rfl

/-- A term of the model can be asked for its children. -/
theorem InModel.childrenOrError_eq (h : t.InModel) : t.childrenOrError = .ok t.children := by
  cases t with
  | foreign id f => exact h.elim
  | _ => rfl

/-- The children of a term of the model are of the model. -/
theorem InModel.of_mem_children (h : t.InModel) : ∀ c ∈ t.children, c.InModel := by
  have forall_mem_pair {a b : Term} (hab : a.InModel ∧ b.InModel) : ∀ c ∈ [a, b], c.InModel :=
    List.forall_mem_cons.mpr ⟨hab.1, List.forall_mem_singleton.mpr hab.2⟩
  cases t with
  | app id fn arg => exact forall_mem_pair h
  | lambda id type body binder => exact forall_mem_pair h
  | pi id type body binder => exact forall_mem_pair h
  | letIn id type value body binder =>
    exact List.forall_mem_cons.mpr ⟨h.1, forall_mem_pair h.2⟩
  | annotated id inner data => exact List.forall_mem_singleton.mpr h
  | proj id typeName index struct => exact List.forall_mem_singleton.mpr h.2
  | unwritableProj => exact h.elim
  | _ => exact List.forall_mem_nil _

/-- Terms of the model are visited to the end. -/
theorem exists_visit (stack : List Term) (tally : Tally) (h : ∀ t ∈ stack, t.InModel) :
    ∃ next, visit stack tally = (next, .ok ()) := by
  fun_induction visit stack tally with
  | case1 tally => exact ⟨tally, rfl⟩
  | case2 tally t rest e hlookup =>
    rw [(h t List.mem_cons_self).lookupError?_eq] at hlookup
    cases hlookup
  | case3 tally t rest hlookup hmet ih => exact ih (List.forall_mem_cons.mp h).2
  | case4 tally t rest hlookup hmet hleaf ih => exact ih (List.forall_mem_cons.mp h).2
  | case5 tally t rest hlookup hmet hleaf e hfailed =>
    rw [(h t List.mem_cons_self).childrenOrError_eq] at hfailed
    cases hfailed
  | case6 tally t rest hlookup hmet hleaf children hgiven ih =>
    obtain rfl := eq_children_of_childrenOrError hgiven
    obtain ⟨ht, hrest⟩ := List.forall_mem_cons.mp h
    exact ih (List.forall_mem_append.mpr ⟨ht.of_mem_children, hrest⟩)

end Term

/-- Terms of the model are counted one after another. -/
theorem SharingMetrics.exists_countAll (tally : Tally) (ts : List Term) (h : ∀ t ∈ ts, t.InModel) :
    ∃ next, countAll tally ts = .ok next := by
  induction ts generalizing tally with
  | nil => exact ⟨tally, rfl⟩
  | cons t rest ih =>
    obtain ⟨ht, hrest⟩ := List.forall_mem_cons.mp h
    obtain ⟨next, hnext⟩ := Term.exists_visit [t] tally (List.forall_mem_singleton.mpr ht)
    rw [countAll, Term.count, hnext]
    exact ih next hrest

/-- A value that is rendered in ASCII has a fingerprint. -/
theorem Fingerprint.exists_ofValue {v : Value} (h : v.render.Ascii) : ∃ f, ofValue v = .ok f := by
  obtain ⟨f, hf, -⟩ := exists_ofParts [v.render] (List.forall_mem_singleton.mpr h)
  exact ⟨f, hf⟩

namespace Declaration

mutual

/-- The terms of a declaration of the model are of the model. -/
theorem inModel_terms (d : Declaration) (h : d.InModel) : ∀ t ∈ d.terms, t.InModel := by
  cases d with
  | mk name type payload =>
    exact List.forall_mem_cons.mpr ⟨h.2.1, inModel_payloadTerms payload h.2.2⟩

/-- The terms of a payload of the model are of the model. -/
theorem inModel_payloadTerms (payload : Payload) (h : PayloadInModel payload) :
    ∀ t ∈ payloadTerms payload, t.InModel := by
  cases payload with
  | definition | proof | sealed => exact List.forall_mem_singleton.mpr h
  | family constructors => exact inModel_termsOfAll constructors h
  | _ => exact List.forall_mem_nil _

/-- So are those of several declarations. -/
theorem inModel_termsOfAll (ds : List Declaration) (h : AllInModel ds) :
    ∀ t ∈ termsOfAll ds, t.InModel := by
  cases ds with
  | nil => exact List.forall_mem_nil _
  | cons d rest =>
    exact List.forall_mem_append.mpr ⟨inModel_terms d h.1, inModel_termsOfAll rest h.2⟩

end

/-- Declarations of the model have figures of sharing. -/
theorem exists_sharing {ds : List Declaration} (h : ∀ d ∈ ds, d.InModel) :
    ∃ figures, SharingMetrics.ofDeclarations ds = .ok figures := by
  obtain ⟨tally, htally⟩ := SharingMetrics.exists_countAll [] (ds.flatMap terms) fun t ht => by
    obtain ⟨d, hd, hmem⟩ := List.mem_flatMap.mp ht
    exact d.inModel_terms (h d hd) t hmem
  exact ⟨_, by rw [SharingMetrics.ofDeclarations, htally]; rfl⟩

/-- A declaration of the model has a fingerprint. -/
theorem exists_fingerprint {d : Declaration} (h : d.InModel) :
    ∃ f, Fingerprint.ofDeclaration d = .ok f ∧ f.Ascii := by
  obtain ⟨v, hv, hascii⟩ := h.exists_ascii
  obtain ⟨f, hf, hfascii⟩ := Fingerprint.exists_ofParts ["definition", v.render]
    (List.forall_mem_cons.mpr ⟨by decide, List.forall_mem_singleton.mpr hascii⟩)
  exact ⟨f, by rw [Fingerprint.ofDeclaration, hv]; exact congrArg (Except.mapError _) hf, hfascii⟩

/-- Declarations of the model have a fingerprint together. -/
theorem exists_fingerprints {ds : List Declaration} (h : ∀ d ∈ ds, d.InModel) :
    ∃ f, Fingerprint.ofDeclarations ds = .ok f := by
  have heach : ∃ fs, Fingerprint.ofEach ds = .ok fs ∧ ∀ f ∈ fs, f.Ascii := by
    induction ds with
    | nil => exact ⟨[], rfl, List.forall_mem_nil _⟩
    | cons d rest ih =>
      obtain ⟨hd, hrest⟩ := List.forall_mem_cons.mp h
      obtain ⟨f, hf, hascii⟩ := exists_fingerprint hd
      obtain ⟨fs, hfs, hall⟩ := ih hrest
      exact ⟨f :: fs, by rw [Fingerprint.ofEach, hf, hfs]; rfl, List.forall_mem_cons.mpr ⟨hascii, hall⟩⟩
  obtain ⟨fs, hfs, hall⟩ := heach
  obtain ⟨f, hf, -⟩ := Fingerprint.exists_ofParts ("declarations" :: fs)
    (List.forall_mem_cons.mpr ⟨by decide, hall⟩)
  exact ⟨f, by rw [Fingerprint.ofDeclarations, hfs]; exact congrArg (Except.mapError _) hf⟩

end Declaration

/-- Every exporter can export a module of declarations of the model. -/
theorem Module.NumbersIn.handles {P : Int → Prop} {m : Module} (h : m.NumbersIn P) (x : Exporter) :
    ∀ d ∈ m.declarations, x.Handles d := by
  intro d hd
  have hmodel := d.inModel_of_numbersIn (h.2 d hd)
  obtain ⟨v, hv, -⟩ := d.encode_spells hmodel
  exact ⟨fun _ => d.writable_of_inModel hmodel, fun _ => Declaration.exists_kind hv⟩

/-- Every operation on a module returns: it is encoded and exported, whatever is internal; what tracers
write of it can be encoded in UTF-8; any choice of its declarations, in their order, has fingerprints
and figures of sharing. -/
structure Module.Exportable (m : Module) : Prop where
  encodes : ∀ internal : Name → Bool, ∃ v f, m.encode internal = .ok v ∧ v.render.Ascii ∧
    Fingerprint.ofValue v = .ok f
  exports : ∀ x : Exporter, ∃ v f, (x.run m).2.2 = .ok v ∧ v.render.Ascii ∧
    Fingerprint.ofValue v = .ok f
  traces : ∀ (x : Exporter) (hooks : List Hook) (j : Journal), (∀ line ∈ j.lines, line.Ascii) →
    ∃ octets, Utf8.encode (j.deliverAll hooks (x.run m).2.1).text = .ok octets
  declares : ∀ d ∈ m.declarations, ∃ v f g, d.encode = .ok v ∧ v.render.Ascii ∧
    Fingerprint.ofValue v = .ok f ∧ Fingerprint.ofDeclaration d = .ok g
  chooses : ∀ ds : List Declaration, ds.Sublist m.declarations →
    (∃ f, Fingerprint.ofDeclarations ds = .ok f) ∧
      ∃ figures, SharingMetrics.ofDeclarations ds = .ok figures

/-- A module of declarations of the model is exportable. -/
theorem Module.exportable {P : Int → Prop} {m : Module} (h : m.NumbersIn P) : m.Exportable := by
  have hds : ∀ d ∈ m.declarations, d.InModel := fun d hd => d.inModel_of_numbersIn (h.2 d hd)
  have hencodes (internal : Name → Bool) : ∃ v f, m.encode internal = .ok v ∧ v.render.Ascii ∧
      Fingerprint.ofValue v = .ok f := by
    obtain ⟨v, hv, hascii⟩ := (h.inModel internal).exists_ascii
    obtain ⟨f, hf⟩ := Fingerprint.exists_ofValue hascii
    exact ⟨v, f, hv, hascii, hf⟩
  refine ⟨hencodes, fun x => ?_, fun x hooks j hj => ?_, fun d hd => ?_, fun ds hsub => ?_⟩
  · rw [x.run_result m (h.handles x)]
    exact hencodes x.hides
  · exact Utf8.exists_encode (Text.encodable_lines (Journal.ascii_deliverAll hj hooks _))
  · obtain ⟨v, hv, hascii⟩ := (hds d hd).exists_ascii
    obtain ⟨f, hf⟩ := Fingerprint.exists_ofValue hascii
    obtain ⟨g, hg, -⟩ := Declaration.exists_fingerprint (hds d hd)
    exact ⟨v, f, g, hv, hascii, hf, hg⟩
  · have hchosen : ∀ d ∈ ds, d.InModel := fun d hd => hds d (hsub.subset hd)
    exact ⟨Declaration.exists_fingerprints hchosen, Declaration.exists_sharing hchosen⟩

namespace Dump

/-- What is loaded is of the model, whatever its numbers. -/
theorem numbersIn_true_of_load {dump : Json} {m : Module} (h : load dump = .ok m) :
    m.NumbersIn fun _ => True := by
  have hall : Admits fun _ => True :=
    ⟨trivial, fun _ => trivial, fun _ => trivial, fun _ => trivial, fun _ _ _ => trivial⟩
  exact numbersIn_of_load hall dump.integersIn_true h

/-- What is loaded is exportable. -/
theorem exportable_of_load {dump : Json} {m : Module} (h : load dump = .ok m) : m.Exportable :=
  Module.exportable (numbersIn_true_of_load h)

/-- Whatever a dump holds, if it is loaded the module is exportable; and if all integers of the dump
fit into the limit on digits, all numbers of the module do, so that they can be written. -/
theorem load_exportable {dump : Json} {m : Module} (h : load dump = .ok m) :
    m.Exportable ∧ (dump.IntegersIn Numeral.Fits → m.NumbersIn Numeral.Fits) :=
  ⟨exportable_of_load h, fun hdump => numbersIn_of_load admits_fits hdump h⟩

/-- An inductive type and its constructor. Their name and a literal are surrogates that stand alone;
the hash of the name is a truth value. -/
theorem load_exportable_with_surrogates :
    let dump : Json := .object
      [("names", .object
          [("n", .object [("str", .text [.ofNat 0xD800]), ("hash", .bool true)])]),
        ("exprs", .object
          [("t", .object [("kind", .text "strlit"), ("value", .text [.ofNat 0xDC00])]),
            ("v", .object [("kind", .text "bvar"), ("index", .int 7)])]),
        ("module", .text "n"),
        ("declarations", .list
          [.object [("name", .text "n"), ("type", .text "t"), ("kind", .text "inductive"),
            ("constructors", .list
              [.object [("name", .text "n"), ("type", .text "v"), ("kind", .text "constructor"),
                ("induct", .text "n")]])]])]
    let alone : Name := .extend .anonymous (.text [.ofNat 0xD800]) (.int 1)
    let m : Module := ⟨alone,
      [.mk alone (.text 0 [.ofNat 0xDC00]) (.family
        [.mk alone (.boundVar 1 7) (.constructor alone)])]⟩
    load dump = .ok m ∧ m.Exportable ∧ m.NumbersIn Numeral.Fits := by
  intro dump alone m
  have hload : load dump = .ok m := by rfl
  have hdump : dump.IntegersIn Numeral.Fits := by
    have hseven : Numeral.Fits 7 := Numeral.fits_of_lt_pow 1 (by decide) (by decide)
    simp [dump, Json.IntegersIn, Json.FieldsIntegersIn, Json.ItemsIntegersIn, hseven]
  obtain ⟨hexportable, hnumbers⟩ := load_exportable hload
  exact ⟨hload, hexportable, hnumbers hdump⟩

end Dump

end TermText
