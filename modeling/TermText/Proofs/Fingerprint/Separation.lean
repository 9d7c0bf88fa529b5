import Mathlib.Data.List.Forall2
import TermText.Proofs.Declaration.AsciiLists
import TermText.Proofs.Digest.Collision
import TermText.Proofs.Name.Preimages

/-!
# Fingerprints separate what they are taken of

The digest is taken of texts with bars between them, which are not escaped. Still the whole can be taken
apart: what is behind the mark of a declaration is one text, whatever it holds, and what is behind the mark
of a table are digests, which hold no bar. So if the digest has no collision among the preimages in play,
then two values have one fingerprint exactly if they are rendered alike, two declarations if their encodings
are, and two tables if they are as long as each other and alike position by position; and lists,
declarations and tables never have a fingerprint in common. A text with a surrogate in it has no fingerprint at all, so for
values the equivalence asks that the rendering can be encoded; encodings of declarations are in ASCII.
-/

namespace TermText.Fingerprint

/-- Two operations that both give a fingerprint, and the same. -/
def Same {ε ε' : Type} (a : Except ε Text) (b : Except ε' Text) : Prop :=
  ∃ f, a = .ok f ∧ b = .ok f

/-- The digest of octets as far as it goes into a fingerprint. -/
def digest (octets : List UInt8) : Text :=
  (Sha256.hexDigest octets).take 16

/-- The octets whose digest is the fingerprint of texts in order; there are none if the texts hold
surrogates. -/
def preimages (parts : List Text) : List (List UInt8) :=
  match Utf8.encode (preimage parts) with
  | .ok octets => [octets]
  | .error _ => []

/-- The octets whose digest is the fingerprint of a value. -/
def valuePreimages (v : Value) : List (List UInt8) :=
  preimages [v.render]

/-- The octets whose digest is the fingerprint of a declaration. -/
def declarationPreimages (d : Declaration) : List (List UInt8) :=
  match d.encode with
  | .ok v => preimages ["definition", v.render]
  | .error _ => []

/-- The octets of which digests are taken for a table: those of its declarations, and those of the
fingerprints of these. -/
def tablePreimages (ds : List Declaration) : List (List UInt8) :=
  ds.flatMap declarationPreimages ++
    match ofEach ds with
    | .ok parts => preimages ("declarations" :: parts)
    | .error _ => []

/-- What a failure is called does not matter to what succeeds. -/
theorem mapError_eq_ok_iff {ε δ α : Type} {a : Except ε α} {f : ε → δ} {x : α} :
    a.mapError f = .ok x ↔ a = .ok x := by
  cases a <;> simp [Except.mapError]

section Texts

variable {parts parts' : List Text}

/-- Texts without surrogates have a fingerprint, which is the digest of their octets. -/
theorem ofParts_eq_ok_iff {f : Text} :
    ofParts parts = .ok f ↔ ∃ octets, Utf8.encode (preimage parts) = .ok octets ∧ f = digest octets := by
  rw [ofParts]
  cases Utf8.encode (preimage parts) with
  | error e => simp [bind, Except.bind]
  | ok octets => simp [bind, Except.bind, digest, eq_comm]

/-- The preimages of parts are the octets of their text, if it has any. -/
theorem mem_preimages {octets : List UInt8} :
    octets ∈ preimages parts ↔ Utf8.encode (preimage parts) = .ok octets := by
  rw [preimages]
  cases Utf8.encode (preimage parts) with
  | error e => simp
  | ok given => simp [eq_comm]

/-- Texts have one fingerprint exactly if they are the same with bars between them, and can be encoded. -/
theorem same_ofParts_iff (hfree : CollisionFree digest (preimages parts ++ preimages parts')) :
    Same (ofParts parts) (ofParts parts') ↔
      preimage parts = preimage parts' ∧ (preimage parts).Encodable := by
  constructor
  · rintro ⟨f, hf, hf'⟩
    obtain ⟨octets, hoctets, rfl⟩ := ofParts_eq_ok_iff.mp hf
    obtain ⟨octets', hoctets', hdigest⟩ := ofParts_eq_ok_iff.mp hf'
    obtain rfl := hfree octets (List.mem_append_left _ (mem_preimages.mpr hoctets)) octets'
      (List.mem_append_right _ (mem_preimages.mpr hoctets')) hdigest
    exact ⟨Utf8.encode_injective hoctets hoctets', (Utf8.encodable_of_encode hoctets).1⟩
  · rintro ⟨hsame, hencodable⟩
    obtain ⟨octets, hoctets⟩ := Utf8.exists_encode hencodable
    exact ⟨digest octets, ofParts_eq_ok_iff.mpr ⟨octets, hoctets, rfl⟩,
      ofParts_eq_ok_iff.mpr ⟨octets, hsame ▸ hoctets, rfl⟩⟩

end Texts

/-- The preimage of one part is the part. -/
theorem preimage_singleton (t : Text) : preimage [t] = t := rfl

/-- A bar stands between two parts. -/
theorem preimage_cons_cons (s t : Text) (rest : List Text) :
    preimage (s :: t :: rest) = s ++ bar :: preimage (t :: rest) := by
  rw [preimage, Text.join_cons_cons, List.append_assoc]
  rfl

/-- Whatever its rendering holds, a declaration is told by what is behind the first bar. -/
theorem preimage_definition_inj {t t' : Text} :
    preimage ["definition", t] = preimage ["definition", t'] ↔ t = t' := by
  rw [preimage_cons_cons, preimage_cons_cons, List.append_cancel_left_eq, List.cons.injEq]
  exact and_iff_right rfl

/-- A fingerprint holds no bar. -/
theorem bar_notMem_digest (octets : List UInt8) : bar ∉ digest octets := by
  have hdigit : ∀ n : Fin 16, Hexadecimal.digit n ≠ bar := by decide
  have hnumeral (width n : Nat) : bar ∉ Hexadecimal.ofNat width n := by
    induction width generalizing n with
    | zero => exact List.not_mem_nil
    | succ width ih =>
      rw [Hexadecimal.ofNat, List.mem_append, List.mem_singleton]
      exact not_or.mpr ⟨ih (n / 16), (hdigit ⟨n % 16, Nat.mod_lt n (by decide)⟩).symm⟩
  intro hmem
  obtain ⟨word, -, hword⟩ := List.mem_flatMap.mp (List.mem_of_mem_take hmem)
  exact hnumeral 8 word.toNat hword

/-- A digest is of ASCII. -/
theorem ascii_digest (octets : List UInt8) : (digest octets).Ascii :=
  fun c hc => Sha256.ascii_hexDigest octets c (List.mem_of_mem_take hc)

/-- No fingerprint of parts holds a bar. -/
theorem bar_notMem_of_ofParts {parts : List Text} {f : Text} (h : ofParts parts = .ok f) : bar ∉ f := by
  obtain ⟨octets, -, rfl⟩ := ofParts_eq_ok_iff.mp h
  exact bar_notMem_digest octets

section Declarations

variable {d d' : Declaration} {ds ds' : List Declaration}

/-- A declaration with an encoding has the fingerprint of its mark and its rendering. -/
theorem ofDeclaration_eq_ok_iff {f : Text} :
    ofDeclaration d = .ok f ↔ ∃ v, d.encode = .ok v ∧ ofParts ["definition", v.render] = .ok f := by
  rw [ofDeclaration]
  cases d.encode with
  | error e => simp [bind, Except.bind, Except.mapError]
  | ok v => exact mapError_eq_ok_iff.trans ⟨fun h => ⟨v, rfl, h⟩, fun ⟨_, hw, h⟩ => Except.ok.inj hw ▸ h⟩

/-- What is hashed for a declaration that is encoded. -/
theorem declarationPreimages_of_encode {v : Value} (h : d.encode = .ok v) :
    declarationPreimages d = preimages ["definition", v.render] := by
  rw [declarationPreimages, h]

/-- Two declarations have one fingerprint exactly if their encodings are rendered alike: every encoding is
in ASCII and has a fingerprint. -/
theorem same_ofDeclaration_iff (hfree : CollisionFree digest (declarationPreimages d ++ declarationPreimages d')) :
    Same (ofDeclaration d) (ofDeclaration d') ↔ Encoding.Alike d.encode d'.encode := by
  constructor
  · rintro ⟨f, hf, hf'⟩
    obtain ⟨v, hv, hparts⟩ := ofDeclaration_eq_ok_iff.mp hf
    obtain ⟨v', hv', hparts'⟩ := ofDeclaration_eq_ok_iff.mp hf'
    rw [declarationPreimages_of_encode hv, declarationPreimages_of_encode hv'] at hfree
    have hsame := ((same_ofParts_iff hfree).mp ⟨f, hparts, hparts'⟩).1
    exact ⟨v, v', hv, hv', preimage_definition_inj.mp hsame⟩
  · rintro ⟨v, v', hv, hv', hrender⟩
    have hascii := (d.asciiList_encode v hv).ascii_render
    obtain ⟨f, hf, -⟩ := exists_ofParts ["definition", v.render]
      (List.forall_mem_cons.mpr ⟨by decide, List.forall_mem_singleton.mpr hascii⟩)
    exact ⟨f, ofDeclaration_eq_ok_iff.mpr ⟨v, hv, hf⟩, ofDeclaration_eq_ok_iff.mpr ⟨v', hv', hrender ▸ hf⟩⟩

/-- The fingerprints of the declarations of a table are taken one by one. -/
theorem ofEach_cons_eq_ok_iff {fs : List Text} :
    ofEach (d :: ds) = .ok fs ↔ ∃ f gs, ofDeclaration d = .ok f ∧ ofEach ds = .ok gs ∧ fs = f :: gs := by
  rw [ofEach]
  cases ofDeclaration d with
  | error e => simp [bind, Except.bind]
  | ok f =>
    cases ofEach ds with
    | error e => simp [bind, Except.bind]
    | ok gs => simp [bind, Except.bind, eq_comm]

/-- The declarations of two tables have the same fingerprints one by one exactly if they do position by
position. -/
theorem exists_ofEach_iff : (∃ fs, ofEach ds = .ok fs ∧ ofEach ds' = .ok fs) ↔
    List.Forall₂ (fun d d' => Same (ofDeclaration d) (ofDeclaration d')) ds ds' := by
  induction ds generalizing ds' with
  | nil =>
    rw [List.forall₂_nil_left_iff]
    constructor
    · rintro ⟨fs, hfs, hfs'⟩
      obtain rfl : [] = fs := Except.ok.inj hfs
      cases ds' with
      | nil => rfl
      | cons d' rest' =>
        obtain ⟨f, gs, -, -, hcons⟩ := ofEach_cons_eq_ok_iff.mp hfs'
        cases hcons
    · rintro rfl
      exact ⟨[], rfl, rfl⟩
  | cons d rest ih =>
    rw [List.forall₂_cons_left_iff]
    constructor
    · rintro ⟨fs, hfs, hfs'⟩
      obtain ⟨f, gs, hf, hgs, rfl⟩ := ofEach_cons_eq_ok_iff.mp hfs
      cases ds' with
      | nil => cases hfs'
      | cons d' rest' =>
        obtain ⟨f', gs', hf', hgs', hcons⟩ := ofEach_cons_eq_ok_iff.mp hfs'
        obtain ⟨rfl, rfl⟩ := List.cons.inj hcons
        exact ⟨d', rest', ⟨f, hf, hf'⟩, ih.mp ⟨gs, hgs, hgs'⟩, rfl⟩
    · rintro ⟨d', rest', ⟨f, hf, hf'⟩, hrest, rfl⟩
      obtain ⟨gs, hgs, hgs'⟩ := ih.mpr hrest
      exact ⟨f :: gs, ofEach_cons_eq_ok_iff.mpr ⟨f, gs, hf, hgs, rfl⟩,
        ofEach_cons_eq_ok_iff.mpr ⟨f, gs, hf', hgs', rfl⟩⟩

/-- So they do exactly if the declarations are rendered alike position by position. -/
theorem forall₂_same_iff
    (hfree : CollisionFree digest (ds.flatMap declarationPreimages ++ ds'.flatMap declarationPreimages)) :
    List.Forall₂ (fun d d' => Same (ofDeclaration d) (ofDeclaration d')) ds ds' ↔
      List.Forall₂ (fun d d' => Encoding.Alike d.encode d'.encode) ds ds' := by
  have hpair : ∀ d ∈ ds, ∀ d' ∈ ds',
      (Same (ofDeclaration d) (ofDeclaration d') ↔ Encoding.Alike d.encode d'.encode) := by
    intro d hd d' hd'
    refine same_ofDeclaration_iff (hfree.of_parts ?_ ?_)
    · exact fun p hp => List.mem_append_left _ (List.mem_flatMap.mpr ⟨d, hd, hp⟩)
    · exact fun p hp => List.mem_append_right _ (List.mem_flatMap.mpr ⟨d', hd', hp⟩)
  rw [List.forall₂_iff_zip, List.forall₂_iff_zip]
  refine and_congr_right fun _ => ⟨fun h d d' hmem => ?_, fun h d d' hmem => ?_⟩
  · exact (hpair d (List.of_mem_zip hmem).1 d' (List.of_mem_zip hmem).2).mp (h hmem)
  · exact (hpair d (List.of_mem_zip hmem).1 d' (List.of_mem_zip hmem).2).mpr (h hmem)

/-- No fingerprint of a declaration holds a bar. -/
theorem bar_notMem_of_ofEach {fs : List Text} (h : ofEach ds = .ok fs) : ∀ f ∈ fs, bar ∉ f := by
  induction ds generalizing fs with
  | nil =>
    obtain rfl : [] = fs := Except.ok.inj h
    exact List.forall_mem_nil _
  | cons d rest ih =>
    obtain ⟨f, gs, hf, hgs, rfl⟩ := ofEach_cons_eq_ok_iff.mp h
    obtain ⟨v, -, hparts⟩ := ofDeclaration_eq_ok_iff.mp hf
    exact List.forall_mem_cons.mpr ⟨bar_notMem_of_ofParts hparts, ih hgs⟩

/-- The mark of a table and fingerprints are told apart by the bars between them. -/
theorem preimage_table_inj {mark : Text} (hmark : bar ∉ mark) {fs fs' : List Text}
    (hfs : ∀ f ∈ fs, bar ∉ f) (hfs' : ∀ f ∈ fs', bar ∉ f)
    (h : preimage (mark :: fs) = preimage (mark :: fs')) : fs = fs' := by
  have hjoined {gs : List Text} (hgs : ∀ f ∈ gs, bar ∉ f) :
      Text.splitOn bar (preimage (mark :: gs)) = mark :: gs :=
    Text.splitOn_join (List.cons_ne_nil _ _) (List.forall_mem_cons.mpr ⟨hmark, hgs⟩)
  have hsplit := congrArg (Text.splitOn bar) h
  rw [hjoined hfs, hjoined hfs'] at hsplit
  exact (List.cons.inj hsplit).2

/-- A table whose declarations have fingerprints has the fingerprint of its mark and of these. -/
theorem ofDeclarations_eq_ok_iff {f : Text} :
    ofDeclarations ds = .ok f ↔ ∃ fs, ofEach ds = .ok fs ∧ ofParts ("declarations" :: fs) = .ok f := by
  rw [ofDeclarations]
  cases ofEach ds with
  | error e => simp [bind, Except.bind]
  | ok fs => simp [bind, Except.bind, mapError_eq_ok_iff]

/-- What is hashed for a table of declarations that have fingerprints. -/
theorem tablePreimages_of_ofEach {fs : List Text} (h : ofEach ds = .ok fs) :
    tablePreimages ds = ds.flatMap declarationPreimages ++ preimages ("declarations" :: fs) := by
  rw [tablePreimages, h]

/-- A table whose declarations have fingerprints has one. -/
theorem exists_ofDeclarations {fs : List Text} (h : ofEach ds = .ok fs) : ∃ f, ofDeclarations ds = .ok f := by
  have hascii : ∀ f ∈ fs, f.Ascii := by
    induction ds generalizing fs with
    | nil =>
      obtain rfl : [] = fs := Except.ok.inj h
      exact List.forall_mem_nil _
    | cons d rest ih =>
      obtain ⟨f, gs, hf, hgs, rfl⟩ := ofEach_cons_eq_ok_iff.mp h
      obtain ⟨v, -, hparts⟩ := ofDeclaration_eq_ok_iff.mp hf
      obtain ⟨octets, -, rfl⟩ := ofParts_eq_ok_iff.mp hparts
      exact List.forall_mem_cons.mpr ⟨ascii_digest octets, ih hgs⟩
  obtain ⟨f, hf, -⟩ := exists_ofParts ("declarations" :: fs) (List.forall_mem_cons.mpr ⟨by decide, hascii⟩)
  exact ⟨f, ofDeclarations_eq_ok_iff.mpr ⟨fs, h, hf⟩⟩

/-- Two tables have one fingerprint exactly if they are rendered alike position by position. -/
theorem same_ofDeclarations_iff (hfree : CollisionFree digest (tablePreimages ds ++ tablePreimages ds')) :
    Same (ofDeclarations ds) (ofDeclarations ds') ↔
      List.Forall₂ (fun d d' => Encoding.Alike d.encode d'.encode) ds ds' := by
  have hdeclarations : CollisionFree digest (ds.flatMap declarationPreimages ++ ds'.flatMap declarationPreimages) :=
    hfree.of_parts (List.subset_append_of_subset_left _ (List.subset_append_left _ _))
      (List.subset_append_of_subset_right _ (List.subset_append_left _ _))
  rw [← forall₂_same_iff hdeclarations, ← exists_ofEach_iff]
  constructor
  · rintro ⟨f, hf, hf'⟩
    obtain ⟨fs, hfs, hparts⟩ := ofDeclarations_eq_ok_iff.mp hf
    obtain ⟨fs', hfs', hparts'⟩ := ofDeclarations_eq_ok_iff.mp hf'
    rw [tablePreimages_of_ofEach hfs, tablePreimages_of_ofEach hfs'] at hfree
    have htables := hfree.of_parts (List.subset_append_of_subset_left _ (List.subset_append_right _ _))
      (List.subset_append_of_subset_right _ (List.subset_append_right _ _))
    have hsame := ((same_ofParts_iff htables).mp ⟨f, hparts, hparts'⟩).1
    obtain rfl := preimage_table_inj (by decide) (bar_notMem_of_ofEach hfs) (bar_notMem_of_ofEach hfs') hsame
    exact ⟨fs, hfs, hfs'⟩
  · rintro ⟨fs, hfs, hfs'⟩
    obtain ⟨f, hf⟩ := exists_ofDeclarations hfs
    obtain ⟨given, hgiven, hparts⟩ := ofDeclarations_eq_ok_iff.mp hf
    obtain rfl := Except.ok.inj (hfs.symm.trans hgiven)
    exact ⟨f, hf, ofDeclarations_eq_ok_iff.mpr ⟨fs, hfs', hparts⟩⟩

end Declarations

section Operations

variable {items : List Value} {d : Declaration} {ds : List Declaration}

/-- Texts that begin with openings of which neither begins the other have different fingerprints. -/
theorem not_same_of_openings {parts parts' : List Text} {opening opening' : Text}
    (hfree : CollisionFree digest (preimages parts ++ preimages parts')) (hopens : opening <+: preimage parts)
    (hopens' : opening' <+: preimage parts') (hapart : ¬ opening <+: opening')
    (hapart' : ¬ opening' <+: opening) : ¬ Same (ofParts parts) (ofParts parts') := by
  intro hsame
  have hpreimages := ((same_ofParts_iff hfree).mp hsame).1
  rcases List.prefix_or_prefix_of_prefix hopens (hpreimages ▸ hopens') with h | h
  · exact hapart h
  · exact hapart' h

/-- The first of texts with bars between them begins the whole. -/
theorem prefix_preimage (mark : Text) (parts : List Text) : mark <+: preimage (mark :: parts) := by
  cases parts with
  | nil => exact List.prefix_refl mark
  | cons part parts => exact preimage_cons_cons mark part parts ▸ List.prefix_append _ _

/-- The rendering of a list begins with a parenthesis. -/
theorem prefix_preimage_list (items : List Value) : "(" <+: preimage [(Value.list items).render] := by
  rw [preimage_singleton, Value.render, List.append_assoc]
  exact List.prefix_append _ _

/-- No list has the fingerprint of a declaration. -/
theorem not_same_list_declaration
    (hfree : CollisionFree digest (valuePreimages (.list items) ++ declarationPreimages d)) :
    ¬ Same (ofValue (.list items)) (ofDeclaration d) := by
  rintro ⟨f, hf, hf'⟩
  obtain ⟨w, hw, hparts⟩ := ofDeclaration_eq_ok_iff.mp hf'
  rw [declarationPreimages_of_encode hw] at hfree
  exact not_same_of_openings hfree (prefix_preimage_list items) (prefix_preimage _ _) (by decide) (by decide)
    ⟨f, hf, hparts⟩

/-- No list has the fingerprint of a table. -/
theorem not_same_list_table (hfree : CollisionFree digest (valuePreimages (.list items) ++ tablePreimages ds)) :
    ¬ Same (ofValue (.list items)) (ofDeclarations ds) := by
  rintro ⟨f, hf, hf'⟩
  obtain ⟨fs, hfs, hparts⟩ := ofDeclarations_eq_ok_iff.mp hf'
  rw [tablePreimages_of_ofEach hfs] at hfree
  have hpair := hfree.of_parts (List.subset_append_left _ _)
    (List.subset_append_of_subset_right _ (List.subset_append_right _ _))
  exact not_same_of_openings hpair (prefix_preimage_list items) (prefix_preimage _ _) (by decide) (by decide)
    ⟨f, hf, hparts⟩

/-- No declaration has the fingerprint of a table. -/
theorem not_same_declaration_table (hfree : CollisionFree digest (declarationPreimages d ++ tablePreimages ds)) :
    ¬ Same (ofDeclaration d) (ofDeclarations ds) := by
  rintro ⟨f, hf, hf'⟩
  obtain ⟨w, hw, hparts⟩ := ofDeclaration_eq_ok_iff.mp hf
  obtain ⟨fs, hfs, hparts'⟩ := ofDeclarations_eq_ok_iff.mp hf'
  rw [declarationPreimages_of_encode hw, tablePreimages_of_ofEach hfs] at hfree
  have hpair := hfree.of_parts (List.subset_append_left _ _)
    (List.subset_append_of_subset_right _ (List.subset_append_right _ _))
  exact not_same_of_openings hpair (prefix_preimage _ _) (prefix_preimage _ _) (by decide) (by decide)
    ⟨f, hparts, hparts'⟩

end Operations

/-- If the truncated digest has no collision among the preimages in play, then two values have one
fingerprint exactly if they are rendered alike, in what can be encoded; two declarations exactly if their
encodings are rendered alike; two tables exactly if they have the same length and are rendered alike
position by position. And lists, declarations and tables have no fingerprint in common. -/
theorem fingerprints_separate :
    (∀ v w : Value, CollisionFree digest (valuePreimages v ++ valuePreimages w) →
      (Same (ofValue v) (ofValue w) ↔ v.render = w.render ∧ v.render.Encodable)) ∧
    (∀ d d' : Declaration, CollisionFree digest (declarationPreimages d ++ declarationPreimages d') →
      (Same (ofDeclaration d) (ofDeclaration d') ↔ Encoding.Alike d.encode d'.encode)) ∧
    (∀ ds ds' : List Declaration, CollisionFree digest (tablePreimages ds ++ tablePreimages ds') →
      (Same (ofDeclarations ds) (ofDeclarations ds') ↔
        List.Forall₂ (fun d d' => Encoding.Alike d.encode d'.encode) ds ds')) ∧
    ∀ (items : List Value) (d : Declaration) (ds : List Declaration),
      CollisionFree digest (valuePreimages (.list items) ++ declarationPreimages d ++ tablePreimages ds) →
        ¬ Same (ofValue (.list items)) (ofDeclaration d) ∧
          ¬ Same (ofValue (.list items)) (ofDeclarations ds) ∧
            ¬ Same (ofDeclaration d) (ofDeclarations ds) := by
  refine ⟨fun v w => same_ofParts_iff, fun d d' => same_ofDeclaration_iff,
    fun ds ds' => same_ofDeclarations_iff, fun items d ds hfree => ⟨?_, ?_, ?_⟩⟩
  · exact not_same_list_declaration (hfree.of_subset (List.subset_append_left _ _))
  · exact not_same_list_table (hfree.of_parts
      (List.subset_append_of_subset_left _ (List.subset_append_left _ _)) (List.subset_append_right _ _))
  · exact not_same_declaration_table (hfree.of_parts
      (List.subset_append_of_subset_left _ (List.subset_append_right _ _)) (List.subset_append_right _ _))

/-- A list of a numeral and one of an integer, a declaration with and without an annotation, and tables of
one declaration and of none. -/
theorem fingerprints_separate_small :
    let numeral : Value := .list [.atom ⟨"1", by decide⟩]
    let d (type : Term) : Declaration := .mk .anonymous type .assumption
    let zero : Term := .boundVar 0 0
    Same (ofValue numeral) (ofValue (.list [.int 1])) ∧
    Same (ofDeclaration (d zero)) (ofDeclaration (d (.annotated 1 zero []))) ∧
    ¬ Same (ofDeclarations [d zero]) (ofDeclarations []) ∧
    ¬ Same (ofValue numeral) (ofDeclaration (d zero)) ∧ ¬ Same (ofValue numeral) (ofDeclarations []) ∧
      ¬ Same (ofDeclaration (d zero)) (ofDeclarations []) := by
  intro numeral d zero
  have hone : numeral.render = (Value.list [.int 1]).render := by decide +kernel
  have hencode (type : Term) (w : Value) (h : type.encode = .ok w) :
      (d type).encode =
        .ok (.tagged .definition [.tagged .anonymous [], w, .tagged .assumption []]) := by
    simp only [d, Declaration.encode, Declaration.encodePayload, Name.encode, h]
    rfl
  have hzero : zero.encode = .ok (.tagged .boundVar [.int 0]) := by
    rw [Term.encode]
    rfl
  have hannotated : (Term.annotated 1 zero []).encode = .ok (.tagged .boundVar [.int 0]) := by
    rw [Term.encode, hzero]
  have hvalue : valuePreimages (.list [.int 1]) = valuePreimages numeral := by
    rw [valuePreimages, valuePreimages, hone]
  have hdeclaration : declarationPreimages (d (.annotated 1 zero [])) = declarationPreimages (d zero) := by
    rw [declarationPreimages_of_encode (hencode _ _ hannotated),
      declarationPreimages_of_encode (hencode _ _ hzero)]
  have hfree : CollisionFree digest (valuePreimages numeral ++ declarationPreimages (d zero) ++
      (tablePreimages [d zero] ++ tablePreimages [])) := by
    decide +kernel
  obtain ⟨hvalues, hdeclarations, htables, hapart⟩ := fingerprints_separate
  refine ⟨?_, ?_, ?_, ?_⟩
  · refine (hvalues _ _ (hfree.of_parts ?_ (hvalue ▸ ?_))).mpr ⟨hone, by decide +kernel⟩
    all_goals exact List.subset_append_of_subset_left _ (List.subset_append_left _ _)
  · refine (hdeclarations _ _ (hfree.of_parts ?_ (hdeclaration ▸ ?_))).mpr
      ⟨_, _, hencode _ _ hzero, hencode _ _ hannotated, rfl⟩
    all_goals exact List.subset_append_of_subset_left _ (List.subset_append_right _ _)
  · intro h
    have hnone := (htables _ _ (hfree.of_subset (List.subset_append_right _ _))).mp h
    cases hnone
  · refine hapart _ _ _ (hfree.of_parts (List.subset_append_left _ _) ?_)
    exact List.subset_append_of_subset_right _ (List.subset_append_right _ _)

/-- Rendering alike is not enough for one fingerprint: a list of an atom that is a surrogate is rendered like
itself, but the text has no octets and so no fingerprint. -/
theorem not_same_iff_render :
    ¬ ∀ v w : Value, CollisionFree digest (valuePreimages v ++ valuePreimages w) →
      (Same (ofValue v) (ofValue w) ↔ v.render = w.render) := by
  intro h
  let surrogate : Value := .list [.atom ⟨[CodePoint.ofNat 0xD800], by decide⟩]
  have hfree : CollisionFree digest (valuePreimages surrogate ++ valuePreimages surrogate) := by decide +kernel
  obtain ⟨f, hf, -⟩ := (h surrogate surrogate hfree).mpr rfl
  have hnone : ofValue surrogate = .error ⟨CodePoint.ofNat 0xD800, 1, 1⟩ := by rfl
  rw [hnone] at hf
  cases hf

/-- A bare atom is not kept apart: it may spell the mark of a table, whose preimage it then is. -/
example : Same (ofValue (.atom ⟨"declarations", by decide⟩)) (ofDeclarations []) :=
  ⟨_, rfl, rfl⟩

end TermText.Fingerprint
