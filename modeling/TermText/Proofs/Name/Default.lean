import TermText.Proofs.Json.Digits
import TermText.Proofs.Json.Labels
import TermText.Proofs.Name.Collision
import TermText.Proofs.Text.Ascii

/-!
# Names made of segments

A name that is made of segments carries the default hashes, and it can be made of all segments whose
texts have no surrogates and whose numbers can be written. Conversely a name of default hashes is the one
that is made of its segments, so such names are equal exactly if their segments are.
-/

namespace TermText

/-- A number is writable as a segment exactly if it is within the limit. -/
theorem Segment.isWritable_number {n : Nat} :
    (Segment.number n).isWritable = true ↔ Numeral.Fits n := by
  rw [isWritable, decide_eq_true_iff]

/-- The text whose digest is taken has no surrogates if the segment has none. -/
theorem Segment.encodable_hashed {s : Segment} (h : s.label.Encodable) (parentHash : Int) :
    (s.hashed (.int parentHash)).Encodable := by
  have hmarks : Text.Ascii "s" ∧ Text.Ascii "n" ∧ Text.Ascii "|" := by decide
  have hmark : s.mark.Encodable := by
    cases s with
    | text => exact hmarks.1.encodable
    | number => exact hmarks.2.1.encodable
  have hparent : (Json.spelled (.int parentHash)).Encodable := (Numeral.ascii_ofInt parentHash).encodable
  simp [hashed, hparent, hmarks.2.2.encodable, hmark, h]

namespace Name

variable {parent n : Name} {segments : List Segment}

/-- The anonymous name has an integer for its hash. -/
theorem integral_anonymous : Integral .anonymous := trivial

/-- It has only default hashes, for it has no segments. -/
theorem defaultHashed_anonymous : DefaultHashed .anonymous := trivial

/-- A default hash is the digest of its octets, where the numbers that go into them can be written. -/
theorem child_null {segment : Segment} {octets : List UInt8} (hparent : parent.hash.isWritable = true)
    (hsegment : segment.isWritable = true) (h : Utf8.encode (segment.hashed parent.hash) = .ok octets) :
    parent.child segment .null = .ok (.extend parent segment (.int (Blake2b.digest8 octets))) := by
  rw [child, Segment.defaultHash, hparent, hsegment, h]
  rfl

/-- If a segment is added with its default hash, the numbers can be written and the text has octets. -/
theorem exists_octets_of_child {segment : Segment} (h : parent.child segment .null = .ok n) :
    ∃ octets, Utf8.encode (segment.hashed parent.hash) = .ok octets ∧
      n = .extend parent segment (.int (Blake2b.digest8 octets)) ∧
        parent.hash.isWritable = true ∧ segment.isWritable = true := by
  have hwritable : (parent.hash.isWritable && segment.isWritable) = true := by
    by_contra hnot
    rw [child, Segment.defaultHash, if_neg hnot] at h
    cases h
  obtain ⟨hparent, hsegment⟩ := Bool.and_eq_true_iff.mp hwritable
  cases hoctets : Utf8.encode (segment.hashed parent.hash) with
  | error e =>
    rw [child, Segment.defaultHash, if_pos hwritable, hoctets] at h
    cases h
  | ok octets =>
    rw [child_null hparent hsegment hoctets] at h
    exact ⟨octets, rfl, (Except.ok.inj h).symm, hparent, hsegment⟩

/-- A default hash can be written. -/
theorem DefaultHashed.isWritable_hash (h : n.DefaultHashed) : n.hash.isWritable = true := by
  cases n with
  | anonymous => exact Json.isWritable_int.mpr (Numeral.fits_of_lt_pow 4 (by decide) (by decide))
  | extend parent segment hash =>
    obtain ⟨octets, -, hn, -⟩ := exists_octets_of_child h.2
    rw [hn]
    exact Json.isWritable_int.mpr (Blake2b.fits_digest8 octets)

/-- A default hash is an integer. -/
theorem Integral.child (hparent : parent.Integral) {segment : Segment}
    (h : parent.child segment .null = .ok n) : n.Integral := by
  obtain ⟨octets, -, rfl, -⟩ := exists_octets_of_child h
  exact ⟨hparent, _, rfl⟩

/-- Default hashes are integers. -/
theorem DefaultHashed.integral (h : n.DefaultHashed) : n.Integral := by
  induction n with
  | anonymous => trivial
  | extend parent segment hash ih => exact (ih h.1).child h.2

/-- A segment whose text has no surrogates can be added to a name whose hash is an integer, if both it and
the hash can be written. -/
theorem exists_child {i : Int} (hparent : parent.hash = .int i) (hfits : Numeral.Fits i)
    {segment : Segment} (hsegment : segment.isWritable = true) (h : segment.label.Encodable) :
    ∃ n, parent.child segment .null = .ok n := by
  obtain ⟨octets, hoctets⟩ := Utf8.exists_encode (Segment.encodable_hashed h i)
  exact ⟨_, child_null (hparent ▸ Json.isWritable_int.mpr hfits) hsegment (hparent ▸ hoctets)⟩

/-- Adding a segment keeps default hashes. -/
theorem DefaultHashed.child (hparent : parent.DefaultHashed) {segment : Segment}
    (h : parent.child segment .null = .ok n) :
    n.DefaultHashed ∧ n.components = parent.components ++ [segment] := by
  obtain ⟨octets, -, rfl, -⟩ := exists_octets_of_child h
  exact ⟨⟨hparent, h⟩, rfl⟩

/-- Several segments are added one after another. -/
theorem extendAll_cons (parent : Name) (segment : Segment) (rest : List Segment) :
    parent.extendAll (segment :: rest) = parent.child segment .null >>= fun n => n.extendAll rest :=
  rfl

/-- More segments are added to what the first ones give. -/
theorem extendAll_append (parent : Name) (segments more : List Segment) :
    parent.extendAll (segments ++ more) = parent.extendAll segments >>= fun n => n.extendAll more := by
  induction segments generalizing parent with
  | nil => rfl
  | cons segment rest ih =>
    rw [List.cons_append, extendAll_cons, extendAll_cons]
    cases parent.child segment .null with
    | error e => rfl
    | ok name => exact ih name

/-- What is made of segments below a name of default hashes has them too, and those segments. -/
theorem DefaultHashed.extendAll (hparent : parent.DefaultHashed) (h : parent.extendAll segments = .ok n) :
    n.DefaultHashed ∧ n.components = parent.components ++ segments := by
  induction segments generalizing parent with
  | nil =>
    obtain rfl := Except.ok.inj h
    exact ⟨hparent, (List.append_nil _).symm⟩
  | cons segment rest ih =>
    rw [extendAll_cons] at h
    cases hchild : parent.child segment .null with
    | error e =>
      rw [hchild] at h
      cases h
    | ok name =>
      rw [hchild] at h
      obtain ⟨hname, hcomponents⟩ := hparent.child hchild
      obtain ⟨hn, hall⟩ := ih hname h
      exact ⟨hn, by rw [hall, hcomponents, List.append_assoc, List.singleton_append]⟩

/-- Segments whose texts have no surrogates and whose numbers can be written make a name. -/
theorem DefaultHashed.exists_extendAll (hparent : parent.DefaultHashed)
    (h : ∀ segment ∈ segments, segment.isWritable = true ∧ segment.label.Encodable) :
    ∃ n, parent.extendAll segments = .ok n := by
  induction segments generalizing parent with
  | nil => exact ⟨parent, rfl⟩
  | cons segment rest ih =>
    obtain ⟨⟨hwritable, hsegment⟩, hrest⟩ := List.forall_mem_cons.mp h
    obtain ⟨i, hi⟩ := hparent.integral.exists_hash
    have hfits : Numeral.Fits i := Json.isWritable_int.mp (hi ▸ hparent.isWritable_hash)
    obtain ⟨name, hname⟩ := exists_child hi hfits hwritable hsegment
    rw [extendAll_cons, hname]
    exact ih (hparent.child hname).1 hrest

/-- A name of default hashes is the one that is made of its segments. -/
theorem DefaultHashed.extendAll_components (h : n.DefaultHashed) :
    Name.extendAll .anonymous n.components = .ok n := by
  induction n with
  | anonymous => rfl
  | extend parent segment hash ih =>
    rw [components, extendAll_append, ih h.1]
    exact congrArg (· >>= fun n => n.extendAll []) h.2

/-- Integer hashes are the same exactly if they are equal. -/
theorem Integral.same_hash_iff {a b : Name} (ha : a.Integral) (hb : b.Integral) :
    a.hash.same b.hash = true ↔ a.hash = b.hash := by
  obtain ⟨i, hi⟩ := ha.exists_hash
  obtain ⟨j, hj⟩ := hb.exists_hash
  rw [hi, hj, Json.same_int, decide_eq_true_eq, Json.int.injEq]

/-- An integer equals only itself, so a name of integers does. -/
theorem Integral.eq_of_same {a b : Name} (ha : a.Integral) (hb : b.Integral) (h : a.same b = true) :
    a = b := by
  induction a generalizing b with
  | anonymous =>
    cases b with
    | anonymous => rfl
    | extend parent segment hash => cases h
  | extend parent segment hash ih =>
    cases b with
    | anonymous => cases h
    | extend parent' segment' hash' =>
      obtain ⟨i, rfl⟩ := ha.2
      obtain ⟨j, rfl⟩ := hb.2
      simp only [same, Json.same_int, Bool.and_eq_true, beq_iff_eq, decide_eq_true_eq] at h
      obtain ⟨⟨hparent, rfl⟩, rfl⟩ := h
      rw [ih ha.1 hb.1 hparent]

/-- Names of default hashes are equal exactly if their segments are. -/
theorem DefaultHashed.same_iff_components {a b : Name} (ha : a.DefaultHashed) (hb : b.DefaultHashed) :
    a.same b = true ↔ a.components = b.components := by
  refine ⟨components_eq_of_same, fun h => ?_⟩
  rw [eq_of_defaultHashed ha hb h]
  exact hb.integral.same_self

end Name

end TermText
