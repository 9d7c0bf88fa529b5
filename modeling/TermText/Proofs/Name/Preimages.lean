import TermText.Proofs.Digest.Collision
import TermText.Proofs.Name.Default
import TermText.Proofs.Text.Parts
import TermText.Proofs.Text.Utf8

/-!
# Default hashes identify names

The default hash of a segment is the digest of the parent's hash, a mark for the kind of the segment and the
segment, with bars between them. The text can be taken apart again whatever the segment is, for the first two
hold no bar. So if the digest has no collision among the texts of two names, and is the hash of the anonymous
name on none of them, then the names have one hash only if they have the same segments.
-/

namespace TermText

/-- The bar between the parts of the text whose digest is taken. -/
def bar : CodePoint := CodePoint.ofChar '|'

/-- Of two texts that are equal, the parts in front of the first bar are, and those behind it. -/
theorem Text.eq_of_append_bar {s s' t t' : Text} (hs : bar ∉ s) (hs' : bar ∉ s')
    (h : s ++ bar :: t = s' ++ bar :: t') : s = s' ∧ t = t' := by
  have hsplit := congrArg (splitOn bar) h
  rw [splitOn_append, splitOn_append, splitOn_of_notMem hs, splitOn_of_notMem hs'] at hsplit
  obtain rfl := (List.cons.inj hsplit).1
  exact ⟨rfl, (List.cons.inj (List.append_cancel_left h)).2⟩

namespace Segment

/-- No mark holds a bar. -/
theorem bar_notMem_mark (s : Segment) : bar ∉ s.mark := by
  have hmarks : bar ∉ ("s" : Text) ∧ bar ∉ ("n" : Text) := by decide
  cases s with
  | text => exact hmarks.1
  | number => exact hmarks.2

/-- A segment is determined by its mark and its label. -/
theorem eq_of_mark_of_label {s s' : Segment} (hmark : s.mark = s'.mark) (hlabel : s.label = s'.label) :
    s = s' := by
  have hmarks : ("s" : Text) ≠ "n" := by decide
  cases s with
  | text t =>
    cases s' with
    | text t' => exact congrArg Segment.text hlabel
    | number n' => exact absurd hmark hmarks
  | number n =>
    cases s' with
    | text t' => exact absurd hmark.symm hmarks
    | number n' => exact congrArg Segment.number (Numeral.ofNat_injective hlabel)

/-- What is hashed for a segment, part by part. -/
theorem hashed_eq (s : Segment) (parentHash : Int) :
    s.hashed (.int parentHash) = Numeral.ofInt parentHash ++ bar :: (s.mark ++ bar :: s.label) := by
  simp only [hashed, List.append_assoc]
  rfl

/-- The text whose digest is taken determines the hash of the parent and the segment, with its kind. -/
theorem hashed_injective {s s' : Segment} {i j : Int} (h : s.hashed (.int i) = s'.hashed (.int j)) :
    i = j ∧ s = s' := by
  have hnumeral (n : Int) : bar ∉ Numeral.ofInt n := fun hmem =>
    Numeral.forall_mem_ofInt (P := (· ≠ bar)) (by decide) (by decide) n bar hmem rfl
  rw [hashed_eq, hashed_eq] at h
  obtain ⟨hparent, hrest⟩ := Text.eq_of_append_bar (hnumeral i) (hnumeral j) h
  obtain ⟨hmark, hlabel⟩ := Text.eq_of_append_bar s.bar_notMem_mark s'.bar_notMem_mark hrest
  exact ⟨Numeral.ofInt_injective hparent, eq_of_mark_of_label hmark hlabel⟩

end Segment

namespace Name

/-- The octets whose digests are the default hashes of the links of a name, from the root outwards. -/
def preimages : Name → List (List UInt8)
  | .anonymous => []
  | .extend parent segment _ =>
    match Utf8.encode (segment.hashed parent.hash) with
    | .ok octets => parent.preimages ++ [octets]
    | .error _ => parent.preimages

/-- The digest is the hash of the anonymous name on none of the given preimages. -/
def AvoidsAnonymous (preimages : List (List UInt8)) : Prop :=
  ∀ p ∈ preimages, (Blake2b.digest8 p : Int) ≠ anonymousHash

/-- Whether a digest of given octets is the hash of the anonymous name can be decided. -/
instance (preimages : List (List UInt8)) : Decidable (AvoidsAnonymous preimages) :=
  List.decidableBAll _ preimages

/-- A name that ends in a default hash has its octets among its preimages. -/
theorem exists_preimage_of_child {parent n : Name} {segment : Segment}
    (h : parent.child segment .null = .ok n) :
    ∃ octets, Utf8.encode (segment.hashed parent.hash) = .ok octets ∧
      n.hash = .int (Blake2b.digest8 octets) ∧ n.preimages = parent.preimages ++ [octets] := by
  obtain ⟨octets, hoctets, rfl, -⟩ := exists_octets_of_child h
  exact ⟨octets, hoctets, rfl, by rw [preimages, hoctets]⟩

/-- No default hash is the hash of the anonymous name. -/
theorem AvoidsAnonymous.hash_ne {parent n : Name} {segment : Segment}
    (hn : parent.child segment .null = .ok n) (havoid : AvoidsAnonymous n.preimages) :
    n.hash ≠ .int anonymousHash := by
  obtain ⟨octets, -, hhash, hpreimages⟩ := exists_preimage_of_child hn
  rw [hhash]
  exact fun h => havoid octets (by rw [hpreimages]; simp) (Json.int.inj h)

/-- Equal default hashes are those of one segment below one hash. -/
theorem eq_of_hash_eq {p q m n : Name} {s t : Segment} (hp : p.Integral) (hq : q.Integral)
    (hm : p.child s .null = .ok m) (hn : q.child t .null = .ok n)
    (hfree : CollisionFree Blake2b.digest8 (m.preimages ++ n.preimages)) (h : m.hash = n.hash) :
    p.hash = q.hash ∧ s = t := by
  obtain ⟨i, hi⟩ := hp.exists_hash
  obtain ⟨j, hj⟩ := hq.exists_hash
  obtain ⟨octets, hoctets, hmhash, hmpre⟩ := exists_preimage_of_child hm
  obtain ⟨octets', hoctets', hnhash, hnpre⟩ := exists_preimage_of_child hn
  rw [hmhash, hnhash] at h
  obtain rfl := hfree octets (by rw [hmpre]; simp) octets' (by rw [hnpre]; simp)
    (Int.ofNat_inj.mp (Json.int.inj h))
  rw [hi] at hoctets ⊢
  rw [hj] at hoctets' ⊢
  obtain ⟨rfl, rfl⟩ := Segment.hashed_injective (Utf8.encode_injective hoctets hoctets')
  exact ⟨rfl, rfl⟩

/-- Names of one hash have the same segments: by induction the parents do, whose hashes are equal too. -/
theorem DefaultHashed.components_eq_of_hash {a b : Name} (ha : a.DefaultHashed) (hb : b.DefaultHashed)
    (hfree : CollisionFree Blake2b.digest8 (a.preimages ++ b.preimages))
    (havoid : AvoidsAnonymous (a.preimages ++ b.preimages)) (h : a.hash = b.hash) :
    a.components = b.components := by
  induction a generalizing b with
  | anonymous =>
    cases b with
    | anonymous => rfl
    | extend parent segment hash =>
      exact absurd h.symm (AvoidsAnonymous.hash_ne hb.2 fun p hp => havoid p (List.mem_append_right _ hp))
  | extend parent segment hash ih =>
    cases b with
    | anonymous =>
      exact absurd h (AvoidsAnonymous.hash_ne ha.2 fun p hp => havoid p (List.mem_append_left _ hp))
    | extend parent' segment' hash' =>
      obtain ⟨hparents, rfl⟩ := eq_of_hash_eq ha.1.integral hb.1.integral ha.2 hb.2 hfree h
      obtain ⟨octets, -, -, hpre⟩ := exists_preimage_of_child ha.2
      obtain ⟨octets', -, -, hpre'⟩ := exists_preimage_of_child hb.2
      have hinner : parent.preimages ++ parent'.preimages ⊆
          (extend parent segment hash).preimages ++ (extend parent' segment hash').preimages := by
        rw [hpre, hpre']
        exact List.append_subset.mpr
          ⟨List.subset_append_of_subset_left _ (List.subset_append_left _ _),
            List.subset_append_of_subset_right _ (List.subset_append_left _ _)⟩
      rw [components, components,
        ih ha.1 hb.1 (hfree.of_subset hinner) (fun p hp => havoid p (hinner hp)) hparents]

/-- If the digest has no collision among the preimages of two names of default hashes, and on none of them is
the hash of the anonymous name, then the names have one hash exactly if they have the same segments, and so
exactly if they are equal. For the text whose digest is taken, and its octets, determine the hash of the
parent, the mark and the segment, whatever it holds. In particular no number has the hash of a text, be it
its numeral. -/
theorem default_hashes_identify :
    (∀ a b : Name, a.DefaultHashed → b.DefaultHashed →
      CollisionFree Blake2b.digest8 (a.preimages ++ b.preimages) →
        AvoidsAnonymous (a.preimages ++ b.preimages) →
          (a.hash.same b.hash = true ↔ a.components = b.components) ∧
            (a.components = b.components ↔ a.same b = true)) ∧
    (∀ (i j : Int) (s t : Segment),
      (s.hashed (.int i) = t.hashed (.int j) ∨ ∃ octets, Utf8.encode (s.hashed (.int i)) = .ok octets ∧
        Utf8.encode (t.hashed (.int j)) = .ok octets) → i = j ∧ s.mark = t.mark ∧ s = t) ∧
    ∀ (p q m n : Name) (k : Nat) (t : Text), p.Integral → q.Integral →
      p.child (.number k) .null = .ok m → q.child (.text t) .null = .ok n →
        CollisionFree Blake2b.digest8 (m.preimages ++ n.preimages) → m.hash.same n.hash = false := by
  refine ⟨fun a b ha hb hfree havoid => ⟨?_, (ha.same_iff_components hb).symm⟩, ?_, ?_⟩
  · rw [ha.integral.same_hash_iff hb.integral]
    exact ⟨ha.components_eq_of_hash hb hfree havoid, fun h => by rw [eq_of_defaultHashed ha hb h]⟩
  · intro i j s t h
    have hpreimage : s.hashed (.int i) = t.hashed (.int j) := by
      rcases h with h | ⟨octets, hs, ht⟩
      · exact h
      · exact Utf8.encode_injective hs ht
    obtain ⟨hparent, rfl⟩ := Segment.hashed_injective hpreimage
    exact ⟨hparent, rfl, rfl⟩
  · intro p q m n k t hp hq hm hn hfree
    rw [← Bool.not_eq_true, (hp.child hm).same_hash_iff (hq.child hn)]
    intro h
    cases (eq_of_hash_eq hp hq hm hn hfree h).2

/-- The number one and the text of its numeral, below the anonymous name, differ in their hashes. -/
theorem default_hash_of_one :
    ∃ m n, Name.anonymous.child (.number 1) .null = .ok m ∧ Name.anonymous.child (.text "1") .null = .ok n ∧
      m.hash.same n.hash = false ∧ m.same n = false := by
  have hanonymous : anonymous.hash = .int anonymousHash := rfl
  have hnumeral : (Segment.number 1).label.Encodable := (Numeral.ascii_ofNat 1).encodable
  have hletters : (Segment.text "1").label.Encodable := by decide
  have hroot : Numeral.Fits anonymousHash := Numeral.fits_of_lt_pow 4 (by decide) (by decide)
  have hone : (Segment.number 1).isWritable = true :=
    Segment.isWritable_number.mpr (Numeral.fits_of_lt_pow 1 (by decide) (by decide))
  obtain ⟨m, hm⟩ := exists_child hanonymous hroot hone hnumeral
  obtain ⟨n, hn⟩ := exists_child hanonymous hroot rfl hletters
  obtain ⟨octets, hoctets, -, hmpre⟩ := exists_preimage_of_child hm
  obtain ⟨octets', hoctets', -, hnpre⟩ := exists_preimage_of_child hn
  have hnumber : (Segment.number 1).hashed anonymous.hash = "1723|n|1" := by decide +kernel
  have htext : (Segment.text "1").hashed anonymous.hash = "1723|s|1" := by decide +kernel
  rw [hnumber] at hoctets
  rw [htext] at hoctets'
  obtain rfl : [0x31, 0x37, 0x32, 0x33, 0x7C, 0x6E, 0x7C, 0x31] = octets := Except.ok.inj hoctets
  obtain rfl : [0x31, 0x37, 0x32, 0x33, 0x7C, 0x73, 0x7C, 0x31] = octets' := Except.ok.inj hoctets'
  obtain ⟨hfree, havoid⟩ : CollisionFree Blake2b.digest8 (m.preimages ++ n.preimages) ∧
      AvoidsAnonymous (m.preimages ++ n.preimages) := by
    rw [hmpre, hnpre]
    decide +kernel
  obtain ⟨hidentify, -, hkinds⟩ := default_hashes_identify
  have hdiffer := hkinds .anonymous .anonymous m n 1 "1" integral_anonymous integral_anonymous hm hn hfree
  obtain ⟨hhashes, hnames⟩ := hidentify m n (defaultHashed_anonymous.child hm).1
    (defaultHashed_anonymous.child hn).1 hfree havoid
  refine ⟨m, n, hm, hn, hdiffer, Bool.not_eq_true _ ▸ fun hsame => ?_⟩
  rw [hhashes.mpr (hnames.mpr hsame)] at hdiffer
  cases hdiffer

end Name

end TermText
