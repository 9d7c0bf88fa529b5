import TermText.Name.Encode
import TermText.Proofs.Text.Numerals

/-!
# Names that are encoded alike

The encoding of a name carries its own hash, the hash of its parent and its segments. Names that are
not equal are therefore encoded alike exactly if they differ in a hash further in and in nothing else.
This takes three segments at least and a hash that was given: links that carry their default hashes
are determined by their segments.
-/

namespace TermText

/-- Integers are equal as values of a document exactly if they are the same. -/
@[simp] theorem Json.same_int (m n : Int) : (Json.int m).same (.int n) = decide (m = n) := rfl

/-- Two segments with the same encoding are the same. -/
theorem Segment.encode_injective {s s' : Segment} (h : s.encode = s'.encode) : s = s' := by
  cases s with
  | text t =>
    cases s' with
    | text t' => rw [Value.text.inj h]
    | number n => cases h
  | number n =>
    cases s' with
    | text t => cases h
    | number n' =>
      have htexts := congrArg Atom.text (Value.atom.inj h)
      rw [Numeral.ofNat_injective (List.append_cancel_left htexts)]

namespace Name

/-- A name all of whose links carry integers. -/
def Integral : Name → Prop
  | .anonymous => True
  | .extend parent _ hash => parent.Integral ∧ ∃ i : Int, hash = .int i

/-- A name all of whose links carry the default hashes of their segments. -/
def DefaultHashed : Name → Prop
  | .anonymous => True
  | .extend parent segment hash =>
    parent.DefaultHashed ∧ parent.child segment .null = .ok (.extend parent segment hash)

/-- The hash of a name of integers is an integer. -/
theorem Integral.exists_hash {n : Name} (h : n.Integral) : ∃ i : Int, n.hash = .int i := by
  cases n with
  | anonymous => exact ⟨anonymousHash, rfl⟩
  | extend parent segment hash => exact h.2

/-- The parent of a name of integers is one. -/
theorem Integral.parent {n : Name} (h : n.Integral) : n.parent.Integral := by
  cases n with
  | anonymous => trivial
  | extend parent segment hash => exact h.1

/-- Equal names have the same segments. -/
theorem components_eq_of_same {a b : Name} (h : a.same b = true) : a.components = b.components := by
  induction a generalizing b with
  | anonymous =>
    cases b with
    | anonymous => rfl
    | extend parent segment hash => cases h
  | extend parent segment hash ih =>
    cases b with
    | anonymous => cases h
    | extend parent' segment' hash' =>
      simp only [same, Bool.and_eq_true, beq_iff_eq] at h
      rw [components, components, ih h.1.1, h.1.2]

/-- Two names are equal exactly if their segments, their own hashes and their parents are. -/
theorem same_iff (a b : Name) :
    a.same b = true ↔
      a.components = b.components ∧ a.hash.same b.hash = true ∧ a.parent.same b.parent = true := by
  cases a with
  | anonymous =>
    cases b with
    | anonymous => simp [same, parent, hash]
    | extend parent segment hash => simp [same, components]
  | extend parent segment hash =>
    cases b with
    | anonymous => simp [same, components]
    | extend parent' segment' hash' =>
      have hinner : parent.same parent' = true → parent.components = parent'.components :=
        components_eq_of_same
      simp only [same, components, Name.parent, Name.hash, Bool.and_eq_true, beq_iff_eq,
        List.append_singleton_inj]
      constructor
      · rintro ⟨⟨hparents, hsegments⟩, hhashes⟩
        exact ⟨⟨hinner hparents, hsegments⟩, hhashes, hparents⟩
      · rintro ⟨⟨-, hsegments⟩, hhashes, hparents⟩
        exact ⟨⟨hparents, hsegments⟩, hhashes⟩

/-- Two names are encoded alike exactly if their segments, their own hashes and the hashes of their
parents are equal. -/
theorem encodesLike_iff (a b : Name) :
    a.encodesLike b = true ↔
      a.components = b.components ∧ a.hash.same b.hash = true ∧
        a.parent.hash.same b.parent.hash = true := by
  cases a with
  | anonymous =>
    cases b with
    | anonymous => simp [encodesLike, parent, hash]
    | extend parent segment hash => simp [encodesLike, components]
  | extend parent segment hash =>
    cases b with
    | anonymous => simp [encodesLike, components]
    | extend parent' segment' hash' =>
      rw [encodesLike, Bool.and_eq_true, Bool.and_eq_true, beq_iff_eq, and_comm, and_comm (a := _ = true)]
      rfl

/-- A name of integers is encoded by its two outermost hashes and its segments. -/
theorem Integral.encode_extend {parent : Name} {segment : Segment} {hash : Json}
    (h : (extend parent segment hash).Integral) :
    ∃ above own : Int, parent.hash = .int above ∧ hash = .int own ∧
      (extend parent segment hash).encode = .ok (.tagged .name (.int above :: .int own ::
        (extend parent segment hash).components.map Segment.encode)) := by
  obtain ⟨above, habove⟩ := h.1.exists_hash
  obtain ⟨own, rfl⟩ := h.2
  refine ⟨above, own, habove, rfl, ?_⟩
  rw [encode, habove]
  rfl

/-- Names of integers are encoded, and by equal values exactly if they are encoded alike. -/
theorem exists_encode {a b : Name} (ha : a.Integral) (hb : b.Integral) :
    ∃ v w, a.encode = .ok v ∧ b.encode = .ok w ∧ (v = w ↔ a.encodesLike b = true) := by
  cases a with
  | anonymous =>
    cases b with
    | anonymous => exact ⟨_, _, rfl, rfl, by simp [encodesLike]⟩
    | extend parent segment hash =>
      obtain ⟨above, own, -, -, hencode⟩ := hb.encode_extend
      exact ⟨_, _, rfl, hencode, by simp [encodesLike, Value.tagged]⟩
  | extend parent segment hash =>
    obtain ⟨above, own, habove, rfl, hencode⟩ := ha.encode_extend
    cases b with
    | anonymous => exact ⟨_, _, hencode, rfl, by simp [encodesLike, Value.tagged]⟩
    | extend parent' segment' hash' =>
      obtain ⟨above', own', habove', rfl, hencode'⟩ := hb.encode_extend
      refine ⟨_, _, hencode, hencode', ?_⟩
      have hsegments : ∀ ss ss' : List Segment,
          ss.map Segment.encode = ss'.map Segment.encode ↔ ss = ss' := fun ss ss' =>
        List.map_inj_right fun _ _ => Segment.encode_injective
      simp [encodesLike, Value.tagged, habove, habove', hsegments, and_assoc]

/-- The parent has the segments but the last. -/
theorem components_parent (n : Name) : n.parent.components = n.components.dropLast := by
  cases n with
  | anonymous => rfl
  | extend parent segment hash => rw [components, List.dropLast_concat]; rfl

/-- A name of no segment is the anonymous one. -/
theorem eq_anonymous_of_components {n : Name} (h : n.components = []) : n = .anonymous := by
  cases n with
  | anonymous => rfl
  | extend parent segment hash => simp [components] at h

/-- A name of fewer than three segments has the anonymous name two segments further in. -/
theorem parent_parent_of_short {n : Name} (h : n.components.length < 3) :
    n.parent.parent = .anonymous := by
  apply eq_anonymous_of_components
  rw [components_parent, components_parent, ← List.length_eq_zero_iff]
  simp only [List.length_dropLast]
  omega

/-- Names of default hashes are determined by their segments. -/
theorem eq_of_defaultHashed {a b : Name} (ha : a.DefaultHashed) (hb : b.DefaultHashed)
    (h : a.components = b.components) : a = b := by
  induction a generalizing b with
  | anonymous =>
    cases b with
    | anonymous => rfl
    | extend parent segment hash => simp [components] at h
  | extend parent segment hash ih =>
    cases b with
    | anonymous => simp [components] at h
    | extend parent' segment' hash' =>
      obtain ⟨hparents, rfl⟩ := List.append_singleton_inj.mp h
      obtain rfl := ih ha.1 hb.1 hparents
      exact Except.ok.inj (ha.2.symm.trans hb.2)

/-- A name equals itself if its hashes are integers. -/
theorem Integral.same_self {n : Name} (h : n.Integral) : n.same n = true := by
  induction n with
  | anonymous => rfl
  | extend parent segment hash ih =>
    obtain ⟨i, rfl⟩ := h.2
    simp [same, ih h.1]

/-- Of any two names of integers: both are encoded, and by one value although they are not equal
exactly if their segments, their own hashes and the hashes of their parents agree and the names two
segments shorter are not equal. So it takes three segments, and a hash other than the default one
among those that the encoding leaves out. -/
theorem encode_eq_and_not_same_iff (a b : Name) (ha : a.Integral) (hb : b.Integral) :
    ∃ v w, a.encode = .ok v ∧ b.encode = .ok w ∧
      (v = w ∧ a.same b = false ↔
        a.components = b.components ∧ a.hash.same b.hash = true ∧
          a.parent.hash.same b.parent.hash = true ∧ a.parent.parent.same b.parent.parent = false) ∧
      (a.components.length < 3 → a.same b = false → v ≠ w) ∧
      (a.parent.parent.DefaultHashed → b.parent.parent.DefaultHashed → a.same b = false → v ≠ w) := by
  obtain ⟨v, w, hv, hw, halike⟩ := exists_encode ha hb
  have hsegments : a.components = b.components → a.parent.components = b.parent.components ∧
      a.parent.parent.components = b.parent.parent.components := fun h => by
    simp only [components_parent, h, and_self]
  have hexact : v = w ∧ a.same b = false ↔
      a.components = b.components ∧ a.hash.same b.hash = true ∧
        a.parent.hash.same b.parent.hash = true ∧ a.parent.parent.same b.parent.parent = false := by
    rw [halike, encodesLike_iff, ← Bool.not_eq_true, ← Bool.not_eq_true, same_iff a b,
      same_iff a.parent b.parent]
    constructor
    · rintro ⟨⟨hcomponents, hown, habove⟩, hdiffer⟩
      exact ⟨hcomponents, hown, habove, fun hinner =>
        hdiffer ⟨hcomponents, hown, (hsegments hcomponents).1, habove, hinner⟩⟩
    · rintro ⟨hcomponents, hown, habove, hdiffer⟩
      exact ⟨⟨hcomponents, hown, habove⟩, fun hsame => hdiffer hsame.2.2.2.2⟩
  -- What the encoding leaves out is determined by the segments if its hashes are the default ones.
  have hdefault : a.parent.parent.DefaultHashed → b.parent.parent.DefaultHashed →
      a.same b = false → v ≠ w := by
    intro hainner hbinner hdiffer heq
    obtain ⟨hcomponents, -, -, hinner⟩ := hexact.mp ⟨heq, hdiffer⟩
    rw [eq_of_defaultHashed hainner hbinner (hsegments hcomponents).2,
      hb.parent.parent.same_self] at hinner
    cases hinner
  refine ⟨v, w, hv, hw, hexact, ?_, hdefault⟩
  intro hshort hdiffer heq
  obtain ⟨hcomponents, -⟩ := hexact.mp ⟨heq, hdiffer⟩
  have ha' := parent_parent_of_short hshort
  have hb' := parent_parent_of_short (hcomponents ▸ hshort)
  exact hdefault (ha' ▸ trivial) (hb' ▸ trivial) hdiffer heq

/-- A name of three text segments with given hashes. -/
def abc (i j k : Int) : Name :=
  .extend (.extend (.extend .anonymous (.text "a") (.int i)) (.text "b") (.int j)) (.text "c") (.int k)

/-- The hashes of such a name are integers. -/
theorem abc_integral (i j k : Int) : (abc i j k).Integral :=
  ⟨⟨⟨trivial, i, rfl⟩, j, rfl⟩, k, rfl⟩

/-- The third hash from the right leaves no trace in the value, the second one does. -/
theorem encode_abc :
    (∃ v, (abc 1 2 3).encode = .ok v ∧ (abc 9 2 3).encode = .ok v ∧
      (abc 1 2 3).same (abc 9 2 3) = false) ∧
    ∃ v w, (abc 1 2 3).encode = .ok v ∧ (abc 1 9 3).encode = .ok w ∧ v ≠ w := by
  constructor
  · obtain ⟨v, w, hv, hw, hexact, -⟩ := encode_eq_and_not_same_iff (abc 1 2 3) (abc 9 2 3)
      (abc_integral 1 2 3) (abc_integral 9 2 3)
    obtain ⟨rfl, hdiffer⟩ := hexact.mpr ⟨rfl, rfl, rfl, rfl⟩
    exact ⟨v, hv, hw, hdiffer⟩
  · obtain ⟨v, w, hv, hw, hexact, -⟩ := encode_eq_and_not_same_iff (abc 1 2 3) (abc 1 9 3)
      (abc_integral 1 2 3) (abc_integral 1 9 3)
    exact ⟨v, w, hv, hw, fun heq => absurd (hexact.mp ⟨heq, rfl⟩).2.2.1 (by decide)⟩

/-- It is not so that names that differ in any hash are encoded by different values. -/
theorem not_encode_injective :
    ¬ ∀ a b : Name, a.Integral → b.Integral → a.same b = false → a.encode ≠ b.encode := by
  intro h
  exact h (abc 1 2 3) (abc 9 2 3) (abc_integral 1 2 3) (abc_integral 9 2 3) rfl rfl

end Name

end TermText
