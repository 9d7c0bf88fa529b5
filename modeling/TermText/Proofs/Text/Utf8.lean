import TermText.Proofs.Text.Ascii
import TermText.Text.Utf8

/-!
# UTF-8 is decoded again

The octets that encode a text are decoded as that text, so no two texts have the same octets. A sequence is
read octet by octet: the first one opens it, and each further one adds six bits to the number read so far.
-/

namespace TermText.Utf8

/-- An octet is the number that it was made from, if that is below 256. -/
theorem toNat_ofNat {n : Nat} (h : n < 0x100) : (UInt8.ofNat n).toNat = n :=
  UInt8.toNat_ofNat_of_lt' h

/-- The octet of six bits that goes on with a sequence. -/
def continuation (bits : Nat) : UInt8 :=
  UInt8.ofNat (0x80 + bits)

/-- The number that the bits of further octets make of the one read so far. -/
def valueOnto (value : Nat) (further : List Nat) : Nat :=
  further.foldl (fun value bits => value * 0x40 + bits) value

/-- A sequence that has begun is read to its end, if its next octet lies in the window. -/
theorem decodeFrom_pending (position : Nat) (p : Pending) (bits : Nat) (further : List Nat)
    (rest : List UInt8) (howed : p.owed = further.length + 1) (hbits : ∀ b ∈ bits :: further, b < 0x40)
    (hlow : p.low ≤ 0x80 + bits) (hhigh : 0x80 + bits ≤ p.high) :
    decodeFrom position (some p) ((bits :: further).map continuation ++ rest) =
      (CodePoint.ofNat (valueOnto p.value (bits :: further)) :: ·) <$>
        decodeFrom (position + further.length + 1) none rest := by
  induction further generalizing position p bits with
  | nil =>
    have hoctet : (continuation bits).toNat = 0x80 + bits :=
      toNat_ofNat (by have := hbits bits List.mem_cons_self; omega)
    have hone : p.owed ≤ 1 := by simp [howed]
    simp only [List.map_cons, List.map_nil, List.cons_append, List.nil_append, decodeFrom, hoctet,
      if_pos (And.intro hlow hhigh), if_pos hone, Nat.add_sub_cancel_left, List.length_nil]
    rfl
  | cons next further ih =>
    obtain ⟨hfirst, hfurther⟩ := List.forall_mem_cons.mp hbits
    have hoctet : (continuation bits).toNat = 0x80 + bits := toNat_ofNat (by omega)
    have hmore : ¬ p.owed ≤ 1 := by simp [howed]
    have hnext : next < 0x40 := hfurther next List.mem_cons_self
    rw [List.map_cons, List.cons_append, decodeFrom]
    simp only [hoctet, if_pos (And.intro hlow hhigh), if_neg hmore, Nat.add_sub_cancel_left]
    rw [ih (position + 1) _ next (by simp [howed]) hfurther (Nat.le_add_right _ _) (by simp; omega)]
    simp only [List.length_cons, valueOnto, List.foldl_cons]
    rw [show position + 1 + further.length + 1 = position + (further.length + 1) + 1 by omega]

/-- An octet that opens a sequence, and the bits of the octets that it owes: they make up a number. -/
def Opens (lead bits : Nat) (further : List Nat) (n : Nat) : Prop :=
  0x80 ≤ lead ∧ lead < 0x100 ∧ (∀ b ∈ bits :: further, b < 0x40) ∧
    ∀ position, ∃ p, pending? position (UInt8.ofNat lead) = some p ∧ p.owed = further.length + 1 ∧
      p.low ≤ 0x80 + bits ∧ 0x80 + bits ≤ p.high ∧ valueOnto p.value (bits :: further) = n

/-- The first of two octets opens a code point with the upper bits. -/
theorem opens_two {n : Nat} (hlow : 0x80 ≤ n) (hhigh : n < 0x800) :
    Opens (0xC0 + n / 0x40) (n % 0x40) [] n := by
  refine ⟨by omega, by omega, by simp; omega, fun position => ?_⟩
  rw [pending?, toNat_ofNat (by omega)]
  dsimp only
  rw [if_pos (by omega)]
  exact ⟨_, rfl, rfl, by dsimp only; omega, by dsimp only; omega, by simp [valueOnto]; omega⟩

/-- The windows of the second octet leave out what is shorter, and the surrogates. -/
theorem opens_three {n : Nat} (hlow : 0x800 ≤ n) (hhigh : n < 0x10000)
    (hsurrogate : n < 0xD800 ∨ 0xDFFF < n) :
    Opens (0xE0 + n / 0x1000) (n / 0x40 % 0x40) [n % 0x40] n := by
  refine ⟨by omega, by omega, by simp; omega, fun position => ?_⟩
  rw [pending?, toNat_ofNat (by omega)]
  dsimp only
  rw [if_neg (by omega)]
  by_cases hshort : n < 0x1000
  · rw [if_pos (by omega)]
    exact ⟨_, rfl, rfl, by dsimp only; omega, by dsimp only; omega, by simp [valueOnto]; omega⟩
  by_cases hwindow : n / 0x1000 = 0xD
  · rw [if_neg (by omega), if_pos (by omega)]
    exact ⟨_, rfl, rfl, by dsimp only; omega, by dsimp only; omega, by simp [valueOnto]; omega⟩
  · rw [if_neg (by omega), if_neg (by omega), if_pos (by omega)]
    exact ⟨_, rfl, rfl, by dsimp only; omega, by dsimp only; omega, by simp [valueOnto]; omega⟩

/-- The windows of the second octet leave out what is shorter, and what is beyond the last code point. -/
theorem opens_four {n : Nat} (hlow : 0x10000 ≤ n) (hhigh : n < 0x110000) :
    Opens (0xF0 + n / 0x40000) (n / 0x1000 % 0x40) [n / 0x40 % 0x40, n % 0x40] n := by
  refine ⟨by omega, by omega, by simp; omega, fun position => ?_⟩
  rw [pending?, toNat_ofNat (by omega)]
  dsimp only
  rw [if_neg (by omega), if_neg (by omega), if_neg (by omega), if_neg (by omega)]
  by_cases hshort : n < 0x40000
  · rw [if_pos (by omega)]
    exact ⟨_, rfl, rfl, by dsimp only; omega, by dsimp only; omega, by simp [valueOnto]; omega⟩
  by_cases hwindow : n < 0x100000
  · rw [if_neg (by omega), if_pos (by omega)]
    exact ⟨_, rfl, rfl, by dsimp only; omega, by dsimp only; omega, by simp [valueOnto]; omega⟩
  · rw [if_neg (by omega), if_neg (by omega), if_pos (by omega)]
    exact ⟨_, rfl, rfl, by dsimp only; omega, by dsimp only; omega, by simp [valueOnto]; omega⟩

/-- Beyond ASCII, the octets of a code point are one that opens a sequence and those that it owes. -/
theorem exists_opens {c : CodePoint} (hc : 0x80 ≤ c.val) (h : c.isSurrogate = false) :
    ∃ lead bits further, Opens lead bits further c.val ∧
      encodeCodePoint c = UInt8.ofNat lead :: (bits :: further).map continuation := by
  have hsurrogate : c.val < 0xD800 ∨ 0xDFFF < c.val := by
    simp only [CodePoint.isSurrogate, Bool.and_eq_false_iff, decide_eq_false_iff_not] at h
    omega
  have hpowers : Nat.pow 2 0 = 1 ∧ Nat.pow 2 6 = 0x40 ∧ Nat.pow 2 12 = 0x1000 ∧ Nat.pow 2 18 = 0x40000 := by
    decide
  rw [encodeCodePoint, if_neg (by omega)]
  simp only [hpowers, Nat.div_one]
  by_cases htwo : c.val < 0x800
  · rw [if_pos htwo]
    exact ⟨_, _, [], opens_two hc htwo, rfl⟩
  by_cases hthree : c.val < 0x10000
  · rw [if_neg htwo, if_pos hthree]
    exact ⟨_, _, [_], opens_three (by omega) hthree hsurrogate, rfl⟩
  · rw [if_neg htwo, if_neg hthree]
    exact ⟨_, _, [_, _], opens_four (by omega) c.isLt, rfl⟩

/-- The octets of a code point are decoded as that code point, whatever follows them. -/
theorem decodeFrom_encodeCodePoint {c : CodePoint} (h : c.isSurrogate = false) (position : Nat)
    (rest : List UInt8) : decodeFrom position none (encodeCodePoint c ++ rest) =
      (c :: ·) <$> decodeFrom (position + (encodeCodePoint c).length) none rest := by
  by_cases hascii : c.val < 0x80
  · have hoctet : (UInt8.ofNat c.val).toNat = c.val := toNat_ofNat (by omega)
    have hsame : CodePoint.ofNat c.val = c := Fin.ext (Nat.mod_eq_of_lt c.isLt)
    rw [encodeCodePoint, if_pos hascii, List.singleton_append, decodeFrom, hoctet, if_pos hascii, hsame]
    rfl
  · obtain ⟨lead, bits, further, ⟨hlow, hhigh, hbits, hpending⟩, hencode⟩ := exists_opens (by omega) h
    obtain ⟨p, hp, howed, hfirst, hlast, hvalue⟩ := hpending position
    have hsame : CodePoint.ofNat c.val = c := Fin.ext (Nat.mod_eq_of_lt c.isLt)
    rw [hencode, List.cons_append, decodeFrom, toNat_ofNat hhigh, if_neg (by omega), hp]
    dsimp only
    rw [decodeFrom_pending _ p bits further rest howed hbits hfirst hlast, hvalue, hsame,
      List.length_cons, List.length_map, List.length_cons]
    congr 2
    omega

/-- The octets of code points are decoded one after another. -/
theorem decodeFrom_flatMap {t : Text} (h : t.Encodable) (position : Nat) :
    decodeFrom position none (t.flatMap encodeCodePoint) = .ok t := by
  induction t generalizing position with
  | nil => rfl
  | cons c t ih =>
    obtain ⟨hc, ht⟩ := List.forall_mem_cons.mp h
    rw [List.flatMap_cons, decodeFrom_encodeCodePoint hc, ih ht]
    rfl

/-- A text without a run of surrogates can be encoded. -/
theorem encodable_of_surrogateRun? {t : Text} {position : Nat} (h : surrogateRun? position t = none) :
    t.Encodable := by
  induction t generalizing position with
  | nil => exact List.forall_mem_nil _
  | cons c t ih =>
    rw [surrogateRun?] at h
    split at h
    · cases h
    · next hc => exact List.forall_mem_cons.mpr ⟨Bool.not_eq_true _ ▸ hc, ih h⟩

/-- A text that has octets has no surrogates, and they are those of its code points. -/
theorem encodable_of_encode {t : Text} {octets : List UInt8} (h : encode t = .ok octets) :
    t.Encodable ∧ octets = t.flatMap encodeCodePoint := by
  rw [encode] at h
  split at h
  · cases h
  · next hrun => exact ⟨encodable_of_surrogateRun? hrun, (Except.ok.inj h).symm⟩

/-- The octets of a text are decoded as that text. -/
theorem decode_encode {t : Text} {octets : List UInt8} (h : encode t = .ok octets) :
    decode octets = .ok t := by
  obtain ⟨hencodable, rfl⟩ := encodable_of_encode h
  exact decodeFrom_flatMap hencodable 0

/-- No two texts have the same octets. -/
theorem encode_injective {s t : Text} {octets : List UInt8} (hs : encode s = .ok octets)
    (ht : encode t = .ok octets) : s = t :=
  Except.ok.inj ((decode_encode hs).symm.trans (decode_encode ht))

end TermText.Utf8
