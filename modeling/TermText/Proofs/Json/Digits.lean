import Mathlib.Algebra.Order.Ring.Nat
import TermText.Digest.Blake2b
import TermText.Json.Number

/-!
# Numbers of few digits

A numeral that is read has at most `Numeral.digitLimit` digits, and so have integer parts of doubles,
truth values and default hashes. So a value gives an integer that is longer only if it is that integer.
-/

namespace TermText

namespace Numeral

/-- The least number with more than a number of digits is a power of ten. -/
theorem boundOf_eq (digits : Nat) : boundOf digits = 10 ^ digits := rfl

/-- An integer is within the limit exactly if it lies below a power of ten. -/
theorem fits_iff {n : Int} : Fits n ↔ n.natAbs < 10 ^ digitLimit := by
  rw [Fits, boundOf_eq]

/-- An integer of a given number of digits fits if the number does. -/
theorem fits_of_lt_pow {n : Int} (digits : Nat) (hdigits : digits ≤ digitLimit)
    (h : n.natAbs < 10 ^ digits) : Fits n :=
  fits_iff.mpr (Nat.lt_of_lt_of_le h (Nat.pow_le_pow_right (by decide) hdigits))

/-- A digit of any script is below ten. -/
theorem decimalValue?_lt {c : CodePoint} {v : Nat} (h : c.decimalValue? = some v) : v < 10 := by
  obtain ⟨first, hfound, rfl⟩ := Option.map_eq_some_iff.mp h
  have hrange := List.find?_some hfound
  simp only [Bool.and_eq_true, decide_eq_true_eq] at hrange
  omega

/-- Digit values that are read are below ten. -/
theorem lt_of_mem_digitValues? {t : Text} {values : List Nat} (h : digitValues? t = some values) :
    ∀ v ∈ values, v < 10 := by
  fun_induction digitValues? t generalizing values with
  | case1 => cases h
  | case2 c =>
    obtain ⟨v, hv, rfl⟩ := Option.map_eq_some_iff.mp h
    exact List.forall_mem_singleton.mpr (decimalValue?_lt hv)
  | case3 c d rest v read hread hv ihbehind ihnext =>
    obtain rfl := Option.some.inj h
    refine List.forall_mem_cons.mpr ⟨decimalValue?_lt hv, ?_⟩
    split at hread
    · exact ihbehind hread
    · exact ihnext hread
  | case4 => cases h

/-- The number of digit values below ten has no more digits than there are values. -/
theorem ofDigits_lt {values : List Nat} (h : ∀ v ∈ values, v < 10) :
    ofDigits values < 10 ^ values.length := by
  suffices hfold : ∀ n, values.foldl (fun n v => 10 * n + v) n < (n + 1) * 10 ^ values.length by
    have hzero := hfold 0
    rwa [Nat.zero_add, Nat.one_mul] at hzero
  induction values with
  | nil => simp
  | cons v rest ih =>
    intro n
    have hv := h v List.mem_cons_self
    have hrest := ih (fun v hv => h v (List.mem_cons_of_mem _ hv)) (10 * n + v)
    rw [List.foldl_cons, List.length_cons, Nat.pow_succ', ← Nat.mul_assoc]
    exact Nat.lt_of_lt_of_le hrest (Nat.mul_le_mul_right _ (by omega))

/-- An integer that is read fits. -/
theorem fits_of_readInt {t : Text} {n : Int} (h : readInt t = .ok n) : Fits n := by
  unfold readInt at h
  dsimp only at h
  split at h
  · cases h
  · next values hvalues =>
    split at h
    · cases h
    · next hcount =>
      split at h
      · have hbound := ofDigits_lt (lt_of_mem_digitValues? hvalues)
        refine fits_of_lt_pow _ (Nat.le_of_not_lt hcount) ?_
        obtain rfl := Except.ok.inj h
        split <;> omega
      · cases h

end Numeral

/-- An integer below a product of powers of two has no more digits than the product has bits. -/
theorem Numeral.fits_of_le_mul_pow {n : Int} {m e a b : Nat} (hn : n.natAbs ≤ m * 2 ^ e)
    (hm : m < 2 ^ a) (he : e ≤ b) (hbits : a + b ≤ digitLimit) : Fits n := by
  refine fits_of_lt_pow _ hbits ?_
  calc n.natAbs
      ≤ m * 2 ^ e := hn
    _ < 2 ^ a * 2 ^ b := Nat.mul_lt_mul_of_lt_of_le hm (Nat.pow_le_pow_right (by decide) he)
        (Nat.pow_pos (by decide))
    _ = 2 ^ (a + b) := (Nat.pow_add 2 a b).symm
    _ ≤ 10 ^ (a + b) := Nat.pow_le_pow_left (by decide) _

/-- The integer part of a double fits, even if it is taken for a number of units. -/
theorem Finite64.fits_truncate (x : Finite64) : Numeral.Fits x.truncate := by
  obtain ⟨hmantissa, hexponent, -⟩ := x.bounded
  have hpart : x.truncate.natAbs ≤ x.magnitude := by
    have hdiv := Nat.div_le_self x.magnitude unitsPerOne
    rw [truncate]
    generalize x.magnitude / unitsPerOne = whole at hdiv ⊢
    split <;> omega
  exact Numeral.fits_of_le_mul_pow hpart hmantissa hexponent (by decide)

/-- A number that octets make up has so many octets. -/
theorem Blake2b.foldl_octets_lt (octet : Nat → Nat) (is : List Nat) (n : Nat) :
    is.foldl (fun n i => 256 * n + octet i % 256) n < (n + 1) * 256 ^ is.length := by
  induction is generalizing n with
  | nil => simp
  | cons i rest ih =>
    rw [List.foldl_cons, List.length_cons, Nat.pow_succ', ← Nat.mul_assoc]
    exact Nat.lt_of_lt_of_le (ih _) (Nat.mul_le_mul_right _ (by omega))

/-- A digest of eight octets has 64 bits. -/
theorem Blake2b.fits_digest8 (message : List UInt8) : Numeral.Fits (digest8 message) := by
  refine Numeral.fits_of_lt_pow 20 (by decide) ?_
  rw [Int.natAbs_natCast, digest8]
  have hdigest := foldl_octets_lt (fun i => (Array.getD (absorb (message.length + 1) 0
    (initialWords.setIfInBounds 0 (initialWords.getD 0 0 ^^^ 0x01010008)) message) 0 0).toNat /
      Nat.pow 256 i) (List.range 8) 0
  rw [List.length_range] at hdigest
  exact Nat.lt_trans hdigest (by decide)

end TermText
