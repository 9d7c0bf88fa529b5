import TermText.Binary64.Number
import TermText.Binary64.Shortest

/-!
# Doubles of one value

The mantissa of a finite double is as large as the format allows. So a double is the one nearest to its own
magnitude, an integer that is a double is rounded to this very double, and two doubles of one value differ
in the sign of zero at most.
-/

namespace TermText.Finite64

/-- One is not made of no units. -/
theorem unitsPerOne_ne_zero : unitsPerOne ≠ 0 := by decide +kernel

/-- A whole quotient is rounded to itself. -/
theorem roundQuotient_mul (n : Nat) {d : Nat} (hd : 0 < d) : roundQuotient (n * d) d = n := by
  simp [roundQuotient, hd]

/-- The exponent of a double is what its magnitude has in excess of 53 bits. -/
theorem log2_magnitude (x : Finite64) : x.magnitude.log2 - 52 = x.exponent := by
  obtain ⟨hmantissa, -, hlarge⟩ := x.bounded
  simp only [Nat.pow_eq] at hmantissa hlarge
  rw [magnitude, Nat.pow_eq]
  rcases hlarge with hexponent | hnormal
  · have hlog : x.mantissa.log2 < 53 := by
      by_cases hzero : x.mantissa = 0
      · rw [hzero]
        decide
      · exact (Nat.log2_lt hzero).mpr hmantissa
    rw [hexponent, Nat.pow_zero, Nat.mul_one]
    omega
  · have hpower : 0 < 2 ^ x.exponent := Nat.two_pow_pos _
    have hne : x.mantissa * 2 ^ x.exponent ≠ 0 := by
      have hmantissa : x.mantissa ≠ 0 := by omega
      exact Nat.mul_ne_zero hmantissa (Nat.ne_of_gt hpower)
    have hlow : 52 + x.exponent ≤ (x.mantissa * 2 ^ x.exponent).log2 := by
      rw [Nat.le_log2 hne, Nat.pow_add]
      exact Nat.mul_le_mul_right _ hnormal
    have hhigh : (x.mantissa * 2 ^ x.exponent).log2 < 53 + x.exponent := by
      rw [Nat.log2_lt hne, Nat.pow_add]
      exact (Nat.mul_lt_mul_right hpower).mpr hmantissa
    omega

/-- A double is the one nearest to its magnitude, under either sign. -/
theorem nearest?_magnitude (x : Finite64) (negative : Bool) :
    nearest? negative x.magnitude 1 = some ⟨negative, x.mantissa, x.exponent, x.bounded⟩ := by
  have hmantissa : x.mantissa ≠ Nat.pow 2 53 := Nat.ne_of_lt x.bounded.1
  have hround : roundQuotient x.magnitude (1 * Nat.pow 2 x.exponent) = x.mantissa := by
    rw [Nat.one_mul]
    exact roundQuotient_mul x.mantissa (Nat.two_pow_pos _)
  simp only [nearest?, Nat.div_one, log2_magnitude, hround, if_neg hmantissa, ofParts?, dif_pos x.bounded]

/-- Doubles of one magnitude have one mantissa and one exponent. -/
theorem parts_eq_of_magnitude_eq {x y : Finite64} (h : x.magnitude = y.magnitude) :
    x.mantissa = y.mantissa ∧ x.exponent = y.exponent := by
  have hx := x.nearest?_magnitude false
  rw [h, y.nearest?_magnitude] at hx
  have hparts := Finite64.mk.inj (Option.some.inj hx)
  exact ⟨hparts.2.1.symm, hparts.2.2.symm⟩

/-- The units of a double are its magnitude up to the sign. -/
theorem natAbs_units (x : Finite64) : x.units.natAbs = x.magnitude := by
  rw [units]
  split
  · rw [Int.natAbs_neg, Int.natAbs_natCast]
  · exact Int.natAbs_natCast _

/-- A double is zero exactly if its mantissa is. -/
theorem magnitude_eq_zero_iff (x : Finite64) : x.magnitude = 0 ↔ x.mantissa = 0 := by
  rw [magnitude, Nat.mul_eq_zero]
  exact or_iff_left (Nat.ne_of_gt (Nat.two_pow_pos _))

/-- So have doubles of one value. -/
theorem parts_eq_of_units_eq {x y : Finite64} (h : x.units = y.units) :
    x.mantissa = y.mantissa ∧ x.exponent = y.exponent :=
  parts_eq_of_magnitude_eq (by rw [← natAbs_units, ← natAbs_units, h])

/-- Two doubles of one value and one sign are the same. -/
theorem eq_of_units_eq {x y : Finite64} (h : x.units = y.units) (hsign : x.negative = y.negative) :
    x = y := by
  obtain ⟨hmantissa, hexponent⟩ := parts_eq_of_units_eq h
  cases x
  cases y
  simp_all

/-- Doubles of one value have one sign unless they are zero. -/
theorem negative_eq_of_units_eq {x y : Finite64} (h : x.units = y.units) (hne : x.mantissa ≠ 0) :
    x.negative = y.negative := by
  have hmagnitude : x.magnitude = y.magnitude := by rw [← natAbs_units, ← natAbs_units, h]
  have hpositive : x.magnitude ≠ 0 := fun hzero => hne (x.magnitude_eq_zero_iff.mp hzero)
  rw [units, units, hmagnitude] at h
  cases hx : x.negative <;> cases hy : y.negative <;> simp only [hx, hy, Bool.false_eq_true,
    ↓reduceIte] at h ⊢ <;> omega

/-- Two doubles of one value that are written alike are the same: the two zeros are not. -/
theorem eq_of_units_eq_of_toText_eq {x y : Finite64} (h : x.units = y.units) (htext : x.toText = y.toText) :
    x = y := by
  by_cases hzero : x.mantissa = 0
  · have hzero' : y.mantissa = 0 := (parts_eq_of_units_eq h).1 ▸ hzero
    have hzeros : ("-" : Text) ++ "0.0" ≠ "0.0" := by decide
    rw [toText, toText, magnitudeText, magnitudeText, if_pos hzero, if_pos hzero'] at htext
    cases hx : x.negative <;> cases hy : y.negative <;> rw [hx, hy] at htext
    · exact eq_of_units_eq h (hx.trans hy.symm)
    · exact absurd htext.symm hzeros
    · exact absurd htext hzeros
    · exact eq_of_units_eq h (hx.trans hy.symm)
  · exact eq_of_units_eq h (negative_eq_of_units_eq h hzero)

/-- A double is an integer exactly if its units make up that many ones. -/
theorem isInt_iff {x : Finite64} {n : Int} : x.isInt n = true ↔ x.units = n * (unitsPerOne : Int) := by
  rw [isInt, beq_iff_eq]

/-- An integer that is a double is rounded to a double of the same value. -/
theorem exists_ofInt?_of_isInt {x : Finite64} {n : Int} (hint : x.isInt n = true) :
    ∃ y, ofInt? n = some y ∧ y.units = x.units := by
  have h := isInt_iff.mp hint
  have hmagnitude : n.natAbs * unitsPerOne = x.magnitude := by
    rw [← natAbs_units, h, Int.natAbs_mul, Int.natAbs_natCast]
  refine ⟨⟨decide (n < 0), x.mantissa, x.exponent, x.bounded⟩, ?_, ?_⟩
  · rw [ofInt?, hmagnitude, nearest?_magnitude]
  · have hcast : (x.magnitude : Int) = n.natAbs * unitsPerOne := by rw [← hmagnitude, Int.natCast_mul]
    have hunits : units ⟨decide (n < 0), x.mantissa, x.exponent, x.bounded⟩ =
        if n < 0 then -(x.magnitude : Int) else x.magnitude := by
      simp [units, magnitude]
    rw [hunits, hcast, h]
    split
    · next hn => rw [Int.ofNat_natAbs_of_nonpos (Int.le_of_lt hn), Int.neg_mul, Int.neg_neg]
    · next hn => rw [Int.natAbs_of_nonneg (Int.not_lt.mp hn)]

/-- The integer part is the quotient of the units, rounded toward zero. -/
theorem truncate_eq (x : Finite64) : x.truncate = x.units.tdiv unitsPerOne := by
  rw [truncate, units]
  split
  · rw [Int.neg_tdiv]; rfl
  · rfl

/-- The double that is an integer has it for its integer part. -/
theorem truncate_of_isInt {x : Finite64} {n : Int} (h : x.isInt n = true) : x.truncate = n := by
  have hunit : (unitsPerOne : Int) ≠ 0 := Int.natCast_ne_zero.mpr unitsPerOne_ne_zero
  rw [truncate_eq, isInt_iff.mp h, Int.mul_tdiv_cancel n hunit]

end TermText.Finite64
