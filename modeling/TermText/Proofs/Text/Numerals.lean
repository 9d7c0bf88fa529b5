import TermText.Text.Numeral

/-!
# Numerals determine their numbers

A numeral read digit by digit gives back the number that it was made of, so the numerals of two
numbers differ. A numeral of an integer below zero starts with a sign, which no digit is.
-/

namespace TermText.Numeral

/-- The number that a text of decimal digits gives if it follows the digits of another one. -/
def valueOnto (t : Text) (n : Nat) : Nat :=
  t.foldl (fun n c => 10 * n + (c.val - 0x30)) n

/-- The value of a digit is the number that it was made of. -/
theorem digit_val {n : Nat} (h : n < 10) : (digit n).val - 0x30 = n := by
  simp only [digit, CodePoint.val_ofNat]
  omega

/-- Reading the digits of a number leads to the number. -/
theorem valueOnto_digitsOnto (n : Nat) (rest : Text) :
    valueOnto (digitsOnto n rest) 0 = valueOnto rest n := by
  fun_induction digitsOnto n rest with
  | case1 n rest hsmall =>
    rw [valueOnto, List.foldl_cons, digit_val hsmall, Nat.mul_zero, Nat.zero_add, valueOnto]
  | case2 n rest hlarge ih =>
    rw [ih, valueOnto, List.foldl_cons, digit_val (Nat.mod_lt n (by decide)), Nat.div_add_mod,
      valueOnto]

/-- Two naturals with one numeral are equal. -/
theorem ofNat_injective {m n : Nat} (h : ofNat m = ofNat n) : m = n := by
  have hm := valueOnto_digitsOnto m []
  have hn := valueOnto_digitsOnto n []
  unfold ofNat at h
  rw [h, hn] at hm
  exact hm.symm

/-- No numeral of a natural number starts with a sign. -/
theorem ofNat_ne_sign (n : Nat) (t : Text) : ofNat n ≠ CodePoint.ofChar '-' :: t := by
  intro h
  have hdigits : ∀ d : Fin 10, digit d ≠ CodePoint.ofChar '-' := by decide
  obtain ⟨d, hd, hsign⟩ := mem_ofNat (h ▸ List.mem_cons_self : CodePoint.ofChar '-' ∈ ofNat n)
  exact hdigits ⟨d, hd⟩ hsign.symm

/-- Two integers with one numeral are equal. -/
theorem ofInt_injective {m n : Int} (h : ofInt m = ofInt n) : m = n := by
  cases m with
  | ofNat m =>
    cases n with
    | ofNat n => exact congrArg Int.ofNat (ofNat_injective h)
    | negSucc n => exact absurd h (ofNat_ne_sign m _)
  | negSucc m =>
    cases n with
    | ofNat n => exact absurd h.symm (ofNat_ne_sign n _)
    | negSucc n => exact congrArg Int.negSucc (Nat.succ_inj.mp (ofNat_injective (List.cons.inj h).2))

/-- A numeral has a digit. -/
theorem digitsOnto_ne_nil (n : Nat) (rest : Text) : digitsOnto n rest ≠ [] := by
  fun_induction digitsOnto n rest with
  | case1 => simp
  | case2 n rest hlarge ih => exact ih

/-- The code points of the numeral of an integer are digits and a sign. -/
theorem mem_ofInt {c : CodePoint} {n : Int} (h : c ∈ ofInt n) :
    c = CodePoint.ofChar '-' ∨ ∃ d, d < 10 ∧ c = digit d := by
  cases n with
  | ofNat n => exact .inr (mem_ofNat h)
  | negSucc n =>
    rcases List.mem_cons.mp h with rfl | h
    · exact .inl rfl
    · exact .inr (mem_ofNat h)

/-- What holds of all digits holds of all code points of the numeral of a natural number. -/
theorem forall_mem_ofNat {P : CodePoint → Prop} (h : ∀ d : Fin 10, P (digit d)) (n : Nat) :
    ∀ c ∈ ofNat n, P c := by
  intro c hc
  obtain ⟨d, hd, rfl⟩ := mem_ofNat hc
  exact h ⟨d, hd⟩

/-- If it holds of the sign too, it holds of all code points of the numeral of an integer. -/
theorem forall_mem_ofInt {P : CodePoint → Prop} (h : ∀ d : Fin 10, P (digit d))
    (hsign : P (CodePoint.ofChar '-')) (n : Int) : ∀ c ∈ ofInt n, P c := by
  intro c hc
  obtain rfl | ⟨d, hd, rfl⟩ := mem_ofInt hc
  · exact hsign
  · exact h ⟨d, hd⟩

/-- No numeral is empty. -/
theorem ofInt_ne_nil (n : Int) : ofInt n ≠ [] := by
  cases n with
  | ofNat n => exact digitsOnto_ne_nil n []
  | negSucc n => exact List.cons_ne_nil _ _

end TermText.Numeral
