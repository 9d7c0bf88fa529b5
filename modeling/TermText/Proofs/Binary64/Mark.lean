import TermText.Binary64.Shortest
import TermText.Proofs.Text.Numerals
import TermText.Value.Basic

/-!
# What the text of a double is made of

The text of a finite double consists of digits, signs, a point and the letter of an exponent, so it is
an atom. It holds the point or the letter in any case, which no numeral of an integer does: a double
is never written like an integer, even if it is whole.

Nothing is said here of which double a text denotes.
-/

namespace TermText

namespace Numeral

/-- The numeral of an integer holds no point and no letter. -/
theorem mark_not_mem_ofInt (n : Int) :
    CodePoint.ofChar '.' ∉ ofInt n ∧ CodePoint.ofChar 'e' ∉ ofInt n := by
  have hplain : ∀ c ∈ ofInt n, c ≠ CodePoint.ofChar '.' ∧ c ≠ CodePoint.ofChar 'e' :=
    forall_mem_ofInt (by decide) (by decide) n
  exact ⟨fun h => (hplain _ h).1 rfl, fun h => (hplain _ h).2 rfl⟩

end Numeral

namespace Finite64

/-- A code point of the text of a double: a digit, a sign, a point or the letter of an exponent. -/
def inDecimal (c : CodePoint) : Bool :=
  (0x30 ≤ c.val && c.val ≤ 0x39) || c = CodePoint.ofChar '-' || c = CodePoint.ofChar '+' ||
    c = CodePoint.ofChar '.' || c = CodePoint.ofChar 'e'

/-- A text that may be the text of a double: it is made of such code points and has a point or an
exponent. -/
structure Marked (t : Text) : Prop where
  all_inDecimal : t.all inDecimal = true
  mark_mem : CodePoint.ofChar '.' ∈ t ∨ CodePoint.ofChar 'e' ∈ t

/-- A numeral stands in texts of doubles. -/
theorem all_inDecimal_ofNat (n : Nat) : (Numeral.ofNat n).all inDecimal = true := by
  rw [List.all_eq_true]
  exact Numeral.forall_mem_ofNat (by decide) n

/-- Zeros may stand in a decimal. -/
theorem all_inDecimal_zeros (n : Nat) : (zeros n).all inDecimal = true := by
  have hzero : inDecimal (Numeral.digit 0) = true := by decide
  rw [List.all_eq_true]
  intro c hc
  rw [List.eq_of_mem_replicate hc]
  exact hzero

/-- So does every part of a text that stands in one. -/
theorem all_inDecimal_of_sublist {t t' : Text} (h : t'.all inDecimal = true) (hsub : t.Sublist t') :
    t.all inDecimal = true := by
  rw [List.all_eq_true] at h ⊢
  exact fun c hc => h c (hsub.subset hc)

/-- What is left of a text without the zeros at its end is a part of it. -/
theorem trimZeros_sublist (t : Text) : (trimZeros t).Sublist t := by
  have hrest := List.dropWhile_sublist (l := t.reverse) (· = Numeral.digit 0)
  simpa [trimZeros] using hrest.reverse

/-- A positional text has a point. -/
theorem marked_positional {t : Text} (h : t.all inDecimal = true) (point : Int) :
    Marked (positional t point) := by
  have htake := all_inDecimal_of_sublist h (List.take_sublist point.toNat t)
  have hdrop := all_inDecimal_of_sublist h (List.drop_sublist point.toNat t)
  have hparts : ("0." : Text).all inDecimal = true ∧ (".0" : Text).all inDecimal = true ∧
      ("." : Text).all inDecimal = true := by decide
  have hpoint : CodePoint.ofChar '.' ∈ ("0." : Text) ∧ CodePoint.ofChar '.' ∈ (".0" : Text) ∧
      CodePoint.ofChar '.' ∈ ("." : Text) := by decide
  unfold positional
  split
  · constructor
    · simp only [List.all_append, hparts.1, all_inDecimal_zeros, h, Bool.and_self]
    · simp [hpoint.1]
  · split
    · constructor
      · simp only [List.all_append, hparts.2.1, all_inDecimal_zeros, h, Bool.and_self]
      · simp [hpoint.2.1]
    · constructor
      · simp only [List.all_append, hparts.2.2, htake, hdrop, Bool.and_self]
      · simp [hpoint.2.2]

/-- A text with an exponent has the letter of one. -/
theorem marked_scientific {t : Text} (h : t.all inDecimal = true) (exponent : Int) :
    Marked (scientific t exponent) := by
  have htake := all_inDecimal_of_sublist h (List.take_sublist 1 t)
  have hdrop := all_inDecimal_of_sublist h (List.drop_sublist 1 t)
  have hpoint : ("." : Text).all inDecimal = true := by decide
  have hletter : ("e" : Text).all inDecimal = true ∧ CodePoint.ofChar 'e' ∈ ("e" : Text) := by decide
  have hfraction : (if t.length ≤ 1 then [] else ("." : Text) ++ t.drop 1).all inDecimal = true := by
    split
    · rfl
    · rw [List.all_append, hpoint, hdrop, Bool.and_self]
  have hsign : (if exponent < 0 then ("-" : Text) else "+").all inDecimal = true := by
    split <;> decide
  unfold scientific
  constructor
  · simp only [List.all_append, htake, hfraction, hletter.1, hsign, all_inDecimal_zeros,
      all_inDecimal_ofNat, Bool.and_self]
  · simp [hletter.2]

/-- The text of the magnitude of a double is marked. -/
theorem marked_magnitudeText (x : Finite64) : Marked x.magnitudeText := by
  have hdigits := all_inDecimal_of_sublist (all_inDecimal_ofNat x.shortest.digits)
    (trimZeros_sublist (Numeral.ofNat x.shortest.digits))
  unfold magnitudeText
  split
  · exact ⟨by decide, by decide⟩
  · dsimp only
    split
    · exact marked_positional hdigits _
    · exact marked_scientific hdigits _

/-- The text of a double is marked. -/
theorem marked_toText (x : Finite64) : Marked x.toText := by
  have hmarked := x.marked_magnitudeText
  have hsign : ("-" : Text).all inDecimal = true := by decide
  unfold toText
  split
  · constructor
    · rw [List.all_append, hsign, hmarked.all_inDecimal, Bool.and_self]
    · exact hmarked.mark_mem.imp (List.mem_append_right _) (List.mem_append_right _)
  · exact hmarked

/-- What may stand in the text of a double is in ASCII, and no control character. -/
theorem ascii_of_inDecimal {c : CodePoint} (h : inDecimal c = true) :
    0x20 ≤ c.val ∧ c.val ≤ 0x7E := by
  simp only [inDecimal, Bool.or_eq_true, Bool.and_eq_true, decide_eq_true_eq] at h
  rcases h with (((hdigit | rfl) | rfl) | rfl) | rfl
  · omega
  · decide
  · decide
  · decide
  · decide

/-- Nothing that may stand in the text of a double ends an atom. -/
theorem not_isForbidden_of_inDecimal {c : CodePoint} (h : inDecimal c = true) :
    Atom.isForbidden c = false := by
  have hascii : ∀ n : Fin 0x80, inDecimal (Fin.castLE (by decide) n) = true →
      Atom.isForbidden (Fin.castLE (by decide) n) = false := by decide
  have hsmall : c.val < 0x80 := Nat.lt_of_le_of_lt (ascii_of_inDecimal h).2 (by decide)
  exact hascii ⟨c.val, hsmall⟩ h

/-- The text of a double is an atom. -/
theorem isValid_toText (x : Finite64) : Atom.isValid x.toText = true := by
  have hmarked := x.marked_toText
  have hfree : x.toText.any Atom.isForbidden = false := by
    have hall := List.all_eq_true.mp hmarked.all_inDecimal
    rw [List.any_eq_false]
    intro c hc
    simp [not_isForbidden_of_inDecimal (hall c hc)]
  have hne : x.toText ≠ [] :=
    hmarked.mark_mem.elim List.ne_nil_of_mem List.ne_nil_of_mem
  simp [Atom.isValid, hfree, hne]

/-- No double is written like an integer. -/
theorem toText_ne_ofInt (x : Finite64) (n : Int) : x.toText ≠ Numeral.ofInt n := by
  intro h
  have hmark := x.marked_toText.mark_mem
  rw [h] at hmark
  have hnone := Numeral.mark_not_mem_ofInt n
  exact hmark.elim hnone.1 hnone.2

end Finite64

end TermText
