import Mathlib.Data.List.TakeWhile
import TermText.Text.Numeral

/-!
# Texts of digits

Whether a text looks like a number and whether it is read as one is asked of two classes of code points.
Digit characters are neither blanks nor signs nor low lines, so a text of them is read from its first code
point to its last: as the number of its decimal digits if all are decimal, and not at all otherwise.
-/

namespace TermText

namespace CodePoint

/-- The digit characters of all kinds, as inclusive ranges. -/
def digitRanges : List (Nat × Nat) :=
  decimalZeros.map (fun first => (first, first + 9)) ++ nonDecimalDigits

/-- The blanks that may surround a numeral, as inclusive ranges. -/
def marginRanges : List (Nat × Nat) :=
  [(0x09, 0x0D), (0x20, 0x20), (0x85, 0x85), (0xA0, 0xA0), (0x1680, 0x1680), (0x2000, 0x200A),
    (0x2028, 0x2029), (0x202F, 0x202F), (0x205F, 0x205F), (0x3000, 0x3000)]

/-- A digit lies in one of the ranges. -/
theorem exists_digitRange {c : CodePoint} (h : c.isDigit = true) :
    ∃ range ∈ digitRanges, range.1 ≤ c.val ∧ c.val ≤ range.2 := by
  rcases (Bool.or_eq_true _ _).mp h with hdecimal | hother
  · obtain ⟨first, hfound⟩ := Option.isSome_iff_exists.mp (Option.isSome_map ▸ hdecimal)
    have hrange := List.find?_some hfound
    simp only [Bool.and_eq_true, decide_eq_true_eq] at hrange
    have hmem := List.mem_map_of_mem (f := fun first => (first, first + 9)) (List.mem_of_find?_eq_some hfound)
    exact ⟨(first, first + 9), List.mem_append_left _ hmem, hrange⟩
  · obtain ⟨range, hmem, hrange⟩ := List.any_eq_true.mp hother
    simp only [Bool.and_eq_true, decide_eq_true_eq] at hrange
    exact ⟨range, List.mem_append_right _ hmem, hrange⟩

/-- No digit character is a blank that may surround a numeral: their ranges lie apart. -/
theorem isMargin_of_isDigit {c : CodePoint} (h : c.isDigit = true) : Numeral.isMargin c = false := by
  have hapart : ∀ digits ∈ digitRanges, ∀ margins ∈ marginRanges,
      digits.2 < margins.1 ∨ margins.2 < digits.1 := by decide +kernel
  obtain ⟨digits, hdigits, hlow, hhigh⟩ := exists_digitRange h
  have hmargins := hapart digits hdigits
  simp only [marginRanges, List.forall_mem_cons] at hmargins
  simp only [Numeral.isMargin, isBlank, ← Bool.not_eq_true, Bool.and_eq_true, Bool.or_eq_true,
    Bool.not_eq_true', decide_eq_true_eq, beq_iff_eq]
  omega

/-- A digit character differs from every code point that is none. -/
theorem ne_of_isDigit {c d : CodePoint} (hc : c.isDigit = true) (hd : d.isDigit = false) : c ≠ d := by
  rintro rfl
  rw [hc] at hd
  cases hd

/-- A decimal digit, which has a value. -/
def IsDecimal (c : CodePoint) : Prop :=
  c.decimalValue?.isSome = true

/-- Whether a code point is a decimal is decided by its value. -/
instance (c : CodePoint) : Decidable c.IsDecimal :=
  inferInstanceAs (Decidable (_ = true))

/-- A decimal is a digit. -/
theorem IsDecimal.isDigit {c : CodePoint} (h : c.IsDecimal) : c.isDigit = true :=
  (Bool.or_eq_true _ _).mpr (.inl h)

end CodePoint

namespace Text

/-- The number that the decimal digits of a text denote. -/
def decimal (t : Text) : Nat :=
  Numeral.ofDigits (t.filterMap CodePoint.decimalValue?)

/-- A text that looks like a number and is none: digit characters, some of them without a value. -/
def Undecimal (t : Text) : Prop :=
  t.isAllDigits = true ∧ ∃ c ∈ t, ¬ c.IsDecimal

/-- Whether a text has a digit that is no decimal is decided along the text. -/
instance (t : Text) : Decidable t.Undecimal :=
  haveI : Decidable (∃ c ∈ t, ¬ c.IsDecimal) := List.decidableBEx _ t
  inferInstanceAs (Decidable (_ ∧ _))

/-- A text consists of digits exactly if it is not empty and each code point is one. -/
theorem isAllDigits_iff {t : Text} : t.isAllDigits = true ↔ t ≠ [] ∧ ∀ c ∈ t, c.isDigit = true := by
  simp [isAllDigits]

end Text

namespace Numeral

open CodePoint

variable {t : Text}

/-- A text of decimal digits has their values. -/
theorem digitValues?_of_isDecimal (hne : t ≠ []) (h : ∀ c ∈ t, c.IsDecimal) :
    digitValues? t = some (t.filterMap decimalValue?) := by
  induction t with
  | nil => exact absurd rfl hne
  | cons c rest ih =>
    obtain ⟨hc, hrest⟩ := List.forall_mem_cons.mp h
    obtain ⟨v, hv⟩ := Option.isSome_iff_exists.mp hc
    rw [List.filterMap_cons_some hv]
    cases rest with
    | nil => rw [digitValues?, hv]; rfl
    | cons d more =>
      have hd : d ≠ lowLine := ne_of_isDigit (hrest d List.mem_cons_self).isDigit (by decide)
      rw [digitValues?, hv, if_neg hd, ih (List.cons_ne_nil _ _) hrest]

/-- Each decimal has a value. -/
theorem length_filterMap_decimalValue? (h : ∀ c ∈ t, c.IsDecimal) :
    (t.filterMap decimalValue?).length = t.length := by
  induction t with
  | nil => rfl
  | cons c rest ih =>
    obtain ⟨hc, hrest⟩ := List.forall_mem_cons.mp h
    obtain ⟨v, hv⟩ := Option.isSome_iff_exists.mp hc
    rw [List.filterMap_cons_some hv, List.length_cons, ih hrest, List.length_cons]

/-- A text of digit characters starts with no margin and no sign. -/
theorem readInt_of_isAllDigits (h : t.isAllDigits = true) :
    readInt t =
      match digitValues? (t.takeWhile isInRun) with
      | none => .error (.notANumeral t)
      | some values =>
        if digitLimit < values.length then .error (.tooManyDigits values.length)
        else if (t.dropWhile isInRun).all isMargin then .ok (ofDigits values)
        else .error (.notANumeral t) := by
  obtain ⟨hne, hdigits⟩ := Text.isAllDigits_iff.mp h
  obtain ⟨c, rest, rfl⟩ := List.exists_cons_of_ne_nil hne
  have hc := hdigits c List.mem_cons_self
  have hmargin : (c :: rest).dropWhile isMargin = c :: rest :=
    List.dropWhile_cons_of_neg (by rw [isMargin_of_isDigit hc]; decide)
  have hsign : splitSign (c :: rest) = (false, c :: rest) := by
    rw [splitSign, if_neg (ne_of_isDigit hc (by decide)), if_neg (ne_of_isDigit hc (by decide))]
  rw [readInt, hmargin, hsign]
  rfl

/-- A text of decimal digits is read as their number, unless it is too long. -/
theorem readInt_of_isDecimal (hne : t ≠ []) (h : ∀ c ∈ t, c.IsDecimal) :
    readInt t =
      if digitLimit < t.length then .error (.tooManyDigits t.length) else .ok t.decimal := by
  have hrun : ∀ c ∈ t, isInRun c = true := fun c hc => (Bool.or_eq_true _ _).mpr (.inl (h c hc))
  rw [readInt_of_isAllDigits (Text.isAllDigits_iff.mpr ⟨hne, fun c hc => (h c hc).isDigit⟩),
    List.takeWhile_eq_self_iff.mpr hrun, List.dropWhile_eq_nil_iff.mpr hrun,
    digitValues?_of_isDecimal hne h]
  simp only [length_filterMap_decimalValue? h]
  rfl

/-- What follows the decimal digits in front of a text that has other digits is no margin. -/
theorem all_isMargin_dropWhile (h : t.Undecimal) : (t.dropWhile isInRun).all isMargin = false := by
  obtain ⟨hall, c, hc, hcvalue⟩ := h
  have hdigits := (Text.isAllDigits_iff.mp hall).2
  have hcrun : isInRun c = false := by
    have hlow : c ≠ lowLine := ne_of_isDigit (hdigits c hc) (by decide)
    simpa [isInRun, hlow, IsDecimal] using hcvalue
  have hne : t.dropWhile isInRun ≠ [] := fun hnil => by
    rw [List.dropWhile_eq_nil_iff.mp hnil c hc] at hcrun
    cases hcrun
  obtain ⟨d, rest, hrest⟩ := List.exists_cons_of_ne_nil hne
  have hd : d ∈ t := List.dropWhile_sublist isInRun |>.subset (hrest ▸ List.mem_cons_self)
  rw [hrest, List.all_cons, isMargin_of_isDigit (hdigits d hd), Bool.false_and]

/-- The run of digits in front of a text of digit characters is its decimal ones: no low line is a digit. -/
theorem isDecimal_of_mem_takeWhile (h : t.isAllDigits = true) : ∀ c ∈ t.takeWhile isInRun, c.IsDecimal := by
  intro c hc
  have hrun : isInRun c = true := List.mem_takeWhile_imp hc
  have hdigit := (Text.isAllDigits_iff.mp h).2 c (List.takeWhile_sublist isInRun |>.subset hc)
  have hlow : c ≠ lowLine := ne_of_isDigit hdigit (by decide)
  simpa [isInRun, hlow, IsDecimal] using hrun

/-- Digit characters some of which have no value are not read. The failure quotes them all, unless the
decimal ones in front are too many. -/
theorem exists_readInt_error (h : t.Undecimal) :
    ∃ e, readInt t = .error e ∧ (t.length ≤ digitLimit → e = .notANumeral t) := by
  have hdecimal := isDecimal_of_mem_takeWhile h.1
  rw [readInt_of_isAllDigits h.1, all_isMargin_dropWhile h]
  by_cases hnone : t.takeWhile isInRun = []
  · rw [hnone]
    exact ⟨_, rfl, fun _ => rfl⟩
  · rw [digitValues?_of_isDecimal hnone hdecimal]
    simp only [length_filterMap_decimalValue? hdecimal]
    have hprefix : (t.takeWhile isInRun).length ≤ t.length := (List.takeWhile_sublist isInRun).length_le
    split
    · next hcount => exact ⟨_, rfl, fun hshort => by omega⟩
    · exact ⟨_, rfl, fun _ => rfl⟩

end Numeral

end TermText
