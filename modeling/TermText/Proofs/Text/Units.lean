import Mathlib.Algebra.GroupWithZero.Nat
import TermText.Text.Escaped

/-!
# The 16-bit units of a text

A string token writes its text unit by unit: a code point above U+FFFF is written like the two
surrogates that stand for it. The token determines the units, and no more of the text: the codes of
two units never start alike, and no code starts like the quote at the end of the token.
-/

namespace TermText

namespace Hexadecimal

/-- The digits below sixteen differ. -/
theorem digit_inj {m n : Nat} (hm : m < 16) (hn : n < 16) (h : digit m = digit n) : m = n := by
  have hdigits : ∀ i j : Fin 16, digit i = digit j → i = j := by decide
  exact congrArg Fin.val (hdigits ⟨m, hm⟩ ⟨n, hn⟩ h)

/-- A hexadecimal numeral is as wide as it was asked to be. -/
@[simp] theorem ofNat_length (width n : Nat) : (ofNat width n).length = width := by
  induction width generalizing n with
  | zero => rfl
  | succ width ih => simp [ofNat, ih]

/-- A numeral of a given width determines a number that fits it. -/
theorem ofNat_inj {width m n : Nat} (hm : m < 16 ^ width) (hn : n < 16 ^ width)
    (h : ofNat width m = ofNat width n) : m = n := by
  induction width generalizing m n with
  | zero => omega
  | succ width ih =>
    obtain ⟨hinit, hlast⟩ := List.append_inj h (by simp)
    have hdigit := digit_inj (Nat.mod_lt m (by decide)) (Nat.mod_lt n (by decide))
      (List.singleton_inj.mp hlast)
    have hrest := ih (by omega) (by omega) hinit
    omega

end Hexadecimal

namespace Text

/-- The 16-bit units of a text. -/
def units (t : Text) : List Nat :=
  t.flatMap units16

/-- The units with a short escape, each with the letter of the escape. -/
def shortEscapes : List (Nat × CodePoint) :=
  [(0x22, CodePoint.ofChar '"'), (0x5C, CodePoint.ofChar '\\'), (0x0A, CodePoint.ofChar 'n'),
    (0x0D, CodePoint.ofChar 'r'), (0x09, CodePoint.ofChar 't'), (0x08, CodePoint.ofChar 'b'),
    (0x0C, CodePoint.ofChar 'f')]

/-- One 16-bit unit within a string token. -/
def unitCode (unit : Nat) : Text :=
  match shortEscapes.find? fun entry => entry.1 = unit with
  | some entry => [CodePoint.ofChar '\\', entry.2]
  | none => if 0x20 ≤ unit ∧ unit ≤ 0x7E then [CodePoint.ofNat unit] else escapeUnit unit

/-- A token that writes given units. -/
def tokenOf (units : List Nat) : Text :=
  [CodePoint.ofChar '"'] ++ units.flatMap unitCode ++ [CodePoint.ofChar '"']

/-- Units have 16 bits. -/
theorem lt_of_mem_units {t : Text} {unit : Nat} (h : unit ∈ t.units) : unit < 0x10000 := by
  obtain ⟨c, _, hc⟩ := List.mem_flatMap.mp h
  have hlt := c.isLt
  unfold units16 at hc
  split at hc
  · simp only [List.mem_singleton] at hc
    omega
  · simp only [List.mem_cons, List.not_mem_nil, or_false] at hc
    omega

/-- A unit beyond ASCII is written by its number. -/
theorem unitCode_of_lt {unit : Nat} (h : 0x7E < unit) : unitCode unit = escapeUnit unit := by
  have hnone : shortEscapes.find? (fun entry => entry.1 = unit) = none := by
    rw [List.find?_eq_none]
    intro entry hentry hunit
    have hshort : ∀ entry ∈ shortEscapes, entry.1 ≤ 0x7E := by decide
    have hle := hshort entry hentry
    simp only [decide_eq_true_eq] at hunit
    omega
  rw [unitCode, hnone]
  exact if_neg (by omega)

/-- A code point is written unit by unit. -/
theorem escapeCodePoint_eq (c : CodePoint) :
    escapeCodePoint c = (units16 c).flatMap unitCode := by
  have hascii : ∀ n : Fin 0x80, escapeCodePoint (Fin.castLE (by decide) n) =
      (units16 (Fin.castLE (by decide) n)).flatMap unitCode := by decide
  by_cases hsmall : c.val < 0x80
  · exact hascii ⟨c.val, hsmall⟩
  · have hlast : escapeCodePoint c = (units16 c).flatMap escapeUnit := by
      have hchar (d : CodePoint) (hd : d.val < 0x80) : c ≠ d := by
        intro heq
        subst heq
        exact hsmall hd
      unfold escapeCodePoint
      rw [if_neg (hchar _ (by decide)), if_neg (hchar _ (by decide)), if_neg (hchar _ (by decide)),
        if_neg (hchar _ (by decide)), if_neg (hchar _ (by decide)), if_neg (by omega),
        if_neg (by omega), if_neg (by omega)]
    have hcodes : ∀ unit ∈ units16 c, escapeUnit unit = unitCode unit := by
      intro unit hunit
      refine (unitCode_of_lt ?_).symm
      unfold units16 at hunit
      split at hunit
      · simp only [List.mem_singleton] at hunit
        omega
      · simp only [List.mem_cons, List.not_mem_nil, or_false] at hunit
        omega
    rw [hlast, List.flatMap, List.map_congr_left hcodes]
    rfl

/-- The string token of a text writes its units. -/
theorem escaped_eq_tokenOf (t : Text) : t.escaped = tokenOf t.units := by
  rw [escaped, tokenOf, units, List.flatMap_assoc]
  simp only [← escapeCodePoint_eq]

/-- What follows the backslash of a code: the letter of a short escape, or the letter of a number. -/
theorem unitCode_cases (unit : Nat) :
    (∃ letter, (unit, letter) ∈ shortEscapes ∧ unitCode unit = [CodePoint.ofChar '\\', letter]) ∨
      (0x20 ≤ unit ∧ unit ≤ 0x7E ∧ unit ≠ 0x22 ∧ unit ≠ 0x5C ∧
        unitCode unit = [CodePoint.ofNat unit]) ∨
      unitCode unit = CodePoint.ofChar '\\' :: CodePoint.ofChar 'u' :: Hexadecimal.ofNat 4 unit := by
  unfold unitCode
  cases hfound : shortEscapes.find? fun entry => entry.1 = unit with
  | some entry =>
    have hunit : entry.1 = unit := by simpa using List.find?_some hfound
    exact .inl ⟨entry.2, hunit ▸ List.mem_of_find?_eq_some hfound, rfl⟩
  | none =>
    have hshort := List.find?_eq_none.mp hfound
    have hquote := hshort (0x22, CodePoint.ofChar '"') (by decide)
    have hslash := hshort (0x5C, CodePoint.ofChar '\\') (by decide)
    simp only [decide_eq_true_eq] at hquote hslash
    by_cases hprint : 0x20 ≤ unit ∧ unit ≤ 0x7E
    · exact .inr (.inl ⟨hprint.1, hprint.2, by omega, by omega, if_pos hprint⟩)
    · exact .inr (.inr (if_neg hprint))

/-- The codes of two units never start alike. -/
theorem unitCode_append_inj {u v : Nat} (hu : u < 0x10000) (hv : v < 0x10000) {r r' : Text}
    (h : unitCode u ++ r = unitCode v ++ r') : u = v ∧ r = r' := by
  have hletter : ∀ entry ∈ shortEscapes, entry.2 ≠ CodePoint.ofChar 'u' := by decide
  have hsame : ∀ entry ∈ shortEscapes, ∀ entry' ∈ shortEscapes, entry.2 = entry'.2 →
      entry.1 = entry'.1 := by decide
  have hslash {unit : Nat} (hle : unit ≤ 0x7E) (hne : unit ≠ 0x5C) :
      CodePoint.ofNat unit ≠ CodePoint.ofChar '\\' := by
    intro heq
    have hval := congrArg Fin.val heq
    simp only [CodePoint.val_ofNat] at hval
    rw [Nat.mod_eq_of_lt (by omega)] at hval
    exact hne hval
  rcases unitCode_cases u with ⟨l, hl, hcu⟩ | ⟨_, hule, _, hune, hcu⟩ | hcu <;>
    rcases unitCode_cases v with ⟨l', hl', hcv⟩ | ⟨_, hvle, _, hvne, hcv⟩ | hcv <;>
    rw [hcu, hcv] at h <;>
    simp only [List.cons_append, List.nil_append, List.cons.injEq, true_and] at h
  · exact ⟨hsame _ hl _ hl' h.1, h.2⟩
  · exact absurd h.1.symm (hslash hvle hvne)
  · exact absurd h.1 (hletter _ hl)
  · exact absurd h.1 (hslash hule hune)
  · have hval := congrArg Fin.val h.1
    simp only [CodePoint.val_ofNat] at hval
    exact ⟨by omega, h.2⟩
  · exact absurd h.1 (hslash hule hune)
  · exact absurd h.1.symm (hletter _ hl')
  · exact absurd h.1.symm (hslash hvle hvne)
  · obtain ⟨hhex, hrest⟩ := List.append_inj h (by simp)
    exact ⟨Hexadecimal.ofNat_inj hu hv hhex, hrest⟩

/-- No code starts like the quote at the end of a token. -/
theorem unitCode_append_ne_quote (unit : Nat) (r r' : Text) :
    unitCode unit ++ r ≠ CodePoint.ofChar '"' :: r' := by
  rcases unitCode_cases unit with ⟨l, _, hcode⟩ | ⟨_, hle, hne, _, hcode⟩ | hcode <;> rw [hcode] <;>
    intro h <;> have hhead := congrArg Fin.val (List.cons.inj h).1
  · exact absurd hhead (by decide)
  · simp only [CodePoint.val_ofNat] at hhead
    rw [Nat.mod_eq_of_lt (by omega)] at hhead
    exact hne hhead
  · exact absurd hhead (by decide)

/-- What is written code by code up to a mark is told apart, if the codes are and none starts like the
mark. -/
theorem flatMap_append_inj {α : Type} {code : α → Text} {mark : CodePoint} {P : α → Prop}
    (hcode : ∀ a b r r', P a → P b → code a ++ r = code b ++ r' → a = b ∧ r = r')
    (hmark : ∀ a r r', code a ++ r ≠ mark :: r') {as bs : List α} (has : ∀ a ∈ as, P a)
    (hbs : ∀ b ∈ bs, P b) {r r' : Text}
    (h : as.flatMap code ++ mark :: r = bs.flatMap code ++ mark :: r') : as = bs ∧ r = r' := by
  induction as generalizing bs with
  | nil =>
    cases bs with
    | nil => exact ⟨rfl, (List.cons.inj h).2⟩
    | cons b bs =>
      rw [List.flatMap_cons, List.append_assoc] at h
      exact absurd h.symm (hmark _ _ _)
  | cons a as ih =>
    obtain ⟨ha, hrestA⟩ := List.forall_mem_cons.mp has
    cases bs with
    | nil =>
      rw [List.flatMap_cons, List.append_assoc] at h
      exact absurd h (hmark _ _ _)
    | cons b bs =>
      obtain ⟨hb, hrestB⟩ := List.forall_mem_cons.mp hbs
      rw [List.flatMap_cons, List.flatMap_cons, List.append_assoc, List.append_assoc] at h
      obtain ⟨rfl, hrest⟩ := hcode a b _ _ ha hb h
      obtain ⟨rfl, hr⟩ := ih hrestA hrestB hrest
      exact ⟨rfl, hr⟩

/-- A token determines its units, whatever follows it. -/
theorem tokenOf_append_inj {us vs : List Nat} (hus : ∀ u ∈ us, u < 0x10000)
    (hvs : ∀ v ∈ vs, v < 0x10000) {r r' : Text} (h : tokenOf us ++ r = tokenOf vs ++ r') :
    us = vs ∧ r = r' := by
  simp only [tokenOf, List.append_assoc, List.cons_append, List.nil_append,
    List.cons.injEq, true_and] at h
  exact flatMap_append_inj (fun _ _ _ _ hu hv => unitCode_append_inj hu hv) unitCode_append_ne_quote hus hvs h

end Text

end TermText
