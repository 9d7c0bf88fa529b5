import Mathlib.Data.List.Basic
import Mathlib.Data.List.TakeWhile
import TermText.Json.Parser
import TermText.Proofs.Json.Digits
import TermText.Proofs.Text.Decimals
import TermText.Proofs.Text.Numerals
import TermText.Proofs.Text.Surrogates

/-!
# Tokens that are read back

The token of a text is read as the text with its pairs of surrogates joined, so as the text itself if it
holds none; surrogates that stand alone are no exception. The numeral of an integer is read as the integer
if it has no more digits than may be read. Both end where the token ends, whatever follows it; what follows
a number must not go on with it.
-/

namespace TermText

namespace Numeral

/-- The digits of a numeral have the values that they are written for. -/
theorem digitValues?_ofNat (n : Nat) :
    digitValues? (ofNat n) = some ((ofNat n).map fun c => c.val - 0x30) := by
  have hdigit : ∀ d : Fin 10, (digit d).decimalValue? = some ((digit d).val - 0x30) := by decide
  have hvalue : ∀ c ∈ ofNat n, c.decimalValue? = some (c.val - 0x30) := by
    intro c hc
    obtain ⟨d, hd, rfl⟩ := mem_ofNat hc
    exact hdigit ⟨d, hd⟩
  have hdecimal : ∀ c ∈ ofNat n, c.IsDecimal := by
    intro c hc
    rw [CodePoint.IsDecimal, hvalue c hc]
    rfl
  have hne : ofNat n ≠ [] := digitsOnto_ne_nil n []
  rw [digitValues?_of_isDecimal hne hdecimal, List.filterMap_eq_map_iff_forall_eq_some.mpr hvalue]

/-- A numeral has no more digits than the number needs. -/
theorem length_digitsOnto_le {n : Nat} (k : Nat) (rest : Text) (h : n < 10 ^ (k + 1)) :
    (digitsOnto n rest).length ≤ k + 1 + rest.length := by
  induction k generalizing n rest with
  | zero =>
    rw [digitsOnto, if_pos (by omega), List.length_cons]
    omega
  | succ k ih =>
    rw [digitsOnto]
    split
    · rw [List.length_cons]
      omega
    · have hsmall : n / 10 < 10 ^ (k + 1) := by
        rw [Nat.pow_succ] at h
        omega
      have hrest := ih (digit (n % 10) :: rest) hsmall
      rw [List.length_cons] at hrest
      omega

/-- The first digit of a positive number is no zero. -/
theorem exists_digitsOnto {n : Nat} (hn : 0 < n) (rest : Text) :
    ∃ d more, 0 < d ∧ d < 10 ∧ digitsOnto n rest = digit d :: more := by
  fun_induction digitsOnto n rest with
  | case1 n rest small => exact ⟨n, rest, hn, small, rfl⟩
  | case2 n rest large ih => exact ih (by omega)

/-- Digits behind a sign or none are read as the number with the sign. -/
theorem readInt_of_digits {t : Text} {negative : Bool} {n : Nat} (hmargin : t.dropWhile isMargin = t)
    (hsign : splitSign t = (negative, ofNat n)) (h : n < 10 ^ digitLimit) :
    readInt t = .ok (if negative then -(n : Int) else n) := by
  have hrun : ∀ c ∈ ofNat n, isInRun c = true := forall_mem_ofNat (by decide) n
  have hvalue : ofDigits ((ofNat n).map fun c => c.val - 0x30) = n := by
    rw [ofDigits, List.foldl_map]
    exact valueOnto_digitsOnto n []
  have hlimit : digitLimit = 4299 + 1 := rfl
  have hlength : (ofNat n).length ≤ digitLimit := by
    rw [hlimit] at h ⊢
    exact length_digitsOnto_le 4299 [] h
  rw [readInt, hmargin, hsign]
  dsimp only
  rw [List.takeWhile_eq_self_iff.mpr hrun, List.dropWhile_eq_nil_iff.mpr hrun,
    digitValues?_ofNat]
  dsimp only
  rw [List.length_map, if_neg (Nat.not_lt.mpr hlength), hvalue]
  rfl

/-- A numeral begins with a digit. -/
theorem exists_ofNat (n : Nat) : ∃ (d : Fin 10) (more : Text), ofNat n = digit d :: more := by
  obtain ⟨c, more, heq⟩ := List.exists_cons_of_ne_nil (digitsOnto_ne_nil n [])
  have hmem : c ∈ ofNat n := by
    rw [ofNat, heq]
    exact List.mem_cons_self
  obtain ⟨d, hd, rfl⟩ := mem_ofNat hmem
  exact ⟨⟨d, hd⟩, more, heq⟩

/-- The numeral of an integer of few digits is read as the integer. -/
theorem readInt_ofInt {n : Int} (h : Fits n) : readInt (ofInt n) = .ok n := by
  cases n with
  | ofNat n =>
    obtain ⟨d, more, heq⟩ := exists_ofNat n
    have hplain : ∀ d : Fin 10, isMargin (digit d) = false ∧ digit d ≠ CodePoint.ofChar '-' ∧
        digit d ≠ CodePoint.ofChar '+' := by decide
    obtain ⟨hdigit, hminus, hplus⟩ := hplain d
    have hmargin : (ofNat n).dropWhile isMargin = ofNat n := by
      rw [heq, List.dropWhile_cons_of_neg (by rw [hdigit]; decide)]
    have hsign : splitSign (ofNat n) = (false, ofNat n) := by
      rw [heq, splitSign, if_neg hminus, if_neg hplus]
    exact readInt_of_digits hmargin hsign (fits_iff.mp h)
  | negSucc n =>
    have hminus : isMargin (CodePoint.ofChar '-') = false := by decide
    have hmargin : (ofInt (.negSucc n)).dropWhile isMargin = ofInt (.negSucc n) :=
      List.dropWhile_cons_of_neg (by rw [hminus]; decide)
    have hsign : splitSign (ofInt (.negSucc n)) = (true, ofNat (n + 1)) := by
      rw [ofInt, splitSign, if_pos rfl]
    exact readInt_of_digits hmargin hsign (fits_iff.mp h)

end Numeral

/-- A text in which no high surrogate is followed by a low one. -/
def Text.Unpaired (t : Text) : Prop :=
  List.IsChain (fun c d => (c.isHighSurrogate && d.isLowSurrogate) = false) t

/-- Whether a text has a pair of surrogates is decided along the text. -/
instance (t : Text) : Decidable t.Unpaired :=
  inferInstanceAs (Decidable (List.IsChain _ t))

/-- A text without pairs has none to be joined. -/
theorem Text.Unpaired.joinPairs_eq {t : Text} (h : t.Unpaired) : t.joinPairs = t := by
  induction t with
  | nil => rfl
  | cons c rest ih =>
    cases rest with
    | nil => rfl
    | cons d more =>
      obtain ⟨hpair, hrest⟩ := List.isChain_cons_cons.mp h
      rw [joinPairs, hpair, ih hrest]
      rfl

namespace Json.Parser

/-- The code point of a part of a token. -/
def Piece.codePoint : Piece → CodePoint
  | .plain c | .unit c => c

/-- A part that is a unit, or that no unit could be joined with. -/
def Piece.Apart : Piece → Prop
  | .plain c => c.isSurrogate = false
  | .unit _ => True

/-- Joining parts is joining pairs, if only units can be joined. -/
theorem joinPieces_eq {pieces : List Piece} (h : ∀ piece ∈ pieces, piece.Apart) :
    joinPieces pieces = Text.joinPairs (pieces.map Piece.codePoint) := by
  have hlow {d : CodePoint} (hd : d.isSurrogate = false) : d.isLowSurrogate = false := by
    simp only [CodePoint.isSurrogate, CodePoint.isLowSurrogate, Bool.and_eq_false_iff,
      decide_eq_false_iff_not] at hd ⊢
    omega
  have hhigh {c : CodePoint} (hc : c.isSurrogate = false) : c.isHighSurrogate = false := by
    simp only [CodePoint.isSurrogate, CodePoint.isHighSurrogate, Bool.and_eq_false_iff,
      decide_eq_false_iff_not] at hc ⊢
    omega
  fun_induction joinPieces pieces with
  | case1 => rfl
  | case2 c => rfl
  | case3 c => rfl
  | case4 c rest hne ih =>
    obtain ⟨hfirst, hrest⟩ := List.forall_mem_cons.mp h
    rw [ih hrest, List.map_cons]
    refine (Text.joinPairs_cons fun d more _ => ?_).symm
    rw [hhigh hfirst, Bool.false_and]
  | case5 c d rest ih =>
    have hrest := (List.forall_mem_cons.mp h).2
    rw [ih hrest, List.map_cons]
    refine (Text.joinPairs_cons fun e more heq => ?_).symm
    obtain ⟨rfl, -⟩ := List.cons.inj heq
    rw [Piece.codePoint, hlow (List.forall_mem_cons.mp hrest).1, Bool.and_false]
  | case6 c d rest hpair ih =>
    have hrest := (List.forall_mem_cons.mp (List.forall_mem_cons.mp h).2).2
    rw [ih hrest]
    exact (if_pos hpair).symm
  | case7 c d rest hpair ih =>
    rw [ih (List.forall_mem_cons.mp h).2]
    exact (if_neg hpair).symm

/-- The value of a digit is the number that it was made of. -/
theorem value?_digit {n : Nat} (h : n < 16) : Hexadecimal.value? (Hexadecimal.digit n) = some n := by
  have hall : ∀ n : Fin 16, Hexadecimal.value? (Hexadecimal.digit n) = some n.val := by decide
  exact hall ⟨n, h⟩

/-- The code of a unit by its number is read as the unit. -/
theorem unit?_ofNat {unit : Nat} (h : unit < 0x10000) : ∃ a b c d, Hexadecimal.ofNat 4 unit = [a, b, c, d] ∧
    unit? a b c d = some (CodePoint.ofNat unit) := by
  refine ⟨_, _, _, _, rfl, ?_⟩
  have hvalue (n : Nat) := value?_digit (Nat.mod_lt n (by decide : 16 > 0))
  have hsum : ((unit / 16 / 16 / 16 % 16 * 16 + unit / 16 / 16 % 16) * 16 + unit / 16 % 16) * 16 +
      unit % 16 = unit := by omega
  simp only [unit?, hvalue, Option.bind_eq_bind, Option.bind_some, hsum]
  rfl

/-- Where a unit was written, a part with its code point is read. -/
theorem exists_piece (opening : Nat) {unit : Nat} (hunit : unit < 0x10000) {rest : Text}
    (hrest : rest ≠ []) : ∃ piece : Piece, piece.codePoint = CodePoint.ofNat unit ∧ piece.Apart ∧
      ∀ pieces left, stringPieces opening rest = .ok (pieces, left) →
        stringPieces opening (Text.unitCode unit ++ rest) = .ok (piece :: pieces, left) := by
  rcases Text.unitCode_cases unit with
    ⟨letter, hletter, hcode⟩ | ⟨hlow, hhigh, hquote, hslash, hcode⟩ | hcode
  · have hshort : ∀ entry ∈ Text.shortEscapes, shortEscape? entry.2 = some (CodePoint.ofNat entry.1) ∧
        entry.2 ≠ CodePoint.ofChar 'u' ∧ (CodePoint.ofNat entry.1).isSurrogate = false := by decide
    obtain ⟨hread, hne, hapart⟩ := hshort _ hletter
    refine ⟨.plain (CodePoint.ofNat unit), rfl, hapart, fun pieces left h => ?_⟩
    rw [hcode, List.cons_append, List.cons_append, List.nil_append, stringPieces.eq_def]
    dsimp only
    rw [if_neg (by decide), if_pos rfl, if_neg hne, hread, h]
    rfl
  · have hval : (CodePoint.ofNat unit).val = unit := by
      rw [CodePoint.val_ofNat, Nat.mod_eq_of_lt (by omega)]
    have hne {c : CodePoint} (hc : c.val ≠ unit) : CodePoint.ofNat unit ≠ c := fun heq =>
      hc (heq ▸ hval)
    have hapart : (CodePoint.ofNat unit).isSurrogate = false := by
      simp only [CodePoint.isSurrogate, hval, Bool.and_eq_false_iff, decide_eq_false_iff_not]
      omega
    refine ⟨.plain (CodePoint.ofNat unit), rfl, hapart, fun pieces left h => ?_⟩
    rw [hcode, List.singleton_append, stringPieces.eq_def]
    dsimp only
    rw [if_neg (hne (Ne.symm hquote)), if_neg (hne (Ne.symm hslash)), if_neg (by rw [hval]; omega), h]
    rfl
  · obtain ⟨a, b, c, d, hdigits, hread⟩ := unit?_ofNat hunit
    obtain ⟨next, tail, rfl⟩ := List.exists_cons_of_ne_nil hrest
    refine ⟨.unit (CodePoint.ofNat unit), rfl, trivial, fun pieces left h => ?_⟩
    rw [hcode, hdigits, stringPieces.eq_def]
    dsimp only [List.cons_append, List.nil_append]
    rw [if_neg (by decide), if_pos rfl, if_pos rfl, hread, h]
    rfl

/-- A token is read to its closing quote. -/
theorem exists_pieces (opening : Nat) {units : List Nat} (hunits : ∀ unit ∈ units, unit < 0x10000)
    (rest : Text) : ∃ pieces : List Piece, pieces.map Piece.codePoint = units.map CodePoint.ofNat ∧
      (∀ piece ∈ pieces, piece.Apart) ∧
      stringPieces opening (units.flatMap Text.unitCode ++ CodePoint.ofChar '"' :: rest) =
        .ok (pieces, rest) := by
  induction units with
  | nil =>
    refine ⟨[], rfl, nofun, ?_⟩
    rw [List.flatMap_nil, List.nil_append, stringPieces.eq_def]
    exact if_pos rfl
  | cons unit units ih =>
    obtain ⟨hunit, hall⟩ := List.forall_mem_cons.mp hunits
    obtain ⟨pieces, hcodes, hapart, hread⟩ := ih hall
    obtain ⟨piece, hcode, hfirst, hmore⟩ := exists_piece opening hunit
      (List.append_ne_nil_of_right_ne_nil (units.flatMap Text.unitCode) (List.cons_ne_nil _ rest))
    refine ⟨piece :: pieces, ?_, List.forall_mem_cons.mpr ⟨hfirst, hapart⟩, ?_⟩
    · rw [List.map_cons, List.map_cons, hcode, hcodes]
    · rw [List.flatMap_cons, List.append_assoc]
      exact hmore pieces rest hread

/-- The token of a text is read as the text with its pairs joined. -/
theorem string_escaped (t rest : Text) : ∃ body, t.escaped ++ rest = CodePoint.ofChar '"' :: body ∧
    string body = .ok (t.joinPairs, rest) := by
  refine ⟨t.units.flatMap Text.unitCode ++ CodePoint.ofChar '"' :: rest, ?_, ?_⟩
  · rw [Text.escaped_eq_tokenOf, Text.tokenOf]
    simp
  · obtain ⟨pieces, hcodes, hapart, hread⟩ := exists_pieces
      ((t.units.flatMap Text.unitCode ++ CodePoint.ofChar '"' :: rest).length + 1)
      (fun unit hunit => Text.lt_of_mem_units hunit) rest
    rw [string, hread]
    change Except.ok (joinPieces pieces, rest) = _
    rw [joinPieces_eq hapart, hcodes, ← Text.splitPairs, Text.joinPairs_splitPairs]

/-- What may follow a number: nothing, or a blank, a comma or a bracket that closes. -/
def Ends (rest : Text) : Prop :=
  ∀ c ∈ rest.head?, isSpace c = true ∨ c = CodePoint.ofChar ',' ∨ c = CodePoint.ofChar ']' ∨
    c = CodePoint.ofChar '\x7d'

/-- There are four blanks. -/
theorem eq_of_isSpace {c : CodePoint} (h : isSpace c = true) : c = CodePoint.ofChar ' ' ∨
    c = CodePoint.ofChar '\t' ∨ c = CodePoint.ofChar '\n' ∨ c = CodePoint.ofChar '\r' := by
  simp only [isSpace, Bool.or_eq_true, beq_iff_eq] at h
  simp only [Fin.ext_iff]
  exact or_assoc.mp (or_assoc.mp h)

/-- What ends a number goes on with no digits, no fraction and no exponent. -/
theorem Ends.head {c : CodePoint} {rest : Text} (h : Ends (c :: rest)) :
    Binary64.isDecimalDigit c = false ∧ c ≠ CodePoint.ofChar '.' ∧ c ≠ CodePoint.ofChar 'e' ∧
      c ≠ CodePoint.ofChar 'E' := by
  obtain hspace | rfl | rfl | rfl := h c rfl
  · obtain rfl | rfl | rfl | rfl := eq_of_isSpace hspace <;> decide
  all_goals decide

/-- The digits of a number are read whole. -/
theorem whole_ofNat (n : Nat) {rest : Text} (h : Ends rest) :
    whole (Numeral.ofNat n ++ rest) = (Numeral.ofNat n, rest) := by
  obtain rfl | hn := Nat.eq_zero_or_pos n
  · have hzero : Numeral.ofNat 0 = [CodePoint.ofChar '0'] := by
      rw [Numeral.ofNat, Numeral.digitsOnto]
      rfl
    rw [hzero, List.singleton_append, whole, if_pos rfl]
  · obtain ⟨d, more, hd, hlt, heq⟩ := Numeral.exists_digitsOnto hn []
    have hzero : Numeral.digit d ≠ CodePoint.ofChar '0' := by
      have hall : ∀ d : Fin 10, 0 < d.val → Numeral.digit d ≠ CodePoint.ofChar '0' := by decide
      exact hall ⟨d, hlt⟩ hd
    have hdigits : ∀ c ∈ Numeral.ofNat n, Binary64.isDecimalDigit c = true :=
      Numeral.forall_mem_ofNat (by decide) n
    have htake : rest.takeWhile Binary64.isDecimalDigit = [] ∧
        rest.dropWhile Binary64.isDecimalDigit = rest := by
      cases rest with
      | nil => exact ⟨rfl, rfl⟩
      | cons c more =>
        have hc : ¬ Binary64.isDecimalDigit c = true := by rw [h.head.1]; decide
        exact ⟨List.takeWhile_cons_of_neg hc, List.dropWhile_cons_of_neg hc⟩
    have hwhole : whole (Numeral.ofNat n ++ rest) =
        ((Numeral.ofNat n ++ rest).takeWhile Binary64.isDecimalDigit,
          (Numeral.ofNat n ++ rest).dropWhile Binary64.isDecimalDigit) := by
      rw [Numeral.ofNat, heq]
      exact if_neg hzero
    rw [hwhole, List.takeWhile_append_of_pos hdigits, List.dropWhile_append_of_pos hdigits, htake.1,
      htake.2, List.append_nil]

/-- No fraction follows. -/
theorem fraction_of_ends {rest : Text} (h : Ends rest) : fraction rest = ([], rest) := by
  match rest with
  | [] => rfl
  | [c] => rfl
  | c :: d :: more => exact if_neg fun hpoint => h.head.2.1 hpoint.1

/-- No exponent follows. -/
theorem exponent_of_ends {rest : Text} (h : Ends rest) : exponent rest = ([], rest) := by
  match rest with
  | [] => rfl
  | c :: more => exact if_neg fun hmark => hmark.1.elim h.head.2.2.1 h.head.2.2.2

/-- Digits behind a minus or none are read up to where they end. -/
theorem number_of_digits {t sign rest : Text} {n : Nat} {k : Int}
    (hminus : minus t = (sign, Numeral.ofNat n ++ rest))
    (hread : Numeral.readInt (sign ++ Numeral.ofNat n) = .ok k) (h : Ends rest) :
    number t = .ok (.int k, rest) := by
  rw [number, hminus]
  dsimp only
  rw [whole_ofNat n h]
  dsimp only
  rw [fraction_of_ends h]
  dsimp only
  rw [exponent_of_ends h]
  dsimp only
  have hne : Numeral.ofNat n ≠ [] := Numeral.digitsOnto_ne_nil n []
  rw [if_neg hne, if_pos ⟨rfl, rfl⟩, hread]

/-- The numeral of an integer of few digits is read up to where it ends. -/
theorem number_ofInt {n : Int} (hn : Numeral.Fits n) {rest : Text} (h : Ends rest) :
    number (Numeral.ofInt n ++ rest) = .ok (.int n, rest) := by
  have hread := Numeral.readInt_ofInt hn
  cases n with
  | ofNat n =>
    obtain ⟨d, more, heq⟩ := Numeral.exists_ofNat n
    have hplain : ∀ d : Fin 10, Numeral.digit d ≠ CodePoint.ofChar '-' := by decide
    have hminus : minus (Numeral.ofNat n ++ rest) = ([], Numeral.ofNat n ++ rest) := by
      rw [heq]
      exact if_neg (hplain d)
    exact number_of_digits hminus hread h
  | negSucc n =>
    have hminus : minus (Numeral.ofInt (.negSucc n) ++ rest) =
        ([CodePoint.ofChar '-'], Numeral.ofNat (n + 1) ++ rest) := by
      rw [Numeral.ofInt, List.cons_append, minus, if_pos rfl]
    exact number_of_digits hminus hread h

/-- A word that is read stands in front of what is left. -/
theorem eq_append_of_dropLeading? {word t left : Text} (h : Text.dropLeading? word t = some left) :
    t = word ++ left := by
  fun_induction Text.dropLeading? word t with
  | case1 t => exact Option.some.inj h
  | case2 => cases h
  | case3 lead c t ih => rw [ih h, List.cons_append]
  | case4 c lead d t hne => cases h

/-- No word begins like the numeral of an integer. -/
theorem wordOrNumber_ofInt {n : Int} (hn : Numeral.Fits n) {rest : Text} (h : Ends rest) :
    wordOrNumber (Numeral.ofInt n ++ rest) = .ok (.int n, rest) := by
  have hwords : ∀ entry ∈ words, 2 ≤ entry.1.length ∧ ∀ d : Fin 10,
      entry.1.take 1 ≠ [Numeral.digit d] ∧
        entry.1.take 2 ≠ [CodePoint.ofChar '-', Numeral.digit d] := by decide
  have hnone : ∀ entry ∈ words,
      (Text.dropLeading? entry.1 (Numeral.ofInt n ++ rest)).map (fun left => (entry.2, left)) = none := by
    intro entry hentry
    obtain ⟨hlength, hheads⟩ := hwords entry hentry
    rw [Option.map_eq_none_iff]
    cases hfound : Text.dropLeading? entry.1 (Numeral.ofInt n ++ rest) with
    | none => rfl
    | some left =>
      have hread := eq_append_of_dropLeading? hfound
      cases n with
      | ofNat n =>
        obtain ⟨d, more, heq⟩ := Numeral.exists_ofNat n
        have htake : (entry.1 ++ left).take 1 = entry.1.take 1 :=
          List.take_append_of_le_length (by omega)
        rw [← hread, Numeral.ofInt, heq] at htake
        exact absurd htake.symm (hheads d).1
      | negSucc n =>
        obtain ⟨d, more, heq⟩ := Numeral.exists_ofNat (n + 1)
        have htake : (entry.1 ++ left).take 2 = entry.1.take 2 := List.take_append_of_le_length hlength
        rw [← hread, Numeral.ofInt, heq] at htake
        exact absurd htake.symm (hheads d).2
  rw [wordOrNumber, List.findSome?_eq_none_iff.mpr hnone]
  exact number_ofInt hn h

end Json.Parser

end TermText
