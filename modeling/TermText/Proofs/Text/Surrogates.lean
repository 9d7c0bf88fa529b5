import TermText.Proofs.Text.Units

/-!
# Pairs of surrogates

Which texts have the same 16-bit units. A code point above U+FFFF has the units of the two surrogates
that stand for it, and this is the only ambiguity: once every pair of surrogates is joined to the code
point that it stands for, texts with the same units are the same. A surrogate that has no partner
stays as it is.
-/

namespace TermText.Text

/-- The text with each high surrogate that a low one follows joined with it to the code point that
the two stand for. -/
def joinPairs : Text → Text
  | [] => []
  | [c] => [c]
  | c :: d :: rest =>
    if c.isHighSurrogate && d.isLowSurrogate then .ofSurrogates c d :: joinPairs rest
    else c :: joinPairs (d :: rest)

/-- The text in which every unit of a text is a code point by itself. -/
def splitPairs (t : Text) : Text :=
  t.units.map CodePoint.ofNat

/-- A code point below U+10000 is one unit. -/
theorem units16_of_lt {c : CodePoint} (h : c.val < 0x10000) : units16 c = [c.val] :=
  if_pos h

/-- One from U+10000 on is a pair of surrogates. -/
theorem units16_of_le {c : CodePoint} (h : 0x10000 ≤ c.val) :
    units16 c = [0xD800 + (c.val - 0x10000) / 0x400, 0xDC00 + (c.val - 0x10000) % 0x400] :=
  if_neg (by omega)

/-- A surrogate is a unit. -/
theorem units16_of_isHighSurrogate {c : CodePoint} (h : c.isHighSurrogate = true) :
    units16 c = [c.val] := by
  simp only [CodePoint.isHighSurrogate, Bool.and_eq_true, decide_eq_true_eq] at h
  exact units16_of_lt (by omega)

/-- A low surrogate is its own unit. -/
theorem units16_of_isLowSurrogate {c : CodePoint} (h : c.isLowSurrogate = true) :
    units16 c = [c.val] := by
  simp only [CodePoint.isLowSurrogate, Bool.and_eq_true, decide_eq_true_eq] at h
  exact units16_of_lt (by omega)

/-- The number of a code point stands for the code point. -/
theorem ofNat_val (c : CodePoint) : CodePoint.ofNat c.val = c := by
  apply Fin.ext
  rw [CodePoint.val_ofNat, Nat.mod_eq_of_lt c.isLt]

/-- The surrogates that stand for a code point, and the code point that they are joined to. -/
theorem surrogates_of_le {c : CodePoint} (h : 0x10000 ≤ c.val) :
    let high := CodePoint.ofNat (0xD800 + (c.val - 0x10000) / 0x400)
    let low := CodePoint.ofNat (0xDC00 + (c.val - 0x10000) % 0x400)
    high.isHighSurrogate = true ∧ low.isLowSurrogate = true ∧ CodePoint.ofSurrogates high low = c := by
  intro high low
  have hlt := c.isLt
  have hhigh : high.val = 0xD800 + (c.val - 0x10000) / 0x400 := by
    rw [CodePoint.val_ofNat, Nat.mod_eq_of_lt (by omega)]
  have hlow : low.val = 0xDC00 + (c.val - 0x10000) % 0x400 := by
    rw [CodePoint.val_ofNat, Nat.mod_eq_of_lt (by omega)]
  refine ⟨?_, ?_, ?_⟩
  · simp only [CodePoint.isHighSurrogate, hhigh, Bool.and_eq_true, decide_eq_true_eq]
    omega
  · simp only [CodePoint.isLowSurrogate, hlow, Bool.and_eq_true, decide_eq_true_eq]
    omega
  · apply Fin.ext
    rw [CodePoint.ofSurrogates, CodePoint.val_ofNat, hhigh, hlow]
    omega

/-- The units of the code point that two surrogates are joined to are the surrogates. -/
theorem units16_ofSurrogates {c d : CodePoint} (hc : c.isHighSurrogate = true)
    (hd : d.isLowSurrogate = true) : units16 (.ofSurrogates c d) = [c.val, d.val] := by
  simp only [CodePoint.isHighSurrogate, CodePoint.isLowSurrogate, Bool.and_eq_true,
    decide_eq_true_eq] at hc hd
  have hval : (CodePoint.ofSurrogates c d).val =
      0x10000 + (c.val - 0xD800) * 0x400 + (d.val - 0xDC00) := by
    rw [CodePoint.ofSurrogates, CodePoint.val_ofNat, Nat.mod_eq_of_lt (by omega)]
  have hfirst : 0xD800 + ((CodePoint.ofSurrogates c d).val - 0x10000) / 0x400 = c.val := by omega
  have hsecond : 0xDC00 + ((CodePoint.ofSurrogates c d).val - 0x10000) % 0x400 = d.val := by omega
  rw [units16_of_le (by omega), hfirst, hsecond]

/-- A text is split into surrogates one code point after another. -/
@[simp] theorem splitPairs_cons (c : CodePoint) (t : Text) :
    splitPairs (c :: t) = (units16 c).map CodePoint.ofNat ++ splitPairs t := by
  simp [splitPairs, units]

/-- A code point that makes no pair with what follows it stays as it is. -/
theorem joinPairs_cons {c : CodePoint} {t : Text}
    (h : ∀ d rest, t = d :: rest → (c.isHighSurrogate && d.isLowSurrogate) = false) :
    joinPairs (c :: t) = c :: joinPairs t := by
  cases t with
  | nil => rfl
  | cons d rest =>
    rw [joinPairs, h d rest rfl]
    rfl

/-- A text in which every unit stands by itself begins with a low surrogate only if the text does. -/
theorem isLowSurrogate_of_splitPairs {c d : CodePoint} {t rest : Text}
    (h : splitPairs (c :: t) = d :: rest) (hd : d.isLowSurrogate = true) :
    c.isLowSurrogate = true := by
  rw [splitPairs_cons] at h
  by_cases hsmall : c.val < 0x10000
  · rw [units16_of_lt hsmall, List.map_singleton, ofNat_val] at h
    rw [(List.cons.inj h).1]
    exact hd
  · have hle : 0x10000 ≤ c.val := by omega
    rw [units16_of_le hle] at h
    have hhigh := (surrogates_of_le hle).1
    rw [(List.cons.inj h).1] at hhigh
    simp only [CodePoint.isHighSurrogate, CodePoint.isLowSurrogate, Bool.and_eq_true,
      decide_eq_true_eq] at hhigh hd
    omega

/-- A code point that was split to its units is joined again, if it makes no pair with what follows. -/
theorem joinPairs_splitPairs_cons {c : CodePoint} {t : Text}
    (h : ∀ d rest, t = d :: rest → (c.isHighSurrogate && d.isLowSurrogate) = false) :
    joinPairs (splitPairs (c :: t)) = c :: joinPairs (splitPairs t) := by
  rw [splitPairs_cons]
  by_cases hsmall : c.val < 0x10000
  · rw [units16_of_lt hsmall, List.map_singleton, ofNat_val]
    refine joinPairs_cons fun d rest hsplit => ?_
    cases t with
    | nil => cases hsplit
    | cons e tail =>
      cases hhigh : c.isHighSurrogate with
      | false => rfl
      | true =>
        have hpair := h e tail rfl
        cases hlow : d.isLowSurrogate with
        | false => rfl
        | true => simp [hhigh, isLowSurrogate_of_splitPairs hsplit hlow] at hpair
  · have hle : 0x10000 ≤ c.val := by omega
    obtain ⟨hhigh, hlow, hjoin⟩ := surrogates_of_le hle
    rw [units16_of_le hle]
    change joinPairs (_ :: _ :: splitPairs t) = _
    rw [joinPairs, hhigh, hlow, hjoin]
    rfl

/-- Joining pairs undoes splitting them. -/
theorem joinPairs_splitPairs (t : Text) : joinPairs (splitPairs t) = joinPairs t := by
  fun_induction joinPairs t with
  | case1 => rfl
  | case2 c => exact joinPairs_splitPairs_cons nofun
  | case3 c d rest hpair ih =>
    obtain ⟨hhigh, hlow⟩ := Bool.and_eq_true_iff.mp hpair
    have hc := units16_of_isHighSurrogate hhigh
    have hd := units16_of_isLowSurrogate hlow
    rw [splitPairs_cons, splitPairs_cons, hc, hd, List.map_singleton, List.map_singleton, ofNat_val,
      ofNat_val]
    change joinPairs (c :: d :: splitPairs rest) = _
    rw [joinPairs, if_pos hpair, ih]
  | case4 c d rest hpair ih =>
    rw [joinPairs_splitPairs_cons, ih]
    intro e tail h
    obtain ⟨rfl, _⟩ := List.cons.inj h
    exact Bool.not_eq_true _ ▸ hpair

/-- Joining pairs changes no unit. -/
theorem units_joinPairs (t : Text) : (joinPairs t).units = t.units := by
  fun_induction joinPairs t with
  | case1 => rfl
  | case2 c => rfl
  | case3 c d rest hpair ih =>
    obtain ⟨hhigh, hlow⟩ := Bool.and_eq_true_iff.mp hpair
    have hc := units16_of_isHighSurrogate hhigh
    have hd := units16_of_isLowSurrogate hlow
    rw [units, List.flatMap_cons, units16_ofSurrogates hhigh hlow, ← units, ih, units, units,
      List.flatMap_cons, List.flatMap_cons, hc, hd]
    rfl
  | case4 c d rest hpair ih => rw [units, List.flatMap_cons, ← units, ih]; rfl

/-- Two texts have the same units exactly if they are the same once their pairs of surrogates are
joined. -/
theorem units_eq_iff {t t' : Text} : t.units = t'.units ↔ t.joinPairs = t'.joinPairs := by
  constructor
  · intro h
    rw [← joinPairs_splitPairs t, ← joinPairs_splitPairs t', splitPairs, h, splitPairs]
  · intro h
    rw [← units_joinPairs t, ← units_joinPairs t', h]

end TermText.Text
