import TermText.Fingerprint
import TermText.Proofs.Binary64.Exact
import TermText.Proofs.Value.Readability
import TermText.Value.Draft

/-!
# Equal values and their texts

Values are compared by what their literals denote, whatever the kinds of the numbers that they hold, while
they are rendered from what the literals are settled into: an integer literal from an integer, a double
literal from a double. Equal values are settled into values that are the same up to the signs of zeros among
the doubles, which equality does not see and the text shows. So they have one text exactly if these signs
agree, and no other difference in what they hold ever shows.
-/

namespace TermText

namespace Number

/-- The integer part of a number. -/
def whole : Number → Except Json.IntegerError Int
  | .int n => .ok n
  | .double x => x.truncate.mapError .truncation

/-- Numbers of one value have one integer part. -/
theorem whole_of_sameValue {m k : Number} (h : m.sameValue k = true) {n : Int} (hn : m.whole = .ok n) :
    k.whole = .ok n := by
  cases m with
  | int i =>
    obtain rfl : i = n := Except.ok.inj hn
    cases k with
    | int j => rw [whole, eq_of_beq h]
    | double y =>
      cases y with
      | finite y => rw [whole, Binary64.truncate, Finite64.truncate_of_isInt h]; rfl
      | _ => cases h
  | double x =>
    cases x with
    | finite x =>
      obtain rfl : x.truncate = n := Except.ok.inj hn
      cases k with
      | int j => rw [whole, Finite64.truncate_of_isInt h]
      | double y =>
        cases y with
        | finite y =>
          have hunits : x.units = y.units := eq_of_beq h
          rw [whole, Binary64.truncate, y.truncate_eq, ← hunits, ← x.truncate_eq]
          rfl
        | _ => cases h
    | _ => cases hn

end Number

namespace Json

/-- A value that is a number gives the whole part of it. -/
theorem integer_of_number? {v : Json} {m : Number} (h : v.number? = some m) : v.integer = m.whole := by
  cases v <;> cases h <;> rfl

/-- A number equals what is a number of the same value, only the NaN of documents is like no number. -/
theorem same_of_number? {v : Json} {m : Number} (hm : v.number? = some m) (hnan : v ≠ .float .nan)
    (w : Json) : v.same w = (w.number?.any m.sameValue) := by
  cases v with
  | bool b =>
    obtain rfl := Option.some.inj hm
    cases w <;> rfl
  | int n =>
    obtain rfl := Option.some.inj hm
    cases w <;> rfl
  | float x =>
    obtain rfl := Option.some.inj hm
    cases x with
    | nan => exact absurd rfl hnan
    | _ => cases w <;> rfl
  | _ => cases hm

/-- Equal values give the same integer. -/
theorem integer_of_same {v w : Json} (h : v.same w = true) {n : Int} (hn : v.integer = .ok n) :
    w.integer = .ok n := by
  cases hnumber : v.number? with
  | some m =>
    rw [integer_of_number? hnumber] at hn
    have hnan : v ≠ .float .nan := by
      rintro rfl
      obtain rfl := Option.some.inj hnumber
      cases hn
    rw [same_of_number? hnumber hnan, Option.any_eq_true] at h
    obtain ⟨k, hk, hvalue⟩ := h
    rw [integer_of_number? hk]
    exact Number.whole_of_sameValue hvalue hn
  | none =>
    -- The only value besides numbers that gives an integer is a text.
    cases v with
    | text t =>
      cases w with
      | text t' => rw [← eq_of_beq (show (t == t') = true from h)]; exact hn
      | _ => cases h
    | bool b => cases hnumber
    | int n => cases hnumber
    | float x => cases hnumber
    | _ => cases hn

end Json

namespace Value

mutual

/-- Two values without documents that are equal up to the signs of zeros among the doubles. -/
def EqualUpToZeros : Value → Value → Prop
  | .atom a, .atom b => a = b
  | .text t, .text t' => t = t'
  | .int m, .int n => m = n
  | .float x, .float y => x.units = y.units
  | .list vs, .list ws => AllEqualUpToZeros vs ws
  | _, _ => False

/-- As many values on both sides, equal up to the signs of zeros one by one. -/
def AllEqualUpToZeros : List Value → List Value → Prop
  | [], [] => True
  | v :: vs, w :: ws => EqualUpToZeros v w ∧ AllEqualUpToZeros vs ws
  | _, _ => False

end

mutual

/-- The signs of the zeros among the doubles of a value, from left to right. -/
def zeroSigns : Value → List Bool
  | .float x => if x.mantissa = 0 then [x.negative] else []
  | .list items => zeroSignsOfAll items
  | _ => []

/-- The signs of the zeros among the doubles of several values. -/
def zeroSignsOfAll : List Value → List Bool
  | [] => []
  | item :: rest => zeroSigns item ++ zeroSignsOfAll rest

end

mutual

/-- Such values hold no documents. -/
theorem EqualUpToZeros.plain {v w : Value} (h : v.EqualUpToZeros w) : v.Plain ∧ w.Plain := by
  cases v <;> cases w <;> first | exact h.elim | exact ⟨trivial, trivial⟩ | skip
  exact AllEqualUpToZeros.allPlain h

/-- Values that are equal up to the signs of zeros are plain. -/
theorem AllEqualUpToZeros.allPlain {vs ws : List Value} (h : AllEqualUpToZeros vs ws) :
    AllPlain vs ∧ AllPlain ws := by
  cases vs with
  | nil =>
    cases ws with
    | nil => exact ⟨trivial, trivial⟩
    | cons w ws => exact h.elim
  | cons v vs =>
    cases ws with
    | nil => exact h.elim
    | cons w ws =>
      have hfirst := EqualUpToZeros.plain h.1
      have hrest := AllEqualUpToZeros.allPlain h.2
      exact ⟨⟨hfirst.1, hrest.1⟩, hfirst.2, hrest.2⟩

end

/-- Doubles of one value are the same if they have the same signs when they are zero. -/
theorem eq_of_zeroSigns_float {x y : Finite64} (h : x.units = y.units) {r r' : List Bool}
    (hsigns : (Value.float x).zeroSigns ++ r = (Value.float y).zeroSigns ++ r') : x = y ∧ r = r' := by
  have hmantissa := (Finite64.parts_eq_of_units_eq h).1
  simp only [zeroSigns] at hsigns
  by_cases hzero : x.mantissa = 0
  · rw [if_pos hzero, if_pos (hmantissa ▸ hzero)] at hsigns
    obtain ⟨hsign, hrest⟩ := List.cons.inj hsigns
    exact ⟨Finite64.eq_of_units_eq h hsign, hrest⟩
  · rw [if_neg hzero, if_neg (hmantissa ▸ hzero)] at hsigns
    exact ⟨Finite64.eq_of_units_eq h (Finite64.negative_eq_of_units_eq h hzero), hsigns⟩

mutual

/-- Such values are the same if the signs of their zeros agree, whatever signs follow. -/
theorem EqualUpToZeros.eq_of_signs {v w : Value} (h : v.EqualUpToZeros w) {r r' : List Bool}
    (hsigns : v.zeroSigns ++ r = w.zeroSigns ++ r') : v = w ∧ r = r' := by
  cases v <;> cases w <;> first | exact h.elim | skip
  · exact ⟨congrArg Value.atom h, hsigns⟩
  · exact ⟨congrArg Value.text h, hsigns⟩
  · exact ⟨congrArg Value.int h, hsigns⟩
  · obtain ⟨rfl, hrest⟩ := eq_of_zeroSigns_float h hsigns
    exact ⟨rfl, hrest⟩
  · obtain ⟨rfl, hrest⟩ := AllEqualUpToZeros.eq_of_signs h hsigns
    exact ⟨rfl, hrest⟩

/-- They are equal if the signs of their zeros are the same as well. -/
theorem AllEqualUpToZeros.eq_of_signs {vs ws : List Value} (h : AllEqualUpToZeros vs ws)
    {r r' : List Bool} (hsigns : zeroSignsOfAll vs ++ r = zeroSignsOfAll ws ++ r') :
    vs = ws ∧ r = r' := by
  cases vs with
  | nil =>
    cases ws with
    | nil => exact ⟨rfl, hsigns⟩
    | cons w ws => exact h.elim
  | cons v vs =>
    cases ws with
    | nil => exact h.elim
    | cons w ws =>
      simp only [zeroSignsOfAll, List.append_assoc] at hsigns
      obtain ⟨rfl, hfurther⟩ := EqualUpToZeros.eq_of_signs h.1 hsigns
      obtain ⟨rfl, hrest⟩ := AllEqualUpToZeros.eq_of_signs h.2 hfurther
      exact ⟨rfl, hrest⟩

end

mutual

/-- They are the same as well if they are rendered alike, for zeros of different signs are not. -/
theorem EqualUpToZeros.eq_of_spelling {v w : Value} (h : v.EqualUpToZeros w)
    (hspelling : v.EqualUpToSpelling w) : v = w := by
  cases v <;> cases w <;> first | exact h.elim | skip
  · exact congrArg Value.atom h
  · exact congrArg Value.text h
  · exact congrArg Value.int h
  · exact congrArg Value.float (Finite64.eq_of_units_eq_of_toText_eq h hspelling)
  · exact congrArg Value.list (AllEqualUpToZeros.eq_of_spelling h hspelling)

/-- They are equal if they are spelled alike as well. -/
theorem AllEqualUpToZeros.eq_of_spelling {vs ws : List Value} (h : AllEqualUpToZeros vs ws)
    (hspelling : AllEqualUpToSpelling vs ws) : vs = ws := by
  cases vs with
  | nil =>
    cases ws with
    | nil => rfl
    | cons w ws => exact h.elim
  | cons v vs =>
    cases ws with
    | nil => exact h.elim
    | cons w ws =>
      rw [EqualUpToZeros.eq_of_spelling h.1 hspelling.1, AllEqualUpToZeros.eq_of_spelling h.2 hspelling.2]

end

/-- Values that are equal up to the signs of zeros are rendered alike exactly if these signs agree. -/
theorem EqualUpToZeros.render_eq_iff {v w : Value} (h : v.EqualUpToZeros w) :
    v.render = w.render ↔ v.zeroSigns = w.zeroSigns := by
  constructor
  · intro hrender
    have hspelling := (render_eq_iff_alike v w h.plain.1 h.plain.2).2.mp hrender
    rw [h.eq_of_spelling hspelling]
  · intro hsigns
    rw [(h.eq_of_signs (congrArg (· ++ []) hsigns)).1]

end Value

namespace Draft

/-- The double nearest to a number, for any rounding of integers: as a variable the rounding is not unfolded
on integers that are not known. -/
def toFiniteBy (round : Int → Option Finite64) : Number → Except Error Finite64
  | .int n =>
    match round n with
    | some x => .ok x
    | none => .error .tooLarge
  | .double (.finite x) => .ok x
  | .double x => .error (.notFinite x)

/-- The double nearest to a number is found with the rounding of integers. -/
theorem toFinite_eq_toFiniteBy (m : Number) : toFinite m = toFiniteBy Finite64.ofInt? m := by
  delta toFinite toFiniteBy
  rfl

/-- An integer that is rounded to a double gives that one. -/
theorem toFiniteBy_int {round : Int → Option Finite64} {n : Int} {x : Finite64} (h : round n = some x) :
    toFiniteBy round (.int n) = .ok x := by
  rw [toFiniteBy, h]

/-- An integer that is rounded to a double is settled into it. -/
theorem toFinite_int {n : Int} {x : Finite64} (h : Finite64.ofInt? n = some x) :
    toFinite (.int n) = .ok x :=
  (toFinite_eq_toFiniteBy (.int n)).trans (toFiniteBy_int h)

/-- An integer that equals a double is rounded to a double of its value, be it a zero of another sign. -/
theorem exists_toFinite_of_isInt {x : Finite64} {n : Int} (h : x.isInt n = true) :
    ∃ y, toFinite (.int n) = .ok y ∧ y.units = x.units := by
  obtain ⟨y, hy, hunits⟩ := Finite64.exists_ofInt?_of_isInt h
  exact ⟨y, toFinite_int hy, hunits⟩

/-- Numbers of one value are rounded to doubles of one value. -/
theorem exists_toFinite_of_sameValue {m k : Number} (h : m.sameValue k = true) {x : Finite64}
    (hx : toFinite m = .ok x) : ∃ y, toFinite k = .ok y ∧ x.units = y.units := by
  cases m with
  | int i =>
    cases k with
    | int j =>
      obtain rfl := eq_of_beq (show (i == j) = true from h)
      exact ⟨x, hx, rfl⟩
    | double d =>
      cases d with
      | finite y =>
        obtain ⟨z, hz, hunits⟩ := exists_toFinite_of_isInt (show y.isInt i = true from h)
        obtain rfl := Except.ok.inj (hz.symm.trans hx)
        exact ⟨y, rfl, hunits⟩
      | _ => cases h
  | double d =>
    cases d with
    | finite z =>
      obtain rfl : z = x := Except.ok.inj hx
      cases k with
      | int j =>
        obtain ⟨y, hy, hunits⟩ := exists_toFinite_of_isInt (show z.isInt j = true from h)
        exact ⟨y, hy, hunits.symm⟩
      | double e =>
        cases e with
        | finite y => exact ⟨y, rfl, eq_of_beq h⟩
        | _ => cases h
    | _ => cases hx

mutual

/-- A draft as its makers intend it: texts hold texts, integer literals what gives an integer, and double
literals what is finite. -/
def Typed : Draft → Prop
  | .atom _ => True
  | .text given => ∃ t, given = .text t
  | .int given => ∃ n, given.integer = .ok n
  | .float n => ∃ x, toFinite n = .ok x
  | .list items => AllTyped items
  | .ownNaN | .foreign _ => False

/-- Drafts as their makers intend them. -/
def AllTyped : List Draft → Prop
  | [] => True
  | item :: rest => Typed item ∧ AllTyped rest

end

mutual

/-- Equal drafts are settled into values that are equal up to the signs of zeros. -/
theorem exists_settle_of_equal {u w : Draft} (hu : u.Typed) (h : u.equal w = true) :
    ∃ v v', u.settle = .ok v ∧ w.settle = .ok v' ∧ v.EqualUpToZeros v' := by
  cases u with
  | atom a =>
    cases w with
    | atom b =>
      obtain rfl := eq_of_beq (show (a == b) = true from h)
      exact ⟨.atom a, .atom a, rfl, rfl, rfl⟩
    | _ => cases h
  | text given =>
    obtain ⟨t, rfl⟩ := hu
    cases w with
    | text given' =>
      cases given' with
      | text t' =>
        obtain rfl := eq_of_beq (show (t == t') = true from h)
        exact ⟨.text t, .text t, rfl, rfl, rfl⟩
      | _ => cases h
    | _ => cases h
  | int given =>
    cases w with
    | int given' =>
      obtain ⟨n, hn⟩ := hu
      have hn' := Json.integer_of_same h hn
      refine ⟨.int n, .int n, ?_, ?_, rfl⟩
      · rw [settle, hn]; rfl
      · rw [settle, hn']; rfl
    | _ => cases h
  | float m =>
    cases w with
    | float k =>
      obtain ⟨x, hx⟩ := hu
      obtain ⟨y, hy, hunits⟩ := exists_toFinite_of_sameValue h hx
      refine ⟨.float x, .float y, ?_, ?_, hunits⟩
      · rw [settle, hx]; rfl
      · rw [settle, hy]; rfl
    | _ => cases h
  | list items =>
    cases w with
    | list items' =>
      obtain ⟨vs, vs', hvs, hvs', hall⟩ := exists_settleItems_of_equal hu h
      refine ⟨.list vs, .list vs', ?_, ?_, hall⟩
      · rw [settle, hvs]; rfl
      · rw [settle, hvs']; rfl
    | _ => cases h
  | ownNaN => exact hu.elim
  | foreign f => exact hu.elim

/-- Typed drafts that are equal settle into values that are equal up to the signs of zeros. -/
theorem exists_settleItems_of_equal {us ws : List Draft} (hus : AllTyped us)
    (h : equalItems us ws = true) :
    ∃ vs vs', settleItems us = .ok vs ∧ settleItems ws = .ok vs' ∧ Value.AllEqualUpToZeros vs vs' := by
  cases us with
  | nil =>
    cases ws with
    | nil => exact ⟨[], [], rfl, rfl, trivial⟩
    | cons w ws => cases h
  | cons u us =>
    cases ws with
    | nil => cases h
    | cons w ws =>
      obtain ⟨hfirst, hrest⟩ := Bool.and_eq_true_iff.mp h
      obtain ⟨v, v', hv, hv', hsame⟩ := exists_settle_of_equal hus.1 hfirst
      obtain ⟨vs, vs', hvs, hvs', hall⟩ := exists_settleItems_of_equal hus.2 hrest
      refine ⟨v :: vs, v' :: vs', ?_, ?_, hsame, hall⟩
      · rw [settleItems, hv, hvs]; rfl
      · rw [settleItems, hv', hvs']; rfl

end

/-- Equal drafts have one text exactly if the zeros among their doubles have the same signs, from left to
right: whatever else they hold, kinds of numbers at any depth, does not show. They have one fingerprint
then, too. -/
theorem equal_render_iff_zeroSigns {u w : Draft} (hu : u.Typed) (h : u.equal w = true) :
    ∃ v v', u.settle = .ok v ∧ w.settle = .ok v' ∧
      (v.render = v'.render ↔ v.zeroSigns = v'.zeroSigns) ∧
      (v.zeroSigns = v'.zeroSigns → Fingerprint.ofValue v = Fingerprint.ofValue v') := by
  obtain ⟨v, v', hv, hv', hsame⟩ := exists_settle_of_equal hu h
  refine ⟨v, v', hv, hv', hsame.render_eq_iff, fun hsigns => ?_⟩
  rw [Fingerprint.ofValue, Fingerprint.ofValue, hsame.render_eq_iff.mpr hsigns]

/-- A list of a truth value, a whole double and a double literal that holds an integer equals the list of
the integers and of the double. -/
theorem equal_render_of_kinds :
    let one : Finite64 := ⟨false, Nat.pow 2 52, 1022, by decide⟩
    let u : Draft := .list [.int (.bool true), .int (.float (.finite one)), .float (.int 0)]
    let w : Draft := .list [.int (.int 1), .int (.int 1), .float (.double (.finite (.zero false)))]
    u.Typed ∧ u.equal w = true ∧ ∃ v v', u.settle = .ok v ∧ w.settle = .ok v' ∧ v.render = v'.render ∧
      Fingerprint.ofValue v = Fingerprint.ofValue v' := by
  intro one u w
  have hwhole : one.truncate = 1 := by decide +kernel
  have hone : (Json.float (.finite one)).integer = .ok 1 := by
    rw [Json.integer, Binary64.truncate, hwhole]
    rfl
  have hzero : toFinite (.int 0) = .ok (.zero false) := toFinite_int (by decide +kernel)
  have hu : u.Typed := ⟨⟨1, rfl⟩, ⟨1, hone⟩, ⟨.zero false, hzero⟩, trivial⟩
  have hequal : u.equal w = true := by decide +kernel
  have hsettle : u.settle = .ok (.list [.int 1, .int 1, .float (.zero false)]) := by
    simp only [u, settle, settleItems, hone, hzero]
    rfl
  obtain ⟨v, v', hv, hv', hrender, hfingerprint⟩ := equal_render_iff_zeroSigns hu hequal
  obtain rfl := Except.ok.inj (hsettle.symm.trans hv)
  obtain rfl : .list [.int 1, .int 1, .float (.zero false)] = v' := Except.ok.inj hv'
  exact ⟨hu, hequal, _, _, hv, hv', hrender.mpr rfl, hfingerprint rfl⟩

/-- The two zeros are equal but rendered differently. -/
theorem zeros_rendered_differently :
    let u : Draft := .float (.double (.finite (.zero false)))
    let w : Draft := .float (.double (.finite (.zero true)))
    u.Typed ∧ w.Typed ∧ u.equal w = true ∧
      ∃ v v', u.settle = .ok v ∧ w.settle = .ok v' ∧ v.render ≠ v'.render := by
  intro u w
  refine ⟨⟨.zero false, rfl⟩, ⟨.zero true, rfl⟩, rfl, _, _, rfl, rfl, ?_⟩
  decide

end Draft

end TermText
