/-!
# Texts as code point sequences

A text is a list of code points. Unlike a `String` it may hold surrogates that stand alone, which
arise from escapes in documents and must survive until they are written. Everything the library
reads, compares and writes is such a text.
-/

namespace TermText

/-- A Unicode code point, surrogates included. -/
abbrev CodePoint := Fin 0x110000

namespace CodePoint

/-- The code point of a scalar value. -/
def ofChar (c : Char) : CodePoint :=
  ⟨c.toNat, by
    have h := c.valid
    unfold Char.toNat
    rcases h with h | h
    · exact Nat.lt_trans h (by decide)
    · exact h.2⟩

/-- The code point of a number; from U+10FFFF on the numbers start anew. -/
def ofNat (n : Nat) : CodePoint :=
  ⟨n % 0x110000, Nat.mod_lt n (by decide)⟩

/-- The number of a code point is what is left of the number that it was made from. -/
@[simp] theorem val_ofNat (n : Nat) : (ofNat n).val = n % 0x110000 := rfl

/-- The scalar value of a code point; a surrogate has none and becomes U+FFFD. -/
def toChar (c : CodePoint) : Char :=
  if 0xD800 ≤ c.val ∧ c.val ≤ 0xDFFF then Char.ofNat 0xFFFD else Char.ofNat c.val

/-- The first half of a pair of 16-bit units. -/
def isHighSurrogate (c : CodePoint) : Bool :=
  0xD800 ≤ c.val && c.val ≤ 0xDBFF

/-- The second half of a pair of 16-bit units. -/
def isLowSurrogate (c : CodePoint) : Bool :=
  0xDC00 ≤ c.val && c.val ≤ 0xDFFF

/-- A code point that no well-formed encoded text holds by itself. -/
def isSurrogate (c : CodePoint) : Bool :=
  0xD800 ≤ c.val && c.val ≤ 0xDFFF

/-- The code point that a high and a low surrogate encode together. -/
def ofSurrogates (high low : CodePoint) : CodePoint :=
  ofNat (0x10000 + (high.val - 0xD800) * 0x400 + (low.val - 0xDC00))

end CodePoint

/-- A sequence of code points. -/
abbrev Text := List CodePoint

namespace Text

/-- The code points of a string. -/
def ofString (s : String) : Text :=
  s.toList.map CodePoint.ofChar

/-- A literal of the language stands for the text of its characters. -/
instance : Coe String Text := ⟨ofString⟩

/-- The string of a text that holds no surrogate. -/
def toString (t : Text) : String :=
  String.ofList (t.map CodePoint.toChar)

/-- Line feed. -/
def newline : CodePoint := 0x0A

/-- The parts of a text between the occurrences of a separator; a text without one is one part. -/
def splitOn (separator : CodePoint) : Text → List Text
  | [] => [[]]
  | c :: rest =>
    if c = separator then [] :: splitOn separator rest
    else
      match splitOn separator rest with
      | [] => [[c]]
      | part :: parts => (c :: part) :: parts

/-- The parts in order with a separator between each two. -/
def join (separator : Text) : List Text → Text
  | [] => []
  | [t] => t
  | t :: rest => t ++ separator ++ join separator rest

/-- What follows a leading part of a text, if the text starts with that part. -/
def dropLeading? : (lead : Text) → Text → Option Text
  | [], t => some t
  | _ :: _, [] => none
  | c :: lead, d :: t => if c = d then dropLeading? lead t else none

/-- The order by the first code point that differs, a leading part being the smaller. -/
def precedes : Text → Text → Bool
  | [], [] => false
  | [], _ :: _ => true
  | _ :: _, [] => false
  | c :: s, d :: t => c.val < d.val || (c = d && precedes s t)

/-- The place of a position in a document: line and column both count from one. -/
structure Place where
  line : Nat
  column : Nat
  offset : Nat
  deriving DecidableEq, Repr

/-- The place that comes after the given code points. -/
def placeAfter (before : Text) : Place where
  line := before.countP (· = newline) + 1
  column := (before.reverse.takeWhile (· ≠ newline)).length + 1
  offset := before.length

end Text

end TermText
