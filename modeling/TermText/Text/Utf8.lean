import TermText.Text.Hexadecimal
import TermText.Text.Numeral

/-!
# UTF-8

Encoding and strict decoding of texts. Surrogates have no encoding. Decoding accepts the shortest
form of each code point only; the first octet of a sequence fixes how many octets follow and in
which window the second one lies, and a failure names the octets read of the sequence that breaks
off.
-/

namespace TermText.Utf8

/-- A run of surrogates, which kept a text from being encoded. -/
structure EncodeError where
  first : CodePoint
  position : Nat
  count : Nat
  deriving DecidableEq, Repr

/-- The wording of a failure to encode. -/
def EncodeError.message (e : EncodeError) : Text :=
  (if e.count = 1 then
    "'utf-8' codec can't encode character '\\u" ++ Hexadecimal.ofNat 4 e.first.val ++
      "' in position " ++ Numeral.ofNat e.position
  else
    "'utf-8' codec can't encode characters in position " ++ Numeral.ofNat e.position ++ "-" ++
      Numeral.ofNat (e.position + e.count - 1)) ++
    ": surrogates not allowed"

/-- The octets of one code point. -/
def encodeCodePoint (c : CodePoint) : List UInt8 :=
  let n := c.val
  let tail (shift : Nat) : UInt8 := UInt8.ofNat (0x80 + n / Nat.pow 2 shift % 0x40)
  if n < 0x80 then [UInt8.ofNat n]
  else if n < 0x800 then [UInt8.ofNat (0xC0 + n / Nat.pow 2 6), tail 0]
  else if n < 0x10000 then [UInt8.ofNat (0xE0 + n / Nat.pow 2 12), tail 6, tail 0]
  else [UInt8.ofNat (0xF0 + n / Nat.pow 2 18), tail 12, tail 6, tail 0]

/-- The first run of surrogates in a text, counting positions from `position`. -/
def surrogateRun? (position : Nat) : Text → Option EncodeError
  | [] => none
  | c :: rest =>
    if c.isSurrogate then
      some ⟨c, position, (rest.takeWhile CodePoint.isSurrogate).length + 1⟩
    else surrogateRun? (position + 1) rest

/-- The octets of a text. -/
def encode (t : Text) : Except EncodeError (List UInt8) :=
  match surrogateRun? 0 t with
  | some e => .error e
  | none => .ok (t.flatMap encodeCodePoint)

/-- What is wrong with a sequence of octets. -/
inductive Defect where
  | invalidStart
  | invalidContinuation
  | unexpectedEnd
  deriving DecidableEq, Repr

/-- The octets of a sequence that cannot be decoded. -/
structure DecodeError where
  first : UInt8
  position : Nat
  count : Nat
  defect : Defect
  deriving DecidableEq, Repr

/-- The wording of a failure to decode. -/
def DecodeError.message (e : DecodeError) : Text :=
  (if e.count = 1 then
    "'utf-8' codec can't decode byte 0x" ++ Hexadecimal.ofNat 2 e.first.toNat ++ " in position " ++
      Numeral.ofNat e.position
  else
    "'utf-8' codec can't decode bytes in position " ++ Numeral.ofNat e.position ++ "-" ++
      Numeral.ofNat (e.position + e.count - 1)) ++
    match e.defect with
    | .invalidStart => ": invalid start byte"
    | .invalidContinuation => ": invalid continuation byte"
    | .unexpectedEnd => ": unexpected end of data"

/-- A sequence of octets that has begun: its first octet and where it stands, how many octets were
read and how many are owed, the window of the next octet and the number read so far. -/
structure Pending where
  first : UInt8
  start : Nat
  read : Nat
  owed : Nat
  low : Nat
  high : Nat
  value : Nat

/-- The failure of a sequence at the octet after those read. -/
def Pending.fail (p : Pending) (defect : Defect) : DecodeError :=
  ⟨p.first, p.start, p.read, defect⟩

/-- The sequence that an octet begins at a position, unless it is ASCII or begins none. -/
def pending? (position : Nat) (octet : UInt8) : Option Pending :=
  let b := octet.toNat
  let begins (owed low high value : Nat) : Option Pending :=
    some ⟨octet, position, 1, owed, low, high, value⟩
  if 0xC2 ≤ b ∧ b ≤ 0xDF then begins 1 0x80 0xBF (b - 0xC0)
  else if b = 0xE0 then begins 2 0xA0 0xBF 0
  else if b = 0xED then begins 2 0x80 0x9F (b - 0xE0)
  else if 0xE1 ≤ b ∧ b ≤ 0xEF then begins 2 0x80 0xBF (b - 0xE0)
  else if b = 0xF0 then begins 3 0x90 0xBF 0
  else if 0xF1 ≤ b ∧ b ≤ 0xF3 then begins 3 0x80 0xBF (b - 0xF0)
  else if b = 0xF4 then begins 3 0x80 0x8F (b - 0xF0)
  else none

/-- Decodes octets from a position on, within a sequence or between two. -/
def decodeFrom (position : Nat) : Option Pending → List UInt8 → Except DecodeError Text
  | none, [] => .ok []
  | some p, [] => .error (p.fail .unexpectedEnd)
  | none, octet :: rest =>
    if octet.toNat < 0x80 then
      (CodePoint.ofNat octet.toNat :: ·) <$> decodeFrom (position + 1) none rest
    else
      match pending? position octet with
      | none => .error ⟨octet, position, 1, .invalidStart⟩
      | some p => decodeFrom (position + 1) (some p) rest
  | some p, octet :: rest =>
    let b := octet.toNat
    if p.low ≤ b ∧ b ≤ p.high then
      let value := p.value * 0x40 + (b - 0x80)
      if p.owed ≤ 1 then
        (CodePoint.ofNat value :: ·) <$> decodeFrom (position + 1) none rest
      else
        decodeFrom (position + 1)
          (some ⟨p.first, p.start, p.read + 1, p.owed - 1, 0x80, 0xBF, value⟩) rest
    else .error (p.fail .invalidContinuation)

/-- The text that octets encode. -/
def decode (octets : List UInt8) : Except DecodeError Text :=
  decodeFrom 0 none octets

end TermText.Utf8

namespace TermText.Text

/-- The text with each of its three line ends (CR LF, CR, LF) written as LF. -/
def unifyNewlines : Text → Text
  | [] => []
  | [c] => if c.val = 0x0D then [newline] else [c]
  | c :: d :: rest =>
    if c.val = 0x0D then
      if d.val = 0x0A then newline :: unifyNewlines rest else newline :: unifyNewlines (d :: rest)
    else c :: unifyNewlines (d :: rest)

end TermText.Text
