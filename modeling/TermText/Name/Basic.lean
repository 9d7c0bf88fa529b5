import TermText.Digest.Blake2b
import TermText.Json.Describe
import TermText.Json.Equality
import TermText.Text.Digit
import TermText.Text.Utf8

/-!
# Hierarchical names

A name is a chain of segments over the anonymous root. Each link carries a hash; by default this is
the digest of the parent's hash and the segment, and a host may give any other value. Two names are
equal if their segments and all their hashes are. All names stand over the one root, whose hash is
fixed: a root with another hash is not modelled. A dotted text is defined for every name; it is what
is printed if the numbers in the name are within the limit for numerals.
-/

namespace TermText

/-- A step of a name: a text or a natural number. -/
inductive Segment where
  | text (t : Text)
  | number (n : Nat)
  deriving DecidableEq, Repr

/-- A hierarchical name. -/
inductive Name where
  | anonymous
  | extend (parent : Name) (segment : Segment) (hash : Json)
  deriving Repr

namespace Segment

/-- The segment as it stands in a dotted name. -/
def label : Segment → Text
  | .text t => t
  | .number n => Numeral.ofNat n

/-- The mark that tells the two kinds of segments apart where a hash is taken. -/
def mark : Segment → Text
  | .text _ => "s"
  | .number _ => "n"

/-- A text segment that starts with a low line. -/
def isInternal : Segment → Bool
  | .text t => t.head? == some (CodePoint.ofChar '_')
  | .number _ => false

/-- Whether the segment is no number above the limit for numerals. -/
def isWritable : Segment → Bool
  | .text _ => true
  | .number n => Numeral.Fits n

/-- The text whose digest is the default hash of a segment below a parent with a given hash. -/
def hashed (parentHash : Json) (segment : Segment) : Text :=
  parentHash.spelled ++ "|" ++ segment.mark ++ "|" ++ segment.label

/-- Why a segment has no default hash: a number is not written, or a surrogate has no octets. -/
inductive HashError where
  | numeral (error : Numeral.Error)
  | unencodable (error : Utf8.EncodeError)

/-- The default hash of a segment below a parent with a given hash. -/
def defaultHash (parentHash : Json) (segment : Segment) : Except HashError Int :=
  if parentHash.isWritable && segment.isWritable then do
    let octets ← (Utf8.encode (segment.hashed parentHash)).mapError .unencodable
    .ok (Blake2b.digest8 octets)
  else .error (.numeral .tooLong)

/-- The segment that a part of a dotted name stands for: a number if it consists of digits. -/
def ofPart (part : Text) : Except Numeral.Error Segment :=
  if part.isAllDigits then do
    let n ← Numeral.readInt part
    .ok (.number n.toNat)
  else .ok (.text part)

end Segment

namespace Name

/-- The hash of the anonymous name. -/
def anonymousHash : Int := 1723

/-- The hash of a name. -/
def hash : Name → Json
  | .anonymous => .int anonymousHash
  | .extend _ _ hash => hash

/-- The name one segment shorter; the anonymous name is its own parent. -/
def parent : Name → Name
  | .anonymous => .anonymous
  | .extend parent _ _ => parent

/-- The name one segment longer with a given hash; null stands for the default one. -/
def child (parent : Name) (segment : Segment) : Json → Except Segment.HashError Name
  | .null => do
    let hash ← segment.defaultHash parent.hash
    .ok (.extend parent segment (.int hash))
  | hash => .ok (.extend parent segment hash)

/-- The segments with their hashes, from the root outwards. -/
def links : Name → List (Segment × Json)
  | .anonymous => []
  | .extend parent segment hash => parent.links ++ [(segment, hash)]

/-- The segments from the root outwards. -/
def components : Name → List Segment
  | .anonymous => []
  | .extend parent segment _ => parent.components ++ [segment]

/-- Equality of two names. -/
def same : Name → Name → Bool
  | .anonymous, .anonymous => true
  | .extend parent segment hash, .extend parent' segment' hash' =>
    parent.same parent' && segment == segment' && hash.same hash'
  | _, _ => false

/-- The name of no segment. -/
def isAnonymous : Name → Bool
  | .anonymous => true
  | .extend .. => false

/-- A name whose last segment is a text. -/
def endsInText : Name → Bool
  | .extend _ (.text _) _ => true
  | _ => false

/-- A name whose last segment is a number. -/
def endsInNumber : Name → Bool
  | .extend _ (.number _) _ => true
  | _ => false

/-- A name with a text segment that starts with a low line. -/
def isInternal : Name → Bool
  | .anonymous => false
  | .extend parent segment _ => segment.isInternal || parent.isInternal

/-- The dotted text of a name. -/
def toText : Name → Text
  | .anonymous => "[anonymous]"
  | name => Text.join "." (name.components.map Segment.label)

/-- The name with given segments below another one and default hashes. -/
def extendAll (parent : Name) : List Segment → Except Segment.HashError Name
  | [] => .ok parent
  | segment :: rest => do
    let name ← parent.child segment .null
    name.extendAll rest

end Name

end TermText
