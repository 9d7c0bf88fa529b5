import TermText.Encoding
import TermText.Name.Basic
import TermText.Value.Tag

/-!
# Encoding of names

A name is encoded by the hash of its parent, its own hash and its segments from the root. The two
hashes are written as the integers that they give; a name whose hashes give none has no encoding. A
number segment becomes an atom with a mark in front, so that it never reads like a text segment.
-/

namespace TermText

namespace Segment

/-- The marked numeral of a number segment is an atom. -/
theorem marked_valid (n : Nat) : Atom.isValid ("#" ++ Numeral.ofNat n) = true := by
  have digits : ∀ d : Fin 10, Atom.isForbidden (Numeral.digit d) = false := by decide
  have numeral : (Numeral.ofNat n).any Atom.isForbidden = false := by
    rw [List.any_eq_false]
    intro c hc
    obtain ⟨d, hd, rfl⟩ := Numeral.mem_ofNat hc
    simp [digits ⟨d, hd⟩]
  have mark : ("#" : Text).any Atom.isForbidden = false := by decide
  simp only [Atom.isValid, List.any_append, mark, numeral, Bool.or_self, Bool.not_false,
    Bool.and_true]
  rfl

/-- The encoding of a segment. -/
def encode : Segment → Value
  | .text t => .text t
  | .number n => .atom ⟨"#" ++ Numeral.ofNat n, marked_valid n⟩

end Segment

namespace Name

/-- The encoding of a name. -/
def encode : Name → Except EncodeError Value
  | .anonymous => .ok (.tagged .anonymous [])
  | .extend parent segment hash => do
    let above ← parent.hash.integer.mapError .number
    let own ← hash.integer.mapError .number
    .ok (.tagged .name (.int above :: .int own ::
      ((Name.extend parent segment hash).components.map Segment.encode)))

/-- Whether the encodings of two names hold equal things, the hashes being compared as they were
given. -/
def encodesLike : Name → Name → Bool
  | .anonymous, .anonymous => true
  | .extend parent segment hash, .extend parent' segment' hash' =>
    parent.hash.same parent'.hash && hash.same hash' &&
      (Name.extend parent segment hash).components ==
        (Name.extend parent' segment' hash').components
  | _, _ => false

end Name

end TermText
