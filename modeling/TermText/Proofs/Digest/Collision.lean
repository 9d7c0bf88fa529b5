import Mathlib.Data.List.Basic

/-!
# Digests without collisions

What is told by its digest is told only as far as the digest has no collision. No digest is without one on
all octets, so this is asked of the octets of which digests are taken, which are finitely many, and it can be
decided for each list of them. Default hashes and fingerprints, which take different digests, both ask it.
-/

namespace TermText

section Digest

variable {δ : Type} {digest : List UInt8 → δ}

/-- The digest differs on each two of the given preimages. -/
def CollisionFree (digest : List UInt8 → δ) (preimages : List (List UInt8)) : Prop :=
  ∀ p ∈ preimages, ∀ q ∈ preimages, digest p = digest q → p = q

/-- Whether a digest has a collision among given octets can be decided. -/
instance [DecidableEq δ] (preimages : List (List UInt8)) : Decidable (CollisionFree digest preimages) :=
  inferInstanceAs (Decidable (∀ p ∈ preimages, ∀ q ∈ preimages, digest p = digest q → p = q))

/-- Fewer preimages have no more collisions. -/
theorem CollisionFree.of_subset {small large : List (List UInt8)} (h : CollisionFree digest large)
    (hsubset : small ⊆ large) : CollisionFree digest small :=
  fun p hp q hq => h p (hsubset hp) q (hsubset hq)

/-- Two parts of the preimages in play have no collision among them. -/
theorem CollisionFree.of_parts {left right large : List (List UInt8)} (h : CollisionFree digest large)
    (hleft : left ⊆ large) (hright : right ⊆ large) : CollisionFree digest (left ++ right) :=
  h.of_subset (List.append_subset.mpr ⟨hleft, hright⟩)

end Digest

end TermText
