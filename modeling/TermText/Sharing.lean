import TermText.Declaration.Basic

/-!
# Sharing of subterms

Counts how often the inner nodes of terms are met again. A node met for the first time is entered
with zero and its children are visited from left to right; a node met again is counted and not
entered anew, so each distinct node is expanded once however many paths lead to it. Leaves are not
counted.
-/

namespace TermText

/-- The identities of the inner nodes met so far, in the order of their first visit, and how often
each was met again. -/
abbrev Tally := List (NodeId × Nat)

namespace Tally

/-- Whether a node was met. -/
def contains (tally : Tally) (id : NodeId) : Bool :=
  tally.any fun entry => entry.1 == id

/-- Counts a node that was met again. -/
def bump : Tally → NodeId → Tally
  | [], _ => []
  | (n, count) :: rest, id => if n = id then (n, count + 1) :: rest else (n, count) :: bump rest id

/-- Enters a node that is met for the first time. -/
def enter (tally : Tally) (id : NodeId) : Tally :=
  tally ++ [(id, 0)]

/-- The nodes met more than once, in the order of their first visit. -/
def shared (tally : Tally) : Tally :=
  tally.filter fun entry => 0 < entry.2

end Tally

/-- Why a term was not counted to its end: a foreign object is no node, and some cannot even be
looked up. -/
inductive SharingError where
  | unsupported (f : Foreign)
  | unhashable (f : Foreign)
  deriving DecidableEq, Repr

/-- The wording of a failure to count. -/
def SharingError.message : SharingError → Text
  | .unsupported f => "Unsupported term for sharing analysis: " ++ describeClass f.className
  | .unhashable f => "unhashable type: '" ++ f.kindName ++ "'"

namespace Term

/-- The children of a term that may have some; a foreign object has none that can be asked for. -/
def childrenOrError : Term → Except SharingError (List Term)
  | .foreign _ f => .error (.unsupported f)
  | t => .ok t.children

/-- The number of nodes of several terms together. -/
def totalSize : List Term → Nat
  | [] => 0
  | t :: rest => t.size + totalSize rest

/-- Two lists of terms have the nodes of both. -/
theorem totalSize_append (ts us : List Term) :
    totalSize (ts ++ us) = totalSize ts + totalSize us := by
  induction ts with
  | nil => simp [totalSize]
  | cons t rest ih => simp only [List.cons_append, totalSize, ih, Nat.add_assoc]

/-- The children of a term have fewer nodes together than the term. -/
theorem totalSize_children_lt (t : Term) : totalSize t.children < t.size := by
  cases t <;> simp [children, totalSize, size]
  omega

/-- Children that may be asked for are the children. -/
theorem eq_children_of_childrenOrError {t : Term} {cs : List Term}
    (h : t.childrenOrError = .ok cs) : cs = t.children := by
  unfold childrenOrError at h
  split at h
  · cases h
  · exact (Except.ok.inj h).symm

/-- Why a node cannot be looked up in a tally. -/
def lookupError? : Term → Option SharingError
  | .foreign _ f => if f.hashable then none else some (.unhashable f)
  | _ => none

/-- Visits the terms on a stack. What was counted before a failure stays counted. -/
def visit (stack : List Term) (tally : Tally) : Tally × Except SharingError Unit :=
  match stack with
  | [] => (tally, .ok ())
  | t :: rest =>
    match t.lookupError? with
    | some e => (tally, .error e)
    | none =>
      if tally.contains t.id then visit rest (tally.bump t.id)
      else if t.isLeaf then visit rest tally
      else
        match _given : t.childrenOrError with
        | .error e => (tally.enter t.id, .error e)
        | .ok children => visit (children ++ rest) (tally.enter t.id)
termination_by totalSize stack
decreasing_by
  all_goals have := totalSize_children_lt t
  · simp only [totalSize]
    omega
  · simp only [totalSize]
    omega
  · rw [eq_children_of_childrenOrError _given]
    simp only [totalSize_append, totalSize]
    omega

/-- Counts the nodes of a term. -/
def count (tally : Tally) (t : Term) : Tally × Except SharingError Unit :=
  visit [t] tally

end Term

/-- How much terms rely on sharing: how many inner nodes there are, how many of them are met again,
and how often in all. -/
structure SharingMetrics where
  distinct : Nat
  shared : Nat
  revisits : Nat
  deriving DecidableEq, Repr

namespace SharingMetrics

/-- The figures of a tally. -/
def ofTally (tally : Tally) : SharingMetrics where
  distinct := tally.length
  shared := tally.shared.length
  revisits := tally.shared.foldr (fun entry n => entry.2 + n) 0

/-- The tally of terms counted one after another, unless one fails. -/
def countAll (tally : Tally) : List Term → Except SharingError Tally
  | [] => .ok tally
  | t :: rest =>
    match t.count tally with
    | (next, .ok _) => countAll next rest
    | (_, .error e) => .error e

/-- The figures of one term. -/
def ofTerm (t : Term) : Except SharingError SharingMetrics := do
  let tally ← countAll [] [t]
  .ok (ofTally tally)

/-- The figures of the terms of several declarations in one tally. -/
def ofDeclarations (declarations : List Declaration) : Except SharingError SharingMetrics := do
  let tally ← countAll [] (declarations.flatMap Declaration.terms)
  .ok (ofTally tally)

end SharingMetrics

end TermText
