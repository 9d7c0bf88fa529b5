import TermText.Proofs.Text.Units
import TermText.Term.Basic

/-!
# Forms of terms

The form of a term is the term up to what its encoding erases: nodes without identities, no
annotations and no binder names, parameters and metavariables of levels taken for one another, texts
by their 16-bit units, and every name by its own hash, the hash of its parent and its segments. What
is outside the model has no form of its own.
-/

namespace TermText

/-- The form of a segment: a text by its units, or a number. -/
inductive SegmentForm where
  | text (units : List Nat)
  | number (n : Nat)

/-- The form of a name: a mark for the anonymous one, else two hashes and the segments. -/
inductive NameForm where
  | anonymous
  | chain (parentHash hash : Int) (segments : List SegmentForm)

/-- The form of a level. Parameters and metavariables are variables alike. -/
inductive LevelForm where
  | zero
  | succ (level : LevelForm)
  | max (lhs rhs : LevelForm)
  | imax (lhs rhs : LevelForm)
  | named (name : NameForm)
  | outside

/-- The form of a term. -/
inductive TermForm where
  | boundVar (index : Nat)
  | freeVar (name : NameForm)
  | metaVar (name : NameForm)
  | sort (level : LevelForm)
  | const (name : NameForm) (levels : List LevelForm)
  | app (fn arg : TermForm)
  | lambda (type body : TermForm)
  | pi (type body : TermForm)
  | letIn (type value body : TermForm)
  | natural (value : Nat)
  | text (units : List Nat)
  | proj (typeName : NameForm) (index : Int) (struct : TermForm)
  | outside

/-- The integer that a value is; zero for a value that is none. -/
def Json.whole : Json → Int
  | .int n => n
  | _ => 0

/-- The form of a segment. -/
def Segment.form : Segment → SegmentForm
  | .text t => .text t.units
  | .number n => .number n

/-- The form of a name. -/
def Name.form : Name → NameForm
  | .anonymous => .anonymous
  | .extend parent segment hash =>
    .chain parent.hash.whole hash.whole
      ((Name.extend parent segment hash).components.map Segment.form)

/-- The form of a level. -/
def Level.form : Level → LevelForm
  | .zero => .zero
  | .succ l => .succ l.form
  | .max a b => .max a.form b.form
  | .imax a b => .imax a.form b.form
  | .param name => .named name.form
  | .metaVar name => .named name.form
  | .foreign _ => .outside

/-- The form of a term. -/
def Term.form : Term → TermForm
  | .boundVar _ index => .boundVar index
  | .freeVar _ name => .freeVar name.form
  | .metaVar _ name => .metaVar name.form
  | .sort _ level => .sort level.form
  | .const _ name levels => .const name.form (levels.map Level.form)
  | .app _ fn arg => .app fn.form arg.form
  | .lambda _ type body _ => .lambda type.form body.form
  | .pi _ type body _ => .pi type.form body.form
  | .letIn _ type value body _ => .letIn type.form value.form body.form
  | .natural _ value => .natural value
  | .text _ value => .text value.units
  | .annotated _ inner _ => inner.form
  | .proj _ typeName index struct => .proj typeName.form index struct.form
  | .document .. | .unwritable .. | .unwritableProj .. | .foreign .. => .outside

/-- A name whose own hash and whose parent's hash are integers. -/
def Name.Numbered (name : Name) : Prop :=
  (∃ i : Int, name.parent.hash = .int i) ∧ ∃ i : Int, name.hash = .int i

/-- A level of the six kinds of the model. -/
def Level.InModel : Level → Prop
  | .zero => True
  | .succ l => l.InModel
  | .max a b | .imax a b => a.InModel ∧ b.InModel
  | .param name | .metaVar name => name.Numbered
  | .foreign _ => False

/-- A term of the thirteen kinds of the model. -/
def Term.InModel : Term → Prop
  | .boundVar .. | .natural .. | .text .. => True
  | .freeVar _ name | .metaVar _ name => name.Numbered
  | .sort _ level => level.InModel
  | .const _ name levels => name.Numbered ∧ ∀ l ∈ levels, l.InModel
  | .app _ fn arg => fn.InModel ∧ arg.InModel
  | .lambda _ type body _ | .pi _ type body _ => type.InModel ∧ body.InModel
  | .letIn _ type value body _ => type.InModel ∧ value.InModel ∧ body.InModel
  | .annotated _ inner _ => inner.InModel
  | .proj _ typeName _ struct => typeName.Numbered ∧ struct.InModel
  | .document .. | .unwritable .. | .unwritableProj .. | .foreign .. => False

end TermText
