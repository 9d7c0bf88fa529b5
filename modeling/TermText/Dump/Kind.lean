import TermText.Json.Basic

/-!
# Kinds of records

The kinds of level, term and declaration records, each with the word that a record names it by. Any
other value names no kind.
-/

namespace TermText

namespace Json

/-- The kind that a value names, among kinds with given words. -/
def kindNamed? {κ : Type} (all : List κ) (word : κ → Text) : Json → Option κ
  | .text t => all.find? fun kind => word kind = t
  | _ => none

end Json

namespace Dump

/-- The kinds of level records. -/
inductive LevelKind where
  | zero
  | succ
  | max
  | imax
  | param
  | metaVar
  deriving DecidableEq, Repr

namespace LevelKind

/-- The word for a kind of level. -/
def word : LevelKind → Text
  | .zero => "zero"
  | .succ => "succ"
  | .max => "max"
  | .imax => "imax"
  | .param => "param"
  | .metaVar => "mvar"

/-- All kinds of levels. -/
def all : List LevelKind := [zero, succ, max, imax, param, metaVar]

/-- The kind of level that a value names. -/
def ofJson? : Json → Option LevelKind := Json.kindNamed? all word

end LevelKind

/-- The kinds of term records. -/
inductive ExprKind where
  | boundVar
  | freeVar
  | metaVar
  | sort
  | const
  | app
  | lambda
  | pi
  | letIn
  | natural
  | text
  | annotated
  | proj
  deriving DecidableEq, Repr

namespace ExprKind

/-- The word for a kind of term. -/
def word : ExprKind → Text
  | .boundVar => "bvar"
  | .freeVar => "fvar"
  | .metaVar => "mvar"
  | .sort => "sort"
  | .const => "const"
  | .app => "app"
  | .lambda => "lam"
  | .pi => "pi"
  | .letIn => "let"
  | .natural => "natlit"
  | .text => "strlit"
  | .annotated => "mdata"
  | .proj => "proj"

/-- All kinds of terms. -/
def all : List ExprKind :=
  [boundVar, freeVar, metaVar, sort, const, app, lambda, pi, letIn, natural, text, annotated, proj]

/-- The kind of term that a value names. -/
def ofJson? : Json → Option ExprKind := Json.kindNamed? all word

end ExprKind

end Dump

end TermText
