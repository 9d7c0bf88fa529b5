import TermText.Term.Basic

/-!
# Declarations and modules

A declaration is a name, a type and a payload that depends on its kind; an inductive family carries
its constructors, which are declarations themselves. A module is a name and a table of declarations.
-/

namespace TermText

/-- The four constants of quotient types. -/
inductive QuotientKind where
  | type
  | constructor
  | lift
  | induction
  deriving DecidableEq, Repr

namespace QuotientKind

/-- The word for a quotient constant. -/
def word : QuotientKind → Text
  | .type => "type"
  | .constructor => "ctor"
  | .lift => "lift"
  | .induction => "ind"

/-- The quotient constant that a value names. -/
def ofJson? : Json → Option QuotientKind
  | .text t => [type, constructor, lift, induction].find? fun kind => kind.word = t
  | _ => none

end QuotientKind

/-- The kinds of declarations. -/
inductive DeclarationKind where
  | assumption
  | definition
  | proof
  | sealed
  | quotient
  | family
  | constructor
  | eliminator
  deriving DecidableEq, Repr

namespace DeclarationKind

/-- The word for a kind of declaration. -/
def word : DeclarationKind → Text
  | .assumption => "axiom"
  | .definition => "definition"
  | .proof => "theorem"
  | .sealed => "opaque"
  | .quotient => "quot"
  | .family => "inductive"
  | .constructor => "constructor"
  | .eliminator => "recursor"

/-- All kinds of declarations. -/
def all : List DeclarationKind :=
  [assumption, definition, proof, sealed, quotient, family, constructor, eliminator]

end DeclarationKind

mutual

/-- One compiled constant. -/
inductive Declaration where
  | mk (name : Name) (type : Term) (payload : Payload)

/-- What a declaration holds besides its name and its type: one of eight records, or a foreign object.
What stands for an instance of a class derived from one of the records is none of these. -/
inductive Payload where
  | assumption
  | definition (value : Term)
  | proof (value : Term)
  | sealed (value : Term)
  | quotient (kind : QuotientKind) (typeName : Name)
  | family (constructors : List Declaration)
  | constructor (owner : Name)
  | eliminator
  | foreign (f : Foreign)

end

namespace Payload

/-- The kind of a payload. -/
def kind : Payload → Except EncodeError DeclarationKind
  | .assumption => .ok .assumption
  | .definition _ => .ok .definition
  | .proof _ => .ok .proof
  | .sealed _ => .ok .sealed
  | .quotient .. => .ok .quotient
  | .family _ => .ok .family
  | .constructor _ => .ok .constructor
  | .eliminator => .ok .eliminator
  | .foreign f => .error (.payload f)

end Payload

namespace Declaration

/-- The name that is declared. -/
def name : Declaration → Name
  | .mk name _ _ => name

/-- The declared type. -/
def type : Declaration → Term
  | .mk _ type _ => type

/-- What is declared besides name and type. -/
def payload : Declaration → Payload
  | .mk _ _ payload => payload

/-- The kind of a declaration. -/
def kind (d : Declaration) : Except EncodeError DeclarationKind :=
  d.payload.kind

mutual

/-- The terms of a declaration: its type, then its value or the terms of its constructors. -/
def terms : Declaration → List Term
  | .mk _ type payload => type :: payloadTerms payload

/-- The terms of a payload. -/
def payloadTerms : Payload → List Term
  | .definition value => [value]
  | .proof value => [value]
  | .sealed value => [value]
  | .family constructors => termsOfAll constructors
  | _ => []

/-- The terms of several declarations one after another. -/
def termsOfAll : List Declaration → List Term
  | [] => []
  | d :: rest => terms d ++ termsOfAll rest

end

end Declaration

/-- A module: its name and its declarations in the host's order. -/
structure Module where
  name : Name
  declarations : List Declaration

end TermText
