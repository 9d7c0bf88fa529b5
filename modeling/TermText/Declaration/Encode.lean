import TermText.Declaration.Basic
import TermText.Term.Encode

/-!
# Encoding of declarations and modules

A declaration is encoded by its name, its type and its payload. Definitions and theorems are encoded
alike. Of a module only the visible declarations are encoded.
-/

namespace TermText

/-- The word for a quotient constant is an atom. -/
theorem QuotientKind.word_valid (kind : QuotientKind) : Atom.isValid kind.word = true := by
  cases kind <;> decide

namespace Declaration

mutual

/-- The encoding of a declaration. -/
def encode : Declaration → Except EncodeError Value
  | .mk name type payload => do
    let (n, t, p) ← Encoding.pair name.encode
      (Encoding.pair type.encode (encodePayload type payload))
    .ok (.tagged .definition [n, t, p])

/-- The encoding of the payload of a declaration with a given type. -/
def encodePayload (type : Term) : Payload → Except EncodeError Value
  | .assumption => .ok (.tagged .assumption [])
  | .definition value => do
    let v ← value.encode
    .ok (.tagged .function [v])
  | .proof value => do
    let v ← value.encode
    .ok (.tagged .function [v])
  | .sealed value => do
    let v ← value.encode
    .ok (.tagged .sealed [v])
  | .quotient kind typeName => do
    let n ← typeName.encode
    .ok (.tagged .quotient [.atom ⟨kind.word, kind.word_valid⟩, n])
  | .family constructors => do
    let (t, cs) ← Encoding.pair type.encode (encodeAll constructors)
    .ok (.tagged .data [t, .list cs])
  | .constructor owner => do
    let n ← owner.encode
    .ok (.tagged .constructor [n])
  | .eliminator => do
    let t ← type.encode
    .ok (.tagged .eliminator [t])
  | .foreign f => .error (.payload f)

/-- The encodings of several declarations. -/
def encodeAll : List Declaration → Except EncodeError (List Value)
  | [] => .ok []
  | d :: rest => do
    let (v, vs) ← Encoding.pair (encode d) (encodeAll rest)
    .ok (v :: vs)

end

end Declaration

/-- Whether a name is shown: an anonymous name and one that ends in a number always are, any other
unless it is internal. -/
def Name.isVisible (internal : Name → Bool) (name : Name) : Bool :=
  name.isAnonymous || name.endsInNumber || !internal name

namespace Module

/-- The encoding of a module with given encodings of declarations. -/
def encodeWith (name : Name) (declarations : Except EncodeError (List Value)) :
    Except EncodeError Value := do
  let (n, ds) ← Encoding.pair name.encode declarations
  .ok (.tagged .module (.tagged .moduleName [n] :: ds))

/-- The encoding of a module: its name and its visible declarations in order. -/
def encode (internal : Name → Bool) (m : Module) : Except EncodeError Value :=
  let visible := m.declarations.filter fun d => d.name.isVisible internal
  encodeWith m.name (Declaration.encodeAll visible)

end Module

end TermText
