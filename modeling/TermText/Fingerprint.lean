import TermText.Declaration.Encode
import TermText.Digest.Sha256
import TermText.Text.Utf8

/-!
# Fingerprints

A fingerprint is the first sixteen hexadecimal digits of the SHA-256 digest of texts with bars
between them. Values, declarations and tables of declarations are told apart by what the first text
is; the fingerprint of a table is taken over those of its declarations in order.
-/

namespace TermText

namespace Fingerprint

/-- The text whose digest is taken. -/
def preimage (parts : List Text) : Text :=
  Text.join "|" parts

/-- The fingerprint of texts in order. -/
def ofParts (parts : List Text) : Except Utf8.EncodeError Text := do
  let octets ← Utf8.encode (preimage parts)
  .ok ((Sha256.hexDigest octets).take 16)

/-- The fingerprint of a value. -/
def ofValue (v : Value) : Except Utf8.EncodeError Text :=
  ofParts [v.render]

/-- Why there is no fingerprint. -/
inductive Error where
  | encode (error : EncodeError)
  | utf8 (error : Utf8.EncodeError)
  deriving DecidableEq, Repr

/-- The wording of a failure to take a fingerprint. -/
def Error.message : Error → Text
  | .encode error => error.message
  | .utf8 error => error.message

/-- The fingerprint of a declaration. -/
def ofDeclaration (d : Declaration) : Except Error Text := do
  let v ← d.encode.mapError .encode
  (ofParts ["definition", v.render]).mapError .utf8

/-- The fingerprints of several declarations. -/
def ofEach : List Declaration → Except Error (List Text)
  | [] => .ok []
  | d :: rest => do
    let f ← ofDeclaration d
    let fs ← ofEach rest
    .ok (f :: fs)

/-- The fingerprint of a table of declarations, which depends on their order. -/
def ofDeclarations (declarations : List Declaration) : Except Error Text := do
  let parts ← ofEach declarations
  (ofParts ("declarations" :: parts)).mapError .utf8

end Fingerprint

end TermText
