import TermText.Binary64.Read
import TermText.Json.Basic
import TermText.Text.Hexadecimal

/-!
# Reading documents

A reader of documents over the list of code points that are left. It accepts bare words for the
doubles that are not finite, keeps the last value of a repeated key, joins two escapes that are the
halves of a surrogate pair and keeps any other surrogate. A failure names what was expected and
where.
-/

namespace TermText.Json

/-- What is wrong with a document at a place. -/
inductive Flaw where
  | byteOrderMark
  | noValue
  | noName
  | noColon
  | noComma
  | extraData
  | controlCharacter
  | badEscape
  | badUnicodeEscape
  | unterminated
  deriving DecidableEq, Repr

/-- The wording of a flaw. -/
def Flaw.message : Flaw → Text
  | .byteOrderMark => "Unexpected UTF-8 BOM (decode using utf-8-sig)"
  | .noValue => "Expecting value"
  | .noName => "Expecting property name enclosed in double quotes"
  | .noColon => "Expecting ':' delimiter"
  | .noComma => "Expecting ',' delimiter"
  | .extraData => "Extra data"
  | .controlCharacter => "Invalid control character at"
  | .badEscape => "Invalid \\escape"
  | .badUnicodeEscape => "Invalid \\uXXXX escape"
  | .unterminated => "Unterminated string starting at"

/-- Why a text is no document. -/
inductive ParseError where
  | malformed (flaw : Flaw) (place : Text.Place)
  | numeral (error : Numeral.Error)
  deriving DecidableEq, Repr

/-- The wording of a failure to read a document. -/
def ParseError.message : ParseError → Text
  | .malformed flaw place =>
    flaw.message ++ ": line " ++ Numeral.ofNat place.line ++ " column " ++
      Numeral.ofNat place.column ++ " (char " ++ Numeral.ofNat place.offset ++ ")"
  | .numeral error => error.message

namespace Parser

/-- A failure: a flaw and how many code points were left where it showed, or a numeral that is too
long. -/
inductive Failure where
  | flaw (flaw : Flaw) (left : Nat)
  | numeral (error : Numeral.Error)

/-- The blanks between the tokens of a document. -/
def isSpace (c : CodePoint) : Bool :=
  c.val == 0x20 || c.val == 0x09 || c.val == 0x0A || c.val == 0x0D

/-- What is left after blanks. -/
def skipSpace (t : Text) : Text :=
  t.dropWhile isSpace

/-- A part of a string token: a code point that stands for itself, or a 16-bit unit that was written
by its number. -/
inductive Piece where
  | plain (c : CodePoint)
  | unit (c : CodePoint)

/-- The text of the parts of a string token; two adjacent units that are the halves of a pair
become one code point. -/
def joinPieces : List Piece → Text
  | [] => []
  | [.plain c] => [c]
  | [.unit c] => [c]
  | .plain c :: rest => c :: joinPieces rest
  | .unit c :: .plain d :: rest => c :: joinPieces (.plain d :: rest)
  | .unit c :: .unit d :: rest =>
    if c.isHighSurrogate && d.isLowSurrogate then CodePoint.ofSurrogates c d :: joinPieces rest
    else c :: joinPieces (.unit d :: rest)

/-- The code point of a short escape. -/
def shortEscape? (c : CodePoint) : Option CodePoint :=
  if c = CodePoint.ofChar '"' ∨ c = CodePoint.ofChar '\\' ∨ c = CodePoint.ofChar '/' then some c
  else if c = CodePoint.ofChar 'b' then some (CodePoint.ofNat 0x08)
  else if c = CodePoint.ofChar 'f' then some (CodePoint.ofNat 0x0C)
  else if c = CodePoint.ofChar 'n' then some (CodePoint.ofNat 0x0A)
  else if c = CodePoint.ofChar 'r' then some (CodePoint.ofNat 0x0D)
  else if c = CodePoint.ofChar 't' then some (CodePoint.ofNat 0x09)
  else none

/-- The 16-bit unit that four hexadecimal digits denote. -/
def unit? (a b c d : CodePoint) : Option CodePoint := do
  let a ← Hexadecimal.value? a
  let b ← Hexadecimal.value? b
  let c ← Hexadecimal.value? c
  let d ← Hexadecimal.value? d
  pure (CodePoint.ofNat (((a * 16 + b) * 16 + c) * 16 + d))

/-- The parts of a string token up to its closing quote; `opening` code points were left at its
opening quote. A unit's four digits must not end the text. -/
def stringPieces (opening : Nat) : Text → Except Failure (List Piece × Text)
  | [] => .error (.flaw .unterminated opening)
  | c :: rest =>
    if c = CodePoint.ofChar '"' then .ok ([], rest)
    else if c = CodePoint.ofChar '\\' then
      match rest with
      | [] => .error (.flaw .unterminated opening)
      | e :: more =>
        if e = CodePoint.ofChar 'u' then
          match more with
          | h₁ :: h₂ :: h₃ :: h₄ :: next :: tail =>
            match unit? h₁ h₂ h₃ h₄ with
            | none => .error (.flaw .badUnicodeEscape (more.length + 1))
            | some unit => do
              let (pieces, left) ← stringPieces opening (next :: tail)
              .ok (.unit unit :: pieces, left)
          | _ => .error (.flaw .badUnicodeEscape (more.length + 1))
        else
          match shortEscape? e with
          | none => .error (.flaw .badEscape (more.length + 2))
          | some c => do
            let (pieces, left) ← stringPieces opening more
            .ok (.plain c :: pieces, left)
    else if c.val ≤ 0x1F then .error (.flaw .controlCharacter (rest.length + 1))
    else do
      let (pieces, left) ← stringPieces opening rest
      .ok (.plain c :: pieces, left)

/-- The text of a string token whose opening quote was read. -/
def string (t : Text) : Except Failure (Text × Text) := do
  let (pieces, left) ← stringPieces (t.length + 1) t
  .ok (joinPieces pieces, left)

/-- A fraction at the start of a text: a point with a digit after it. -/
def fraction : Text → Text × Text
  | c :: d :: rest =>
    if c = CodePoint.ofChar '.' ∧ Binary64.isDecimalDigit d then
      (c :: (d :: rest).takeWhile Binary64.isDecimalDigit,
        (d :: rest).dropWhile Binary64.isDecimalDigit)
    else ([], c :: d :: rest)
  | t => ([], t)

/-- The sign of an exponent. -/
def exponentSign : Text → Text × Text
  | c :: rest =>
    if c = CodePoint.ofChar '+' ∨ c = CodePoint.ofChar '-' then ([c], rest) else ([], c :: rest)
  | [] => ([], [])

/-- An exponent at the start of a text: its mark, a sign or none, and digits. -/
def exponent : Text → Text × Text
  | [] => ([], [])
  | c :: rest =>
    let (sign, body) := exponentSign rest
    let digits := body.takeWhile Binary64.isDecimalDigit
    if (c = CodePoint.ofChar 'e' ∨ c = CodePoint.ofChar 'E') ∧ digits ≠ [] then
      (c :: sign ++ digits, body.dropWhile Binary64.isDecimalDigit)
    else ([], c :: rest)

/-- The digits before a point: a zero alone, or digits of which the first is no zero. -/
def whole (t : Text) : Text × Text :=
  match t with
  | [] => ([], [])
  | c :: rest =>
    if c = CodePoint.ofChar '0' then ([c], rest)
    else (t.takeWhile Binary64.isDecimalDigit, t.dropWhile Binary64.isDecimalDigit)

/-- The sign of a number: a minus or none. -/
def minus : Text → Text × Text
  | [] => ([], [])
  | c :: rest => if c = CodePoint.ofChar '-' then ([c], rest) else ([], c :: rest)

/-- The number at the start of a text. -/
def number (t : Text) : Except Failure (Json × Text) :=
  let (sign, body) := minus t
  let (digits, body) := whole body
  let (fraction, body) := fraction body
  let (exponent, left) := exponent body
  if digits = [] then .error (.flaw .noValue t.length)
  else if fraction = [] ∧ exponent = [] then
    match Numeral.readInt (sign ++ digits) with
    | .ok n => .ok (.int n, left)
    | .error e => .error (.numeral e)
  else
    match Binary64.read? (sign ++ digits ++ fraction ++ exponent) with
    | some x => .ok (.float x, left)
    | none => .error (.flaw .noValue t.length)

/-- The words that stand for a value. -/
def words : List (Text × Json) :=
  [("null", .null), ("true", .bool true), ("false", .bool false), ("NaN", .float .nan),
    ("Infinity", .float (.infinite false)), ("-Infinity", .float (.infinite true))]

/-- The word at the start of a text, or else the number there. -/
def wordOrNumber (t : Text) : Except Failure (Json × Text) :=
  let found := words.findSome? fun (word, value) =>
    (Text.dropLeading? word t).map fun left => (value, left)
  match found with
  | some result => .ok result
  | none => number t

mutual

/-- The value at the start of a text; `fuel` bounds the nesting. -/
def value : (fuel : Nat) → Text → Except Failure (Json × Text)
  | 0, t => .error (.flaw .noValue t.length)
  | _ + 1, [] => .error (.flaw .noValue 0)
  | fuel + 1, c :: rest =>
    if c = CodePoint.ofChar '"' then do
      let (t, left) ← string rest
      .ok (.text t, left)
    else if c.val = 0x7B then
      let inner := skipSpace rest
      if inner.head? = some (CodePoint.ofChar '\x7d') then .ok (.object [], inner.drop 1)
      else do
        let (fields, left) ← members fuel inner
        .ok (.object (Fields.insertAll [] fields), left)
    else if c.val = 0x5B then
      let inner := skipSpace rest
      if inner.head? = some (CodePoint.ofChar ']') then .ok (.list [], inner.drop 1)
      else do
        let (items, left) ← elements fuel inner
        .ok (.list items, left)
    else wordOrNumber (c :: rest)

/-- The items of a list up to its closing bracket; there is at least one. -/
def elements : (fuel : Nat) → Text → Except Failure (List Json × Text)
  | 0, t => .error (.flaw .noValue t.length)
  | fuel + 1, t => do
    let (item, left) ← value fuel t
    match skipSpace left with
    | [] => .error (.flaw .noComma 0)
    | c :: rest =>
      if c.val = 0x5D then .ok ([item], rest)
      else if c = CodePoint.ofChar ',' then do
        let (items, left) ← elements fuel (skipSpace rest)
        .ok (item :: items, left)
      else .error (.flaw .noComma (rest.length + 1))

/-- The fields of an object up to its closing brace; there is at least one. -/
def members : (fuel : Nat) → Text → Except Failure (Fields × Text)
  | 0, t => .error (.flaw .noName t.length)
  | _ + 1, [] => .error (.flaw .noName 0)
  | fuel + 1, c :: rest =>
    if c = CodePoint.ofChar '"' then do
      let (key, left) ← string rest
      match skipSpace left with
      | [] => .error (.flaw .noColon 0)
      | colon :: rest =>
        if colon = CodePoint.ofChar ':' then do
          let (item, left) ← value fuel (skipSpace rest)
          match skipSpace left with
          | [] => .error (.flaw .noComma 0)
          | c :: rest =>
            if c.val = 0x7D then .ok ([(key, item)], rest)
            else if c = CodePoint.ofChar ',' then do
              let (fields, left) ← members fuel (skipSpace rest)
              .ok ((key, item) :: fields, left)
            else .error (.flaw .noComma (rest.length + 1))
        else .error (.flaw .noColon (rest.length + 1))
    else .error (.flaw .noName (rest.length + 1))

end

/-- The document that a whole text is. -/
def document (t : Text) : Except Failure Json :=
  if t.head?.any (fun c => c.val = 0xFEFF) then .error (.flaw .byteOrderMark t.length)
  else do
    let body := skipSpace t
    let (result, left) ← value (2 * body.length + 2) body
    match skipSpace left with
    | [] => .ok result
    | extra => .error (.flaw .extraData extra.length)

end Parser

/-- Reads a document. -/
def parse (t : Text) : Except ParseError Json :=
  match Parser.document t with
  | .ok value => .ok value
  | .error (.flaw flaw left) =>
    .error (.malformed flaw (Text.placeAfter (t.take (t.length - left))))
  | .error (.numeral e) => .error (.numeral e)

end TermText.Json
