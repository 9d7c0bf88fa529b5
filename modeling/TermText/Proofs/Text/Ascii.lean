import TermText.Fingerprint
import TermText.Proofs.Binary64.Mark
import TermText.Proofs.Text.Units

/-!
# Texts in ASCII

Everything that is written is written in ASCII, whatever it is written of: numerals, tokens of texts
with any code points, documents, digests. So it is on one line, and it can always be encoded in UTF-8,
which no text with a surrogate can.
-/

namespace TermText

/-- An ASCII code point that is no control character. -/
def CodePoint.Ascii (c : CodePoint) : Prop :=
  0x20 ≤ c.val ∧ c.val ≤ 0x7E

/-- Whether a code point is of printed ASCII is decided by comparing. -/
instance : DecidablePred CodePoint.Ascii := fun c =>
  inferInstanceAs (Decidable (0x20 ≤ c.val ∧ c.val ≤ 0x7E))

/-- A text of such code points. -/
def Text.Ascii (t : Text) : Prop :=
  ∀ c ∈ t, c.Ascii

/-- Whether a text is of printed ASCII is decided along the text. -/
instance (t : Text) : Decidable t.Ascii :=
  List.decidableBAll CodePoint.Ascii t

/-- A text without surrogates. -/
def Text.Encodable (t : Text) : Prop :=
  ∀ c ∈ t, c.isSurrogate = false

/-- Whether a text can be encoded is decided along the text. -/
instance (t : Text) : Decidable t.Encodable :=
  List.decidableBAll _ t

namespace Text

/-- Two texts together can be encoded exactly if each can. -/
@[simp] theorem encodable_append {t u : Text} : Encodable (t ++ u) ↔ t.Encodable ∧ u.Encodable :=
  List.forall_mem_append

/-- The empty text is of ASCII. -/
@[simp] theorem ascii_nil : Ascii [] := nofun

/-- A text is of ASCII exactly if its first code point and the rest are. -/
@[simp] theorem ascii_cons {c : CodePoint} {t : Text} :
    Ascii (c :: t) ↔ c.Ascii ∧ t.Ascii :=
  List.forall_mem_cons

/-- Two texts together are of ASCII exactly if each is. -/
@[simp] theorem ascii_append {t u : Text} : Ascii (t ++ u) ↔ t.Ascii ∧ u.Ascii :=
  List.forall_mem_append

/-- What is written piece by piece is of ASCII if each piece is. -/
theorem ascii_flatMap {α : Type} {xs : List α} {write : α → Text} (h : ∀ x ∈ xs, (write x).Ascii) :
    Ascii (xs.flatMap write) := by
  intro c hc
  obtain ⟨x, hx, hmem⟩ := List.mem_flatMap.mp hc
  exact h x hx c hmem

/-- Parts in ASCII with a separator in ASCII between them are in ASCII. -/
theorem ascii_join {separator : Text} (hseparator : separator.Ascii) {parts : List Text}
    (h : ∀ part ∈ parts, part.Ascii) : (join separator parts).Ascii := by
  fun_induction join separator parts with
  | case1 => exact ascii_nil
  | case2 t => exact h t List.mem_cons_self
  | case3 t rest hne ih =>
    have hrest := ih fun part hpart => h part (List.mem_cons_of_mem _ hpart)
    exact ascii_append.mpr ⟨ascii_append.mpr ⟨h t List.mem_cons_self, hseparator⟩, hrest⟩

/-- ASCII has no surrogates. -/
theorem Ascii.encodable {t : Text} (h : t.Ascii) : t.Encodable := by
  intro c hc
  have hsmall : c.val ≤ 0x7E := (h c hc).2
  have hlow : ¬ 0xD800 ≤ c.val := by omega
  simp [CodePoint.isSurrogate, hlow]

/-- Lines in ASCII that end in line feeds have no surrogates. -/
theorem encodable_lines {lines : List Text} (h : ∀ line ∈ lines, line.Ascii) :
    Encodable (lines.flatMap fun line => line ++ [newline]) := by
  intro c hc
  obtain ⟨line, hline, hmem⟩ := List.mem_flatMap.mp hc
  rcases List.mem_append.mp hmem with hmem | hmem
  · exact (h line hline).encodable c hmem
  · rw [List.mem_singleton.mp hmem]
    rfl

end Text

/-- A text without surrogates has its octets. -/
theorem Utf8.exists_encode {t : Text} (h : t.Encodable) : ∃ octets, encode t = .ok octets := by
  have hnone (position : Nat) : surrogateRun? position t = none := by
    induction t generalizing position with
    | nil => rfl
    | cons c rest ih =>
      rw [surrogateRun?, h c List.mem_cons_self]
      exact ih (fun d hd => h d (List.mem_cons_of_mem _ hd)) (position + 1)
  exact ⟨_, by rw [encode, hnone]⟩

namespace Numeral

/-- A numeral of a natural number is of ASCII. -/
@[simp] theorem ascii_ofNat (n : Nat) : (ofNat n).Ascii :=
  forall_mem_ofNat (by decide) n

/-- So is a numeral of an integer. -/
@[simp] theorem ascii_ofInt (n : Int) : (ofInt n).Ascii :=
  forall_mem_ofInt (by decide) (by decide) n

end Numeral

/-- So is a hexadecimal numeral. -/
theorem Hexadecimal.ascii_ofNat (width n : Nat) : (ofNat width n).Ascii := by
  induction width generalizing n with
  | zero => exact Text.ascii_nil
  | succ width ih =>
    have hdigit : (digit (n % 16)).Ascii := by
      rw [CodePoint.Ascii, digit, CodePoint.val_ofNat]
      split <;> omega
    exact Text.ascii_append.mpr ⟨ih (n / 16), Text.ascii_cons.mpr ⟨hdigit, Text.ascii_nil⟩⟩

namespace Text

/-- Whatever a unit is, its code is in ASCII. -/
theorem ascii_unitCode (unit : Nat) : (unitCode unit).Ascii := by
  have hletters : ∀ entry ∈ shortEscapes, Ascii [CodePoint.ofChar '\\', entry.2] := by decide
  rcases unitCode_cases unit with ⟨letter, hletter, hcode⟩ | ⟨hlow, hhigh, -, -, hcode⟩ | hcode
  · rw [hcode]
    exact hletters _ hletter
  · rw [hcode, ascii_cons, CodePoint.Ascii, CodePoint.val_ofNat, Nat.mod_eq_of_lt (by omega)]
    exact ⟨⟨hlow, hhigh⟩, ascii_nil⟩
  · rw [hcode, ascii_cons, ascii_cons]
    exact ⟨by decide, by decide, Hexadecimal.ascii_ofNat 4 unit⟩

/-- An escaped text is of ASCII, whatever its units are. -/
@[simp] theorem ascii_tokenOf (units : List Nat) : (tokenOf units).Ascii := by
  have hquote : Ascii [CodePoint.ofChar '"'] := ascii_cons.mpr ⟨by decide, ascii_nil⟩
  have hunits := ascii_flatMap fun unit (_ : unit ∈ units) => ascii_unitCode unit
  exact ascii_append.mpr ⟨ascii_append.mpr ⟨hquote, hunits⟩, hquote⟩

/-- The token of any text is in ASCII, surrogates that stand alone being written by their numbers. -/
@[simp] theorem ascii_escaped (t : Text) : t.escaped.Ascii := by
  rw [escaped_eq_tokenOf]
  exact ascii_tokenOf _

end Text

/-- The text of a finite double is of ASCII. -/
theorem Finite64.ascii_toText (x : Finite64) : x.toText.Ascii :=
  fun c hc => ascii_of_inDecimal (List.all_eq_true.mp x.marked_toText.all_inDecimal c hc)

namespace Json

/-- So is the text of any double. -/
theorem ascii_floatText (x : Binary64) : (floatText x).Ascii := by
  cases x with
  | finite x => exact x.ascii_toText
  | nan => decide
  | infinite negative => cases negative <;> decide

mutual

/-- A document is written in ASCII. -/
theorem ascii_compact (value : Json) : value.compact.Ascii := by
  have hbrackets : Text.Ascii "[" ∧ Text.Ascii "]" ∧ Text.Ascii "\x7b" ∧ Text.Ascii "\x7d" := by decide
  cases value with
  | null => decide
  | bool b => cases b <;> decide
  | int n => exact Numeral.ascii_ofInt n
  | float x => exact ascii_floatText x
  | text t => exact Text.ascii_escaped t
  | list items => simp [compact, hbrackets, ascii_compactItems items]
  | object fields => simp [compact, hbrackets, ascii_compactFields fields]

/-- The items of a list on one line are of ASCII. -/
theorem ascii_compactItems (items : List Json) : (compactItems items).Ascii := by
  have hseparator : Text.Ascii ", " := by decide
  match items with
  | [] => exact Text.ascii_nil
  | [item] => exact ascii_compact item
  | item :: next :: rest =>
    rw [compactItems]
    · simp [hseparator, ascii_compact item, ascii_compactItems (next :: rest)]
    · simp

/-- The fields of an object on one line are of ASCII. -/
theorem ascii_compactFields (fields : List (Text × Json)) : (compactFields fields).Ascii := by
  have hseparators : Text.Ascii ", " ∧ Text.Ascii ": " := by decide
  match fields with
  | [] => exact Text.ascii_nil
  | [(key, value)] => simp [compactFields, hseparators, ascii_compact value]
  | (key, value) :: next :: rest =>
    rw [compactFields]
    · simp [hseparators, ascii_compact value, ascii_compactFields (next :: rest)]
    · simp

end

end Json

/-- A digest in hexadecimal digits is of ASCII. -/
theorem Sha256.ascii_hexDigest (message : List UInt8) : (hexDigest message).Ascii :=
  Text.ascii_flatMap fun _ _ => Hexadecimal.ascii_ofNat 8 _

/-- Texts in ASCII have a fingerprint, which is in ASCII. -/
theorem Fingerprint.exists_ofParts (parts : List Text) (h : ∀ part ∈ parts, part.Ascii) :
    ∃ f, ofParts parts = .ok f ∧ f.Ascii := by
  have hpreimage : (preimage parts).Ascii := Text.ascii_join (by decide) h
  obtain ⟨octets, hoctets⟩ := Utf8.exists_encode hpreimage.encodable
  refine ⟨(Sha256.hexDigest octets).take 16, by rw [ofParts, hoctets]; rfl, ?_⟩
  exact fun c hc => Sha256.ascii_hexDigest octets c (List.mem_of_mem_take hc)

end TermText
