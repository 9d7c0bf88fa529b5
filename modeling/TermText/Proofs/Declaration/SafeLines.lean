import TermText.Proofs.Declaration.AsciiLists
import TermText.Proofs.Text.Reader

/-!
# Encodings are safe lines

The rendering of whatever is encoded is a safe line: in ASCII, with the parenthesis that opens it closed at
its end and at no earlier point, and with exactly the string tokens that were written for the texts in it,
be there quotes, parentheses, controls or surrogates in them. For atoms hold nothing that a reader stops at,
and a token is left only at its end.
-/

namespace TermText

open Reader

/-- An atom is quiet. -/
theorem Atom.quiet_of_isValid {t : Text} (h : isValid t = true) : t.Quiet := by
  have hforbidden : isForbidden (CodePoint.ofChar '(') = true ∧ isForbidden (CodePoint.ofChar ')') = true ∧
      isForbidden (CodePoint.ofChar '"') = true := by
    decide
  intro c hc
  have hfree := not_forbidden h c hc
  refine ⟨?_, ?_, ?_⟩ <;> rintro rfl
  · exact absurd (hforbidden.1.symm.trans hfree) (by decide)
  · exact absurd (hforbidden.2.1.symm.trans hfree) (by decide)
  · exact absurd (hforbidden.2.2.symm.trans hfree) (by decide)

namespace Json

mutual

/-- The texts of a document as they are written, keys in front of their values. -/
def texts : Json → List Text
  | .text t => [t]
  | .list items => textsOfItems items
  | .object fields => textsOfFields fields
  | _ => []

/-- The texts of several documents. -/
def textsOfItems : List Json → List Text
  | [] => []
  | item :: rest => texts item ++ textsOfItems rest

/-- The texts of several fields. -/
def textsOfFields : List (Text × Json) → List Text
  | [] => []
  | (key, value) :: rest => key :: (texts value ++ textsOfFields rest)

end

/-- The text of a double opens and closes nothing. -/
theorem quiet_floatText (x : Binary64) : (floatText x).Quiet := by
  cases x with
  | finite x => exact Atom.quiet_of_isValid x.isValid_toText
  | nan => decide
  | infinite negative => cases negative <;> decide

mutual

/-- A document is balanced, and its tokens are those of its texts: brackets and braces are quiet. -/
theorem balanced_compact (value : Json) : Balanced value.compact (value.texts.map Text.escaped) := by
  have hbrackets : Text.Quiet "[" ∧ Text.Quiet "]" ∧ Text.Quiet "\x7b" ∧ Text.Quiet "\x7d" := by decide
  cases value with
  | null => exact balanced_of_quiet (show Text.Quiet "null" by decide)
  | bool b =>
    cases b with
    | true => exact balanced_of_quiet (show Text.Quiet "true" by decide)
    | false => exact balanced_of_quiet (show Text.Quiet "false" by decide)
  | int n => exact balanced_of_quiet (Atom.quiet_of_isValid (Numeral.isValid_ofInt n))
  | float x => exact balanced_of_quiet (quiet_floatText x)
  | text t => exact balanced_escaped t
  | list items =>
    rw [compact, texts]
    exact ((balanced_compactItems items).after_quiet hbrackets.1).before_quiet hbrackets.2.1
  | object fields =>
    rw [compact, texts]
    exact ((balanced_compactFields fields).after_quiet hbrackets.2.2.1).before_quiet hbrackets.2.2.2

/-- The items of a list on one line are balanced. -/
theorem balanced_compactItems (items : List Json) :
    Balanced (compactItems items) ((textsOfItems items).map Text.escaped) := by
  have hseparator : Text.Quiet ", " := by decide
  match items with
  | [] => exact balanced_of_quiet (List.forall_mem_nil _)
  | [item] =>
    rw [textsOfItems, textsOfItems, List.append_nil]
    exact balanced_compact item
  | item :: next :: rest =>
    rw [compactItems, textsOfItems, List.map_append]
    · exact ((balanced_compact item).before_quiet hseparator).append (balanced_compactItems (next :: rest))
    · simp

/-- The fields of an object on one line are balanced. -/
theorem balanced_compactFields (fields : List (Text × Json)) :
    Balanced (compactFields fields) ((textsOfFields fields).map Text.escaped) := by
  have hseparators : Text.Quiet ", " ∧ Text.Quiet ": " := by decide
  match fields with
  | [] => exact balanced_of_quiet (List.forall_mem_nil _)
  | [(key, value)] =>
    rw [compactFields, textsOfFields, textsOfFields, List.append_nil]
    exact ((balanced_escaped key).before_quiet hseparators.2).append (balanced_compact value)
  | (key, value) :: next :: rest =>
    rw [compactFields, textsOfFields, List.map_cons, List.map_append]
    · have hfirst := ((balanced_escaped key).before_quiet hseparators.2).append (balanced_compact value)
      exact (hfirst.before_quiet hseparators.1).append (balanced_compactFields (next :: rest))
    · simp

end

end Json

namespace Value

mutual

/-- The texts of a value as they are written, from left to right, those of documents included. -/
def texts : Value → List Text
  | .text t => [t]
  | .list items => textsOfItems items
  | .document given => given.texts
  | _ => []

/-- The texts of several values. -/
def textsOfItems : List Value → List Text
  | [] => []
  | item :: rest => texts item ++ textsOfItems rest

end

mutual

/-- A value is balanced, and its tokens are those of its texts. -/
theorem balanced_render (v : Value) : Balanced v.render (v.texts.map Text.escaped) := by
  cases v with
  | atom a => exact balanced_of_quiet (Atom.quiet_of_isValid a.valid)
  | text t => exact balanced_escaped t
  | int n => exact balanced_of_quiet (Atom.quiet_of_isValid (Numeral.isValid_ofInt n))
  | float x => exact balanced_of_quiet (Atom.quiet_of_isValid x.isValid_toText)
  | list items => exact (balanced_renderItems items).parenthesized
  | document given => exact given.balanced_compact

/-- The rendered items of a list are balanced. -/
theorem balanced_renderItems (items : List Value) :
    Balanced (renderItems items) ((textsOfItems items).map Text.escaped) := by
  have hspace : Text.Quiet " " := by decide
  match items with
  | [] => exact balanced_of_quiet (List.forall_mem_nil _)
  | [item] =>
    rw [textsOfItems, textsOfItems, List.append_nil]
    exact balanced_render item
  | item :: next :: rest =>
    rw [renderItems, textsOfItems, List.map_append]
    · exact ((balanced_render item).before_quiet hspace).append (balanced_renderItems (next :: rest))
    · simp

end

/-- A list in ASCII is rendered as a safe line with the tokens of its texts. -/
theorem AsciiList.safeLine {v : Value} (h : v.AsciiList) :
    v.render.SafeLine (v.texts.map Text.escaped) := by
  have hascii := h.ascii_render
  obtain ⟨⟨items, rfl⟩, -⟩ := h
  exact (balanced_renderItems items).safeLine hascii

end Value

/-- Every term, declaration and module of the model has an encoding, and whatever has one, its rendering is a
safe line: in ASCII, read with all parentheses closed at its end and one open at every point before it, and
with the tokens that were written for its texts, each of which ends at its first quote behind no backslash. -/
theorem encodings_are_safe_lines :
    (∀ t : Term, (t.InModel → ∃ v, t.encode = .ok v) ∧
      ∀ v, t.encode = .ok v → v.render.SafeLine (v.texts.map Text.escaped)) ∧
    (∀ d : Declaration, (d.InModel → ∃ v, d.encode = .ok v) ∧
      ∀ v, d.encode = .ok v → v.render.SafeLine (v.texts.map Text.escaped)) ∧
    ∀ (internal : Name → Bool) (m : Module), (m.InModel internal → ∃ v, m.encode internal = .ok v) ∧
      ∀ v, m.encode internal = .ok v → v.render.SafeLine (v.texts.map Text.escaped) := by
  refine ⟨fun t => ⟨fun h => ?_, fun v hv => ?_⟩, fun d => ⟨fun h => ?_, fun v hv => ?_⟩,
    fun internal m => ⟨fun h => ?_, fun v hv => ?_⟩⟩
  · obtain ⟨v, hv, -⟩ := t.encode_spells h
    exact ⟨v, hv⟩
  · exact (t.asciiList_encode v hv).safeLine
  · obtain ⟨v, hv, -⟩ := h.exists_ascii
    exact ⟨v, hv⟩
  · exact (d.asciiList_encode v hv).safeLine
  · obtain ⟨v, hv, -⟩ := h.exists_ascii
    exact ⟨v, hv⟩
  · exact (m.asciiList_encode internal v hv).safeLine

/-- A text of a quote, a backslash, controls, parentheses, a line separator, a code point above U+FFFF and a
surrogate that stands alone, as a literal, as the name of a declaration and as that of a module. -/
theorem safe_lines_of_hostile_text :
    let hostile : Text := [0x22, 0x5C, 0x0A, 0x29, 0x28, 0x7F, 0x2028, 0x1F600, 0xD800]
    let name : Name := .extend .anonymous (.text hostile) (.int 7)
    let t : Term := .text 0 hostile
    let d : Declaration := .mk name t .assumption
    let m : Module := ⟨name, [d]⟩
    ∃ v w u, t.encode = .ok v ∧ v.render.SafeLine [hostile.escaped] ∧
      d.encode = .ok w ∧ w.render.SafeLine [hostile.escaped, hostile.escaped] ∧
      m.encode (fun _ => false) = .ok u ∧
        u.render.SafeLine [hostile.escaped, hostile.escaped, hostile.escaped] := by
  intro hostile name t d m
  obtain ⟨hterms, hdeclarations, hmodules⟩ := encodings_are_safe_lines
  have hname : name.Numbered := ⟨⟨_, rfl⟩, _, rfl⟩
  have hd : d.InModel := ⟨hname, trivial, trivial⟩
  obtain ⟨v, hv⟩ := (hterms t).1 trivial
  obtain ⟨w, hw⟩ := (hdeclarations d).1 hd
  obtain ⟨u, hu⟩ := (hmodules (fun _ => false) m).1 ⟨hname, List.forall_mem_singleton.mpr hd⟩
  let n : Value := .tagged .name [.int 1723, .int 7, .text hostile]
  let definition : Value := .tagged .definition [n, .tagged .literal [.text hostile], .tagged .assumption []]
  have hliteral : t.encode = .ok (.tagged .literal [.text hostile]) := by
    rw [Term.encode]
  have hdefinition : d.encode = .ok definition := by
    simp only [d, Declaration.encode, Declaration.encodePayload, hliteral]
    rfl
  have hall : Declaration.encodeAll [d] = .ok [definition] := by
    simp only [Declaration.encodeAll, hdefinition]
    rfl
  have hmodule : m.encode (fun _ => false) = .ok (.tagged .module [.tagged .moduleName [n], definition]) :=
    congrArg (Module.encodeWith name) hall
  obtain rfl := Except.ok.inj (hliteral.symm.trans hv)
  obtain rfl := Except.ok.inj (hdefinition.symm.trans hw)
  obtain rfl := Except.ok.inj (hmodule.symm.trans hu)
  exact ⟨_, _, _, hv, (hterms t).2 _ hv, hw, (hdeclarations d).2 _ hw, hu, (hmodules _ m).2 _ hu⟩

end TermText
