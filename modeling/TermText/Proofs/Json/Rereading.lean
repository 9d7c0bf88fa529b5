import TermText.Json.Printer
import TermText.Proofs.Json.Fields
import TermText.Proofs.Json.Tokens
import TermText.Proofs.Text.Parts

/-!
# Documents that are read back

A document is read back as it was written if its integers are not too long to be read, its texts hold no
pairs of surrogates, which would be joined, and no object has a key twice, of which only one would be kept.
Documents with doubles are left out here, as no figure that is reported is one.

The two layouts, on one line and with each item on a line of its own, differ in the blanks between tokens, which
are skipped. So what is shown is that a text spells a value: the value is read there by itself, whatever
follows. The fuel of the reader bounds the nesting and the items, so the length of the text is enough.
-/

namespace TermText.Json

open Json.Parser

/-- A document that is read back as it was written. -/
inductive Rereadable : Json → Prop
  | null : Rereadable .null
  | bool (b : Bool) : Rereadable (.bool b)
  | int {n : Int} (hn : Numeral.Fits n) : Rereadable (.int n)
  | text {t : Text} (ht : t.Unpaired) : Rereadable (.text t)
  | list {items : List Json} (hitems : ∀ item ∈ items, Rereadable item) : Rereadable (.list items)
  | object {fields : Fields} (hkeys : (fields.map Prod.fst).Nodup)
      (htexts : ∀ key ∈ fields.map Prod.fst, key.Unpaired) (hvalues : ∀ field ∈ fields, Rereadable field.2) :
      Rereadable (.object fields)

/-- An integer can be read back if it is not too long. -/
theorem rereadable_int_iff {n : Int} : (Json.int n).Rereadable ↔ Numeral.Fits n :=
  ⟨fun h => by cases h; assumption, .int⟩

/-- A text can be read back if it holds no pair of surrogates. -/
theorem rereadable_text_iff {t : Text} : (Json.text t).Rereadable ↔ t.Unpaired :=
  ⟨fun h => by cases h; assumption, .text⟩

/-- A list can be read back if its items can. -/
theorem rereadable_list_iff {items : List Json} :
    (Json.list items).Rereadable ↔ ∀ item ∈ items, item.Rereadable :=
  ⟨fun h => by cases h; assumption, .list⟩

/-- An object can be read back if its values can, no key comes twice and none holds a pair of surrogates. -/
theorem rereadable_object_iff {fields : Fields} : (Json.object fields).Rereadable ↔
    (fields.map Prod.fst).Nodup ∧ (∀ key ∈ fields.map Prod.fst, key.Unpaired) ∧
      ∀ field ∈ fields, field.2.Rereadable :=
  ⟨fun h => by cases h; exact ⟨‹_›, ‹_›, ‹_›⟩, fun ⟨hkeys, htexts, hvalues⟩ => .object hkeys htexts hvalues⟩

namespace Parser

/-- A code point that begins a token: no blank, no bracket or brace that closes, no byte order mark. -/
def Opens (c : CodePoint) : Prop :=
  isSpace c = false ∧ c.val ≠ 0x5D ∧ c.val ≠ 0x7D ∧ c.val ≠ 0xFEFF

/-- Whether a value may begin with a code point is decided by looking at it. -/
instance (c : CodePoint) : Decidable (Opens c) :=
  inferInstanceAs (Decidable (_ ∧ _ ∧ _ ∧ _))

/-- A text that begins with a token. -/
def Starts (t : Text) : Prop :=
  ∃ c more, t = c :: more ∧ Opens c

/-- Nothing is skipped before a token. -/
theorem Starts.skipSpace_eq {t : Text} (h : Starts t) (rest : Text) : skipSpace (t ++ rest) = t ++ rest := by
  obtain ⟨c, more, rfl, hspace, -⟩ := h
  exact List.dropWhile_cons_of_neg (by rw [hspace]; decide)

/-- A list or an object is not closed at a token. -/
theorem Starts.head?_ne {t : Text} (h : Starts t) (rest : Text) :
    (t ++ rest).head? ≠ some (CodePoint.ofChar ']') ∧ (t ++ rest).head? ≠ some (CodePoint.ofChar '\x7d') := by
  obtain ⟨c, more, rfl, -, hbracket, hbrace, -⟩ := h
  exact ⟨fun heq => hbracket (congrArg Fin.val (Option.some_inj.mp heq)),
    fun heq => hbrace (congrArg Fin.val (Option.some_inj.mp heq))⟩

/-- Blanks between two tokens. -/
def Blank (gap : Text) : Prop :=
  ∀ c ∈ gap, isSpace c = true

/-- Blanks are skipped. -/
theorem Blank.skipSpace_append {gap : Text} (h : Blank gap) (rest : Text) :
    skipSpace (gap ++ rest) = skipSpace rest :=
  List.dropWhile_append_of_pos h

/-- The blanks before a token are skipped. -/
theorem Starts.skipSpace_blank {gap t : Text} (h : Starts t) (hgap : Blank gap) (rest : Text) :
    skipSpace (gap ++ (t ++ rest)) = t ++ rest :=
  (hgap.skipSpace_append _).trans (h.skipSpace_eq rest)

/-- A text that begins with another begins with its token. -/
theorem Starts.append {t : Text} (h : Starts t) (rest : Text) : Starts (t ++ rest) := by
  obtain ⟨c, more, rfl, hc⟩ := h
  exact ⟨c, more ++ rest, rfl, hc⟩

/-- Nothing is skipped before a separator or a bracket. -/
theorem skipSpace_of_ne {c : CodePoint} (h : isSpace c = false) (rest : Text) :
    skipSpace (c :: rest) = c :: rest :=
  List.dropWhile_cons_of_neg (by rw [h]; decide)

/-- A quoted text starts a value. -/
theorem starts_escaped (t : Text) : Starts t.escaped :=
  ⟨CodePoint.ofChar '"', _, rfl, by decide⟩

section

variable {fuel : Nat} {t left rest last : Text} {key : Text} {item : Json}

/-- A list ends behind an item that a bracket follows. -/
theorem elements_last (hitem : value fuel t = .ok (item, left))
    (hleft : skipSpace left = CodePoint.ofChar ']' :: rest) :
    elements (fuel + 1) t = .ok ([item], rest) := by
  simp only [elements, bind, Except.bind, hitem, hleft]
  exact if_pos rfl

/-- A list goes on behind an item that a comma follows. -/
theorem elements_comma {items : List Json} (hitem : value fuel t = .ok (item, left))
    (hleft : skipSpace left = CodePoint.ofChar ',' :: rest)
    (hmore : elements fuel (skipSpace rest) = .ok (items, last)) :
    elements (fuel + 1) t = .ok (item :: items, last) := by
  simp only [elements, bind, Except.bind, hitem, hleft, hmore]
  exact if_neg (by decide)

/-- The key of a field is read up to the colon. -/
theorem exists_key (hkey : key.Unpaired) (rest : Text) :
    ∃ body, key.escaped ++ CodePoint.ofChar ':' :: rest = CodePoint.ofChar '"' :: body ∧
      string body = .ok (key, CodePoint.ofChar ':' :: rest) ∧
      skipSpace (CodePoint.ofChar ':' :: rest) = CodePoint.ofChar ':' :: rest := by
  obtain ⟨body, hbody, hstring⟩ := string_escaped key (CodePoint.ofChar ':' :: rest)
  rw [hkey.joinPairs_eq] at hstring
  exact ⟨body, hbody, hstring, skipSpace_of_ne (by decide) rest⟩

/-- An object ends behind a field that a brace follows. -/
theorem members_last (hkey : key.Unpaired) (hitem : value fuel (skipSpace t) = .ok (item, left))
    (hleft : skipSpace left = CodePoint.ofChar '\x7d' :: rest) :
    members (fuel + 1) (key.escaped ++ CodePoint.ofChar ':' :: t) = .ok ([(key, item)], rest) := by
  obtain ⟨body, hbody, hstring, hcolon⟩ := exists_key hkey t
  rw [hbody, members, if_pos rfl, hstring]
  simp only [bind, Except.bind, hcolon, if_true, hitem, hleft]
  exact if_pos rfl

/-- An object goes on behind a field that a comma follows. -/
theorem members_comma {fields : Fields} (hkey : key.Unpaired)
    (hitem : value fuel (skipSpace t) = .ok (item, left))
    (hleft : skipSpace left = CodePoint.ofChar ',' :: rest)
    (hmore : members fuel (skipSpace rest) = .ok (fields, last)) :
    members (fuel + 1) (key.escaped ++ CodePoint.ofChar ':' :: t) = .ok ((key, item) :: fields, last) := by
  obtain ⟨body, hbody, hstring, hcolon⟩ := exists_key hkey t
  rw [hbody, members, if_pos rfl, hstring]
  simp only [bind, Except.bind, hcolon, if_true, hitem, hleft, hmore]
  exact if_neg (by decide)

end

/-- A comma or what closes the whole follows an item or a field. -/
theorem ends_cons {c : CodePoint}
    (h : c = CodePoint.ofChar ',' ∨ c = CodePoint.ofChar ']' ∨ c = CodePoint.ofChar '\x7d') (rest : Text) :
    Ends (c :: rest) := by
  intro d hd
  cases hd
  exact .inr h

/-- Before it there may be blanks. -/
theorem ends_blank {gap : Text} (hgap : Blank gap) {c : CodePoint}
    (h : c = CodePoint.ofChar ',' ∨ c = CodePoint.ofChar ']' ∨ c = CodePoint.ofChar '\x7d') (rest : Text) :
    Ends (gap ++ c :: rest) := by
  intro d hd
  cases gap with
  | nil => exact ends_cons h rest d hd
  | cons blank gap =>
    cases hd
    exact .inl (hgap _ List.mem_cons_self)

/-- Behind blanks there stands what closes a list or an object. -/
theorem Blank.skipSpace_closing {gap : Text} (h : Blank gap) {c : CodePoint} (hc : isSpace c = false)
    (rest : Text) : skipSpace (gap ++ c :: rest) = c :: rest :=
  (h.skipSpace_append _).trans (skipSpace_of_ne hc rest)

/-- A text that spells a value: the value is read where the text stands, up to where it ends. -/
structure Spells (v : Json) (t : Text) : Prop where
  starts : Starts t
  reads : ∀ (fuel : Nat) (rest : Text), t.length ≤ fuel → Ends rest → value fuel (t ++ rest) = .ok (v, rest)

/-- A text that spells a field: its key, and its value behind a colon and a blank. -/
def SpellsField (field : Text × Json) (t : Text) : Prop :=
  field.1.Unpaired ∧ ∃ u, Spells field.2 u ∧
    t = field.1.escaped ++ CodePoint.ofChar ':' :: CodePoint.ofChar ' ' :: u

/-- A field begins with the quote of its key. -/
theorem SpellsField.starts {field : Text × Json} {t : Text} (h : SpellsField field t) : Starts t := by
  obtain ⟨-, u, -, rfl⟩ := h
  exact (starts_escaped field.1).append _

/-- What is joined begins with the token of the first. -/
theorem starts_join (separator : Text) {t : Text} (h : Starts t) (more : List Text) :
    Starts (Text.join separator (t :: more)) := by
  cases more with
  | nil => exact h
  | cons next more =>
    rw [Text.join_cons_cons, List.append_assoc]
    exact h.append _

section Layout

variable {gap opening closing : Text} {texts : List Text}

/-- Items with commas and blanks between them are read one after another up to the closing bracket. -/
theorem elements_join (hgap : Blank gap) (hclosing : Blank closing) {items : List Json}
    (h : List.Forall₂ Spells items texts) (hne : items ≠ []) (fuel : Nat)
    (hfuel : (Text.join (CodePoint.ofChar ',' :: gap) texts).length < fuel) (rest : Text) :
    elements fuel (Text.join (CodePoint.ofChar ',' :: gap) texts ++ (closing ++ CodePoint.ofChar ']' :: rest)) =
      .ok (items, rest) := by
  induction h generalizing fuel with
  | nil => exact absurd rfl hne
  | @cons item t more texts hitem hmore ih =>
    obtain ⟨fuel, rfl⟩ := Nat.exists_eq_add_of_le' (Nat.zero_lt_of_lt hfuel)
    have hfuel := Nat.le_of_lt_succ hfuel
    cases hmore with
    | nil =>
      exact elements_last (hitem.reads fuel _ hfuel (ends_blank hclosing (.inr (.inl rfl)) rest))
        (hclosing.skipSpace_closing (by decide) rest)
    | @cons next u more texts hnext hmore =>
      have hstarts := starts_join (CodePoint.ofChar ',' :: gap) hnext.starts texts
      rw [Text.join_cons_cons] at hfuel ⊢
      simp only [List.length_append, List.length_cons] at hfuel
      rw [List.append_assoc, List.append_assoc, List.cons_append]
      apply elements_comma (hitem.reads fuel _ (by omega) (ends_cons (.inl rfl) _))
        (skipSpace_of_ne (by decide) _)
      exact (congrArg (elements fuel) (hstarts.skipSpace_blank hgap _)).trans
        (ih (List.cons_ne_nil next more) fuel (by omega))

/-- Fields with commas and blanks between them are read one after another up to the closing brace. -/
theorem members_join (hgap : Blank gap) (hclosing : Blank closing) {fields : Fields}
    (h : List.Forall₂ SpellsField fields texts) (hne : fields ≠ []) (fuel : Nat)
    (hfuel : (Text.join (CodePoint.ofChar ',' :: gap) texts).length < fuel) (rest : Text) :
    members fuel
        (Text.join (CodePoint.ofChar ',' :: gap) texts ++ (closing ++ CodePoint.ofChar '\x7d' :: rest)) =
      .ok (fields, rest) := by
  induction h generalizing fuel with
  | nil => exact absurd rfl hne
  | @cons field t more texts hfield hmore ih =>
    obtain ⟨key, item⟩ := field
    obtain ⟨hkey, u, hitem, rfl⟩ := hfield
    obtain ⟨fuel, rfl⟩ := Nat.exists_eq_add_of_le' (Nat.zero_lt_of_lt hfuel)
    have hfuel := Nat.le_of_lt_succ hfuel
    -- the value is read behind the blank after the colon
    have hblank : Blank [CodePoint.ofChar ' '] := List.forall_mem_singleton.mpr (by decide)
    have hvalue : ∀ left, u.length ≤ fuel → Ends left →
        value fuel (skipSpace (CodePoint.ofChar ' ' :: (u ++ left))) = .ok (item, left) :=
      fun left hlength hleft => (congrArg (value fuel) (hitem.starts.skipSpace_blank hblank left)).trans
        (hitem.reads fuel left hlength hleft)
    cases hmore with
    | nil =>
      rw [Text.join] at hfuel ⊢
      simp only [List.length_append, List.length_cons] at hfuel
      rw [List.append_assoc]
      exact members_last hkey (hvalue _ (by omega) (ends_blank hclosing (.inr (.inr rfl)) rest))
        (hclosing.skipSpace_closing (by decide) rest)
    | @cons next w more texts hnext hmore =>
      have hstarts := starts_join (CodePoint.ofChar ',' :: gap) hnext.starts texts
      rw [Text.join_cons_cons] at hfuel ⊢
      simp only [List.length_append, List.length_cons] at hfuel
      simp only [List.append_assoc, List.cons_append]
      apply members_comma hkey (hvalue _ (by omega) (ends_cons (.inl rfl) _))
        (skipSpace_of_ne (by decide) _)
      exact (congrArg (members fuel) (hstarts.skipSpace_blank hgap _)).trans
        (ih (List.cons_ne_nil next more) fuel (by omega))

/-- A bracket opens a list of the items that are read behind it. -/
theorem value_list {fuel : Nat} {t rest left : Text} {items : List Json} (hopening : Blank opening)
    (ht : Starts t) (hitems : elements fuel (t ++ rest) = .ok (items, left)) :
    value (fuel + 1) (CodePoint.ofChar '[' :: (opening ++ (t ++ rest))) = .ok (.list items, left) :=
  calc value (fuel + 1) (CodePoint.ofChar '[' :: (opening ++ (t ++ rest)))
      = if (skipSpace (opening ++ (t ++ rest))).head? = some (CodePoint.ofChar ']') then _
        else elements fuel (skipSpace (opening ++ (t ++ rest))) >>= fun read =>
          .ok (.list read.1, read.2) := rfl
    _ = elements fuel (t ++ rest) >>= fun read => .ok (.list read.1, read.2) := by
      rw [ht.skipSpace_blank hopening, if_neg (ht.head?_ne rest).1]
    _ = .ok (.list items, left) := by rw [hitems]; rfl

/-- A brace opens an object of the fields that are read behind it, if no key comes twice. -/
theorem value_object {fuel : Nat} {t rest left : Text} {fields : Fields} (hopening : Blank opening)
    (hkeys : (fields.map Prod.fst).Nodup) (ht : Starts t)
    (hfields : members fuel (t ++ rest) = .ok (fields, left)) :
    value (fuel + 1) (CodePoint.ofChar '\x7b' :: (opening ++ (t ++ rest))) = .ok (.object fields, left) :=
  calc value (fuel + 1) (CodePoint.ofChar '\x7b' :: (opening ++ (t ++ rest)))
      = if (skipSpace (opening ++ (t ++ rest))).head? = some (CodePoint.ofChar '\x7d') then _
        else members fuel (skipSpace (opening ++ (t ++ rest))) >>= fun read =>
          .ok (.object (Fields.insertAll [] read.1), read.2) := rfl
    _ = members fuel (t ++ rest) >>= fun read => .ok (.object (Fields.insertAll [] read.1), read.2) := by
      rw [ht.skipSpace_blank hopening, if_neg (ht.head?_ne rest).2]
    _ = .ok (.object (Fields.insertAll [] fields), left) := by rw [hfields]; rfl
    _ = .ok (.object fields, left) :=
      congrArg (fun kept => Except.ok (Json.object kept, left)) (Fields.insertAll_of_nodup hkeys)

/-- Items between brackets spell a list. -/
theorem Spells.list (hopening : Blank opening) (hgap : Blank gap) (hclosing : Blank closing)
    {items : List Json} (h : List.Forall₂ Spells items texts) (hne : items ≠ []) :
    Spells (.list items) (CodePoint.ofChar '[' ::
      (opening ++ (Text.join (CodePoint.ofChar ',' :: gap) texts ++ (closing ++ [CodePoint.ofChar ']'])))) := by
  refine ⟨⟨_, _, rfl, by decide⟩, fun fuel rest hfuel _ => ?_⟩
  simp only [List.length_cons, List.length_append] at hfuel
  obtain ⟨fuel, rfl⟩ := Nat.exists_eq_add_of_le' (Nat.le_trans (Nat.le_add_left 1 _) hfuel)
  simp only [List.cons_append, List.append_assoc, List.nil_append]
  have hread := elements_join hgap hclosing h hne fuel (by omega) rest
  cases h with
  | nil => exact absurd rfl hne
  | cons hitem hmore => exact value_list hopening (starts_join _ hitem.starts _) hread

/-- Fields between braces spell an object, if no key comes twice. -/
theorem Spells.object (hopening : Blank opening) (hgap : Blank gap) (hclosing : Blank closing)
    {fields : Fields} (hkeys : (fields.map Prod.fst).Nodup) (h : List.Forall₂ SpellsField fields texts)
    (hne : fields ≠ []) :
    Spells (.object fields) (CodePoint.ofChar '\x7b' ::
      (opening ++ (Text.join (CodePoint.ofChar ',' :: gap) texts ++
        (closing ++ [CodePoint.ofChar '\x7d'])))) := by
  refine ⟨⟨_, _, rfl, by decide⟩, fun fuel rest hfuel _ => ?_⟩
  simp only [List.length_cons, List.length_append] at hfuel
  obtain ⟨fuel, rfl⟩ := Nat.exists_eq_add_of_le' (Nat.le_trans (Nat.le_add_left 1 _) hfuel)
  simp only [List.cons_append, List.append_assoc, List.nil_append]
  have hread := members_join hgap hclosing h hne fuel (by omega) rest
  cases h with
  | nil => exact absurd rfl hne
  | cons hfield hmore => exact value_object hopening hkeys (starts_join _ hfield.starts _) hread

/-- Brackets spell the list of no items. -/
theorem spells_nil_list : Spells (.list []) "[]" := by
  refine ⟨⟨_, _, rfl, by decide⟩, fun fuel rest hfuel _ => ?_⟩
  obtain ⟨fuel, rfl⟩ := Nat.exists_eq_add_of_le' (Nat.le_trans (by decide : 1 ≤ 2) hfuel)
  rfl

/-- Braces spell the object of no fields. -/
theorem spells_nil_object : Spells (.object []) "\x7b\x7d" := by
  refine ⟨⟨_, _, rfl, by decide⟩, fun fuel rest hfuel _ => ?_⟩
  obtain ⟨fuel, rfl⟩ := Nat.exists_eq_add_of_le' (Nat.le_trans (by decide : 1 ≤ 2) hfuel)
  rfl

end Layout

/-- The token of a text spells it if it holds no pair of surrogates. -/
theorem spells_text {t : Text} (h : t.Unpaired) : Spells (.text t) t.escaped := by
  refine ⟨starts_escaped t, fun fuel rest hfuel _ => ?_⟩
  obtain ⟨body, hbody, hstring⟩ := string_escaped t rest
  rw [h.joinPairs_eq] at hstring
  obtain ⟨fuel, rfl⟩ := Nat.exists_eq_add_of_le' (Nat.le_trans (Nat.le_add_left 1 _) hfuel)
  calc value (fuel + 1) (t.escaped ++ rest)
      = value (fuel + 1) (CodePoint.ofChar '"' :: body) := congrArg (value (fuel + 1)) hbody
    _ = string body >>= fun read => .ok (.text read.1, read.2) := rfl
    _ = .ok (.text t, rest) := by rw [hstring]; rfl

/-- The numeral of an integer spells it if it is not too long. -/
theorem spells_int {n : Int} (h : Numeral.Fits n) : Spells (.int n) (Numeral.ofInt n) := by
  obtain ⟨c, more, heq⟩ := List.exists_cons_of_ne_nil (Numeral.ofInt_ne_nil n)
  have hopens : ∀ c ∈ Numeral.ofInt n, Opens c := Numeral.forall_mem_ofInt (by decide) (by decide) n
  refine ⟨⟨c, more, heq, hopens c (heq ▸ List.mem_cons_self)⟩, fun fuel rest hfuel hends => ?_⟩
  have hword := wordOrNumber_ofInt h hends
  have hplain : ∀ c ∈ Numeral.ofInt n, c ≠ CodePoint.ofChar '"' ∧ c.val ≠ 0x7B ∧ c.val ≠ 0x5B :=
    Numeral.forall_mem_ofInt (by decide) (by decide) n
  have hc := hplain c (heq ▸ List.mem_cons_self)
  rw [heq] at hword hfuel ⊢
  obtain ⟨fuel, rfl⟩ := Nat.exists_eq_add_of_le' (Nat.le_trans (Nat.le_add_left 1 _) hfuel)
  exact ((if_neg hc.1).trans ((if_neg hc.2.1).trans (if_neg hc.2.2))).trans hword

/-- The word for null spells it. -/
theorem spells_null : Spells .null "null" := by
  refine ⟨⟨CodePoint.ofChar 'n', _, rfl, by decide⟩, fun fuel rest hfuel _ => ?_⟩
  obtain ⟨fuel, rfl⟩ := Nat.exists_eq_add_of_le' (Nat.le_trans (by decide : 1 ≤ 4) hfuel)
  rfl

/-- The words for truth values spell them. -/
theorem spells_bool (b : Bool) : Spells (.bool b) (Json.bool b).compact := by
  cases b with
  | false =>
    refine ⟨⟨CodePoint.ofChar 'f', _, rfl, by decide⟩, fun fuel rest hfuel _ => ?_⟩
    obtain ⟨fuel, rfl⟩ := Nat.exists_eq_add_of_le' (Nat.le_trans (by decide : 1 ≤ 5) hfuel)
    rfl
  | true =>
    refine ⟨⟨CodePoint.ofChar 't', _, rfl, by decide⟩, fun fuel rest hfuel _ => ?_⟩
    obtain ⟨fuel, rfl⟩ := Nat.exists_eq_add_of_le' (Nat.le_trans (by decide : 1 ≤ 4) hfuel)
    rfl

/-- A text that spells a document is read as that document, also with blanks behind it. -/
theorem Spells.parse_eq {v : Json} {t : Text} (h : Spells v t) {gap : Text} (hgap : Blank gap) :
    parse (t ++ gap) = .ok v := by
  have hends : Ends gap := by
    intro c hc
    exact .inl (hgap c (List.mem_of_mem_head? hc))
  have hread : value (2 * (t ++ gap).length + 2) (t ++ gap) = .ok (v, gap) := by
    apply h.reads _ gap _ hends
    rw [List.length_append]
    omega
  have hleft : skipSpace gap = [] := List.dropWhile_eq_nil_iff.mpr hgap
  have hmark : ¬((t ++ gap).head?.any fun c => c.val = 0xFEFF) = true := by
    obtain ⟨c, more, rfl, -, -, -, hc⟩ := h.starts
    exact fun hany => hc (of_decide_eq_true hany)
  rw [parse, document, if_neg hmark, h.starts.skipSpace_eq]
  dsimp only
  rw [hread]
  dsimp only [bind, Except.bind]
  rw [hleft]

end Parser

section Layouts

/-- A field on one line: its key and its value with a colon between them. -/
def compactField (field : Text × Json) : Text :=
  field.1.escaped ++ CodePoint.ofChar ':' :: CodePoint.ofChar ' ' :: field.2.compact

/-- A field whose value is laid out at a depth. -/
def indentedField (depth : Nat) (field : Text × Json) : Text :=
  field.1.escaped ++ CodePoint.ofChar ':' :: CodePoint.ofChar ' ' :: field.2.indented depth

/-- Items on one line have a comma and a blank between them. -/
theorem compactItems_eq (items : List Json) : compactItems items = Text.join ", " (items.map compact) := by
  induction items with
  | nil => rw [compactItems]; rfl
  | cons item more ih =>
    cases more with
    | nil => rw [compactItems]; rfl
    | cons next more =>
      rw [compactItems, ih, List.map_cons, List.map_cons, List.map_cons, Text.join_cons_cons]
      exact List.cons_ne_nil next more

/-- Fields on one line have a comma and a blank between them. -/
theorem compactFields_eq (fields : Fields) :
    compactFields fields = Text.join ", " (fields.map compactField) := by
  induction fields with
  | nil => rw [compactFields]; rfl
  | cons field more ih =>
    have hfield : field.1.escaped ++ ": " ++ field.2.compact = compactField field := List.append_assoc ..
    cases more with
    | nil =>
      rw [compactFields, hfield]
      rfl
    | cons next more =>
      rw [compactFields, hfield, ih, List.map_cons, List.map_cons, List.map_cons, Text.join_cons_cons]
      exact List.cons_ne_nil next more

/-- Items on lines of their own have a comma and a line break between them. -/
theorem indentedItems_eq (depth : Nat) (items : List Json) : indentedItems depth items =
    Text.join (CodePoint.ofChar ',' :: lineBreak depth) (items.map (indented depth)) := by
  induction items with
  | nil => rw [indentedItems]; rfl
  | cons item more ih =>
    cases more with
    | nil => rw [indentedItems]; rfl
    | cons next more =>
      rw [indentedItems, ih, List.map_cons, List.map_cons, List.map_cons, Text.join_cons_cons,
        List.append_assoc (indented depth item)]
      · rfl
      · exact List.cons_ne_nil next more

/-- Fields on lines of their own have a comma and a line break between them. -/
theorem indentedFields_eq (depth : Nat) (fields : Fields) : indentedFields depth fields =
    Text.join (CodePoint.ofChar ',' :: lineBreak depth) (fields.map (indentedField depth)) := by
  induction fields with
  | nil => rw [indentedFields]; rfl
  | cons field more ih =>
    have hfield : field.1.escaped ++ ": " ++ field.2.indented depth = indentedField depth field :=
      List.append_assoc ..
    cases more with
    | nil =>
      rw [indentedFields, hfield]
      rfl
    | cons next more =>
      rw [indentedFields, hfield, ih, List.map_cons, List.map_cons, List.map_cons, Text.join_cons_cons,
        List.append_assoc (indentedField depth field)]
      · rfl
      · exact List.cons_ne_nil next more

/-- A line break is blank. -/
theorem blank_lineBreak (depth : Nat) : Parser.Blank (lineBreak depth) :=
  List.forall_mem_cons.mpr ⟨by decide, fun c hc => by rw [List.eq_of_mem_replicate hc]; decide⟩

/-- What is spelled one by one is spelled as a whole. -/
theorem forall₂_map_of_forall_mem {α β : Type} {R : α → β → Prop} {f : α → β} {l : List α}
    (h : ∀ a ∈ l, R a (f a)) : List.Forall₂ R l (l.map f) :=
  List.forall₂_map_right_iff.mpr (List.forall₂_same.mpr h)

/-- What is written of a document on one line spells it. -/
theorem Rereadable.spells_compact {v : Json} (h : v.Rereadable) : Parser.Spells v v.compact := by
  have hgap : Parser.Blank [CodePoint.ofChar ' '] := List.forall_mem_singleton.mpr (by decide)
  have hnone : Parser.Blank [] := List.forall_mem_nil _
  induction h with
  | null => exact Parser.spells_null
  | bool b => exact Parser.spells_bool b
  | int hn => exact Parser.spells_int hn
  | text ht => exact Parser.spells_text ht
  | @list items hitems ih =>
    rw [compact, compactItems_eq]
    cases items with
    | nil => exact Parser.spells_nil_list
    | cons item more =>
      exact Parser.Spells.list hnone hgap hnone (forall₂_map_of_forall_mem ih) (List.cons_ne_nil item more)
  | @object fields hkeys htexts hvalues ih =>
    rw [compact, compactFields_eq]
    cases fields with
    | nil => exact Parser.spells_nil_object
    | cons field more =>
      refine Parser.Spells.object hnone hgap hnone hkeys (forall₂_map_of_forall_mem fun field hfield => ?_)
        (List.cons_ne_nil field more)
      exact ⟨htexts field.1 (List.mem_map_of_mem hfield), _, ih field hfield, rfl⟩

/-- What is written of a document on lines spells it. -/
theorem Rereadable.spells_indented {v : Json} (h : v.Rereadable) (depth : Nat) :
    Parser.Spells v (v.indented depth) := by
  induction h generalizing depth with
  | null => exact Parser.spells_null
  | bool b => exact Parser.spells_bool b
  | int hn => exact Parser.spells_int hn
  | text ht => exact Parser.spells_text ht
  | @list items hitems ih =>
    cases items with
    | nil => exact Parser.spells_nil_list
    | cons item more =>
      rw [indented, indentedItems_eq]
      simp only [List.append_assoc]
      exact Parser.Spells.list (blank_lineBreak _) (blank_lineBreak _) (blank_lineBreak _)
        (forall₂_map_of_forall_mem fun item hitem => ih item hitem (depth + 1)) (List.cons_ne_nil item more)
  | @object fields hkeys htexts hvalues ih =>
    cases fields with
    | nil => exact Parser.spells_nil_object
    | cons field more =>
      rw [indented, indentedFields_eq]
      simp only [List.append_assoc]
      refine Parser.Spells.object (blank_lineBreak _) (blank_lineBreak _) (blank_lineBreak _) hkeys
        (forall₂_map_of_forall_mem fun field hfield => ?_) (List.cons_ne_nil field more)
      exact ⟨htexts field.1 (List.mem_map_of_mem hfield), _, ih field hfield (depth + 1), rfl⟩

end Layouts

/-- A document that can be read back is read as it was written on one line. -/
theorem parse_compact {v : Json} (h : v.Rereadable) : parse v.compact = .ok v := by
  have hparse := h.spells_compact.parse_eq (List.forall_mem_nil _)
  rwa [List.append_nil] at hparse

/-- A document that can be read back is read as it was written on lines, the last one with its end. -/
theorem parse_indented {v : Json} (h : v.Rereadable) : parse (v.indented 0 ++ [Text.newline]) = .ok v :=
  (h.spells_indented 0).parse_eq (List.forall_mem_singleton.mpr (by decide))

/-- An object of keys that differ, with values that can be read back. -/
theorem Rereadable.zip (keys : List Text) {values : List Json} (hlength : keys.length ≤ values.length)
    (hkeys : keys.Nodup ∧ ∀ key ∈ keys, key.Unpaired) (hvalues : ∀ v ∈ values, v.Rereadable) :
    (Json.object (keys.zip values)).Rereadable := by
  apply Rereadable.object
  · rw [List.map_fst_zip hlength]
    exact hkeys.1
  · rw [List.map_fst_zip hlength]
    exact hkeys.2
  · intro field hfield
    exact hvalues field.2 (List.of_mem_zip hfield).2

/-- Sorting the keys within items sorts them within each. -/
theorem sortKeysItems_eq (items : List Json) : sortKeysItems items = items.map sortKeys := by
  induction items with
  | nil => rw [sortKeysItems, List.map_nil]
  | cons item rest ih => rw [sortKeysItems, ih, List.map_cons]

/-- Sorting the keys within fields sorts them within each value. -/
theorem sortKeysFields_eq (fields : Fields) :
    sortKeysFields fields = fields.map fun field => (field.1, field.2.sortKeys) := by
  induction fields with
  | nil => rw [sortKeysFields, List.map_nil]
  | cons field rest ih => rw [sortKeysFields, ih, List.map_cons]

/-- Sorting the keys leaves a document one that can be read back. -/
theorem Rereadable.sortKeys {v : Json} (h : v.Rereadable) : v.sortKeys.Rereadable := by
  induction h with
  | null => exact .null
  | bool b => exact .bool b
  | int hn => exact .int hn
  | text ht => exact .text ht
  | list hitems ih =>
    rw [Json.sortKeys, sortKeysItems_eq]
    apply Rereadable.list
    intro item hitem
    obtain ⟨item, hmem, rfl⟩ := List.mem_map.mp hitem
    exact ih item hmem
  | @object fields hkeys htexts hvalues ih =>
    have hperm := Fields.perm_sort (fields.map fun field => (field.1, field.2.sortKeys))
    have hsame : (fields.map fun field => (field.1, field.2.sortKeys)).map Prod.fst = fields.map Prod.fst :=
      List.map_map
    rw [Json.sortKeys, sortKeysFields_eq]
    apply Rereadable.object
    · rwa [(hperm.map Prod.fst).nodup_iff, hsame]
    · intro key hkey
      exact htexts key (hsame ▸ (hperm.map Prod.fst).mem_iff.mp hkey)
    · intro field hfield
      obtain ⟨field, hmem, rfl⟩ := List.mem_map.mp (hperm.mem_iff.mp hfield)
      exact ih field hmem

end TermText.Json
