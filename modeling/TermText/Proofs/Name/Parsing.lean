import TermText.Name.Read
import TermText.Proofs.Json.Tokens
import TermText.Proofs.Name.Default
import TermText.Proofs.Text.Decimals
import TermText.Proofs.Text.Parts

/-!
# Dotted names

A dotted text is split at its dots, and each part spells a segment: a number if it consists of digit
characters, and itself otherwise. This fails for one kind of part only, if the text has no surrogates and no
part has too many digits: digit characters that have no decimal value. The dotted text of a name spells
the name again exactly if its hashes are the default ones and its segments can be told from the text.
-/

namespace TermText

/-- The separator of a dotted name. -/
def dot : CodePoint := CodePoint.ofChar '.'

/-- The numeral of a natural number looks like a number. -/
theorem Numeral.isAllDigits_ofNat (n : Nat) : (ofNat n).isAllDigits = true := by
  have hdigits : ∀ d : Fin 10, (digit d).isDigit = true := by decide
  exact Text.isAllDigits_iff.mpr ⟨digitsOnto_ne_nil n [], forall_mem_ofNat hdigits n⟩

/-- No numeral holds a dot. -/
theorem Numeral.dot_notMem_ofNat (n : Nat) : dot ∉ ofNat n := fun h =>
  forall_mem_ofNat (P := fun c => c ≠ dot) (by decide) n dot h rfl

namespace Segment

/-- The segment that a part of a dotted name is meant to spell. -/
def spelledBy (part : Text) : Segment :=
  if part.isAllDigits then .number part.decimal else .text part

/-- A part is labelled as it was spelled, but for the digits of a number, which are written anew. -/
theorem label_spelledBy (part : Text) :
    (spelledBy part).label = if part.isAllDigits then Numeral.ofNat part.decimal else part := by
  rw [spelledBy]
  split <;> rfl

/-- Only a text itself is meant to spell it. -/
theorem eq_of_spelledBy_text {part t : Text} (h : spelledBy part = .text t) : part = t := by
  rw [spelledBy] at h
  split at h
  · cases h
  · exact Segment.text.inj h

/-- A part that does not consist of digits is a text segment. -/
theorem ofPart_of_not_isAllDigits {part : Text} (h : part.isAllDigits = false) :
    ofPart part = .ok (spelledBy part) := by
  simp [ofPart, spelledBy, h]

/-- A part of decimal digits is read, unless it is too long. -/
theorem ofPart_of_isDecimal {part : Text} (h : part.isAllDigits = true) (hdecimal : ∀ c ∈ part, c.IsDecimal)
    (hshort : part.length ≤ Numeral.digitLimit) : ofPart part = .ok (spelledBy part) := by
  rw [ofPart, if_pos h, Numeral.readInt_of_isDecimal (Text.isAllDigits_iff.mp h).1 hdecimal,
    if_neg (Nat.not_lt.mpr hshort), spelledBy, if_pos h]
  rfl

/-- A part of digits some of which have no value is not read. -/
theorem exists_ofPart_error {part : Text} (h : part.Undecimal) :
    ∃ e, ofPart part = .error e ∧ (part.length ≤ Numeral.digitLimit → e = .notANumeral part) := by
  obtain ⟨e, hread, he⟩ := Numeral.exists_readInt_error h
  exact ⟨e, by rw [ofPart, if_pos h.1, hread]; rfl, he⟩

/-- A part without surrogates spells a segment without surrogates. -/
theorem encodable_spelledBy {part : Text} (h : part.Encodable) : (spelledBy part).label.Encodable := by
  rw [label_spelledBy]
  split
  · exact (Numeral.ascii_ofNat part.decimal).encodable
  · exact h

/-- Every part that is not too long is read, but for one of digits some of which have no value. -/
theorem ofPart_of_not_undecimal {part : Text} (h : ¬ part.Undecimal)
    (hshort : part.length ≤ Numeral.digitLimit) : ofPart part = .ok (spelledBy part) := by
  cases hall : part.isAllDigits with
  | false => exact ofPart_of_not_isAllDigits hall
  | true =>
    refine ofPart_of_isDecimal hall (fun c hc => ?_) hshort
    by_contra hvalue
    exact h ⟨hall, c, hc, hvalue⟩

/-- What is read of a part is the segment that it is meant to spell, and the number of a number fits. -/
theorem eq_spelledBy {part : Text} {segment : Segment} (h : ofPart part = .ok segment) :
    segment = spelledBy part ∧ ∀ n, segment = .number n → Numeral.Fits n := by
  cases hall : part.isAllDigits with
  | false =>
    rw [ofPart_of_not_isAllDigits hall] at h
    obtain rfl := Except.ok.inj h
    refine ⟨rfl, fun n hn => ?_⟩
    simp [spelledBy, hall] at hn
  | true =>
    have hdecimal : ∀ c ∈ part, c.IsDecimal := by
      intro c hc
      by_contra hvalue
      obtain ⟨e, herror, -⟩ := exists_ofPart_error ⟨hall, c, hc, hvalue⟩
      rw [herror] at h
      cases h
    have hread := Numeral.readInt_of_isDecimal (Text.isAllDigits_iff.mp hall).1 hdecimal
    rw [ofPart, if_pos hall] at h
    split at hread
    · rw [hread] at h
      cases h
    · have hfits := Numeral.fits_of_readInt hread
      rw [hread] at h
      obtain rfl := Except.ok.inj h
      refine ⟨by rw [spelledBy, if_pos hall]; rfl, fun n hn => ?_⟩
      obtain rfl := Segment.number.inj hn
      exact hfits

/-- A number that a part spells can be written again. -/
theorem isWritable_of_ofPart {part : Text} (h : ofPart part = .ok (spelledBy part)) :
    (spelledBy part).isWritable = true := by
  cases hsegment : spelledBy part with
  | text t => rfl
  | number n => exact isWritable_number.mpr ((eq_spelledBy h).2 n hsegment)

/-- A segment that the text of a dotted name does not disguise: a number, or a text that looks like none
and holds no dot. -/
def IsPlain : Segment → Prop
  | .text t => dot ∉ t ∧ t.isAllDigits = false
  | .number _ => True

/-- The label of a segment that is no disguised text, and no number that is too long, spells it. -/
theorem IsPlain.ofPart_label {segment : Segment} (h : segment.IsPlain)
    (hfits : ∀ n : Nat, segment = .number n → Numeral.Fits n) : ofPart segment.label = .ok segment := by
  cases segment with
  | text t => simp [label, ofPart, h.2]
  | number n =>
    have hread : Numeral.readInt (Numeral.ofNat n) = .ok n := Numeral.readInt_ofInt (hfits n rfl)
    rw [label, ofPart, if_pos (Numeral.isAllDigits_ofNat n), hread]
    rfl

/-- Segments are plain exactly if their texts are without dots and do not consist of digits. -/
theorem forall_isPlain_iff {segments : List Segment} :
    (∀ segment ∈ segments, segment.IsPlain) ↔
      ∀ t, .text t ∈ segments → dot ∉ t ∧ t.isAllDigits = false := by
  refine ⟨fun h t ht => h _ ht, fun h segment hsegment => ?_⟩
  cases segment with
  | text t => exact h t hsegment
  | number n => trivial

/-- The label of a plain segment has no dot. -/
theorem IsPlain.dot_notMem_label {segment : Segment} (h : segment.IsPlain) : dot ∉ segment.label := by
  cases segment with
  | text t => exact h.1
  | number n => exact Numeral.dot_notMem_ofNat n

/-- A segment that its label is meant to spell is plain if there is no dot in it. -/
theorem isPlain_of_spelledBy {part : Text} (h : dot ∉ part) : (spelledBy part).IsPlain := by
  cases hall : part.isAllDigits with
  | true => simp [spelledBy, hall, IsPlain]
  | false => simp [spelledBy, hall, IsPlain, h]

/-- Only the empty text has an empty label. -/
theorem label_eq_nil_iff {segment : Segment} : segment.label = [] ↔ segment = .text [] := by
  cases segment with
  | text t => simp [label]
  | number n => simp [label, Numeral.ofNat, Numeral.digitsOnto_ne_nil]

/-- Parts are read in order, if each of them is read. -/
theorem mapM_ofPart {parts : List Text} (h : ∀ part ∈ parts, ofPart part = .ok (spelledBy part)) :
    parts.mapM ofPart = .ok (parts.map spelledBy) := by
  induction parts with
  | nil => rfl
  | cons part rest ih =>
    obtain ⟨hpart, hrest⟩ := List.forall_mem_cons.mp h
    rw [List.mapM_cons, hpart, ih hrest]
    rfl

/-- The first part that is not read fails. -/
theorem mapM_ofPart_error {before : List Text} (h : ∀ part ∈ before, ofPart part = .ok (spelledBy part))
    {part : Text} {e : Numeral.Error} (hpart : ofPart part = .error e) (after : List Text) :
    (before ++ part :: after).mapM ofPart = .error e := by
  rw [List.mapM_append, mapM_ofPart h, List.mapM_cons, hpart]
  rfl

/-- If parts are read, each of them is. -/
theorem eq_map_spelledBy {parts : List Text} {segments : List Segment} (h : parts.mapM ofPart = .ok segments) :
    segments = parts.map spelledBy ∧ ∀ part ∈ parts, ofPart part = .ok (spelledBy part) := by
  induction parts generalizing segments with
  | nil => exact ⟨(Except.ok.inj h).symm, List.forall_mem_nil _⟩
  | cons part rest ih =>
    rw [List.mapM_cons] at h
    cases hpart : ofPart part with
    | error e =>
      rw [hpart] at h
      cases h
    | ok segment =>
      cases hrest : rest.mapM ofPart with
      | error e =>
        rw [hpart, hrest] at h
        cases h
      | ok others =>
        rw [hpart, hrest] at h
        obtain rfl := Except.ok.inj h
        obtain ⟨rfl, -⟩ := eq_spelledBy hpart
        obtain ⟨rfl, hall⟩ := ih hrest
        exact ⟨rfl, List.forall_mem_cons.mpr ⟨hpart, hall⟩⟩

end Segment

namespace Name

/-- The empty text spells the anonymous name. -/
theorem parse_nil : parse [] = .ok .anonymous := rfl

/-- Any other text is split at its dots, and its parts are added one after another. -/
theorem parse_of_ne_nil {s : Text} (hs : s ≠ []) :
    parse s = ((s.splitOn dot).mapM Segment.ofPart).mapError .numeral >>= fun segments =>
      (extendAll .anonymous segments).mapError .ofHash := by
  rw [parse, if_neg (by simpa using hs)]
  rfl

/-- If its parts are read, a dotted text spells the name that is made of their segments. -/
theorem parse_of_ofPart {s : Text} (hs : s ≠ [])
    (h : ∀ part ∈ s.splitOn dot, Segment.ofPart part = .ok (Segment.spelledBy part)) :
    parse s = (extendAll .anonymous ((s.splitOn dot).map Segment.spelledBy)).mapError .ofHash := by
  rw [parse_of_ne_nil hs, Segment.mapM_ofPart h]
  rfl

/-- A dotted text that spells a name spells one of default hashes, and all its parts are read. -/
theorem eq_of_parse {s : Text} {n : Name} (hs : s ≠ []) (h : parse s = .ok n) :
    n.DefaultHashed ∧ n.components = (s.splitOn dot).map Segment.spelledBy ∧
      ∀ part ∈ s.splitOn dot, Segment.ofPart part = .ok (Segment.spelledBy part) := by
  cases hparts : (s.splitOn dot).mapM Segment.ofPart with
  | error e =>
    rw [parse_of_ne_nil hs, hparts] at h
    cases h
  | ok segments =>
    obtain ⟨rfl, hread⟩ := Segment.eq_map_spelledBy hparts
    cases hname : extendAll .anonymous ((s.splitOn dot).map Segment.spelledBy) with
    | error e =>
      rw [parse_of_ofPart hs hread, hname] at h
      cases h
    | ok name =>
      rw [parse_of_ofPart hs hread, hname] at h
      obtain rfl := Except.ok.inj h
      obtain ⟨hdefault, hcomponents⟩ := defaultHashed_anonymous.extendAll hname
      exact ⟨hdefault, hcomponents, hread⟩

/-- If all its parts are read, a dotted text without surrogates spells a name. -/
theorem exists_parse {s : Text} (hencodable : s.Encodable)
    (hread : ∀ part ∈ s.splitOn dot, Segment.ofPart part = .ok (Segment.spelledBy part)) :
    ∃ n, parse s = .ok n := by
  by_cases hs : s = []
  · exact ⟨_, hs ▸ parse_nil⟩
  have hlabels : ∀ segment ∈ (s.splitOn dot).map Segment.spelledBy,
      segment.isWritable = true ∧ segment.label.Encodable := by
    intro segment hsegment
    obtain ⟨part, hpart, rfl⟩ := List.mem_map.mp hsegment
    exact ⟨Segment.isWritable_of_ofPart (hread part hpart),
      Segment.encodable_spelledBy fun c hc => hencodable c (Text.subset_of_mem_splitOn hpart hc)⟩
  obtain ⟨n, hn⟩ := defaultHashed_anonymous.exists_extendAll hlabels
  exact ⟨n, by rw [parse_of_ofPart hs hread, hn]; rfl⟩

/-- A dotted text without surrogates whose parts are no longer than a numeral may be spells a name exactly
if none of its parts is of digits some of which have no decimal value. The name has the default hashes and
the segments that the parts are meant to spell. Otherwise the first such part is refused as no numeral. -/
theorem parse_encodable (s : Text) (hencodable : s.Encodable)
    (hshort : ∀ part ∈ s.splitOn dot, part.length ≤ Numeral.digitLimit) :
    ((∃ n, parse s = .ok n) ↔ ∀ part ∈ s.splitOn dot, ¬ part.Undecimal) ∧
      (∀ n, parse s = .ok n → n.DefaultHashed ∧
        n.components = if s = [] then [] else (s.splitOn dot).map Segment.spelledBy) ∧
      ∀ before part after, s.splitOn dot = before ++ part :: after →
        (∀ earlier ∈ before, ¬ earlier.Undecimal) → part.Undecimal →
          parse s = .error (.numeral (.notANumeral part)) := by
  by_cases hs : s = []
  · subst hs
    have hnone : ∀ part ∈ Text.splitOn dot [], ¬ part.Undecimal := by decide
    refine ⟨⟨fun _ => hnone, fun _ => ⟨_, parse_nil⟩⟩, fun n hn => ?_, ?_⟩
    · obtain rfl := Except.ok.inj hn
      exact ⟨trivial, rfl⟩
    · intro before part after hsplit _ hpart
      exact absurd hpart (hnone part (by rw [hsplit]; simp))
  have hfails : ∀ before part after, s.splitOn dot = before ++ part :: after →
      (∀ earlier ∈ before, ¬ earlier.Undecimal) → part.Undecimal →
        parse s = .error (.numeral (.notANumeral part)) := by
    intro before part after hsplit hbefore hpart
    rw [hsplit] at hshort
    obtain ⟨hbeforeShort, hpartShort⟩ := List.forall_mem_append.mp hshort
    obtain ⟨e, herror, he⟩ := Segment.exists_ofPart_error hpart
    obtain rfl := he (List.forall_mem_cons.mp hpartShort).1
    have hread : ∀ earlier ∈ before, Segment.ofPart earlier = .ok (Segment.spelledBy earlier) :=
      fun earlier h => Segment.ofPart_of_not_undecimal (hbefore earlier h) (hbeforeShort earlier h)
    rw [parse_of_ne_nil hs, hsplit, Segment.mapM_ofPart_error hread herror]
    rfl
  refine ⟨⟨?_, fun h => ?_⟩, fun n hn => ?_, hfails⟩
  · rintro ⟨n, hn⟩ part hpart hundecimal
    obtain ⟨-, -, hread⟩ := eq_of_parse hs hn
    obtain ⟨e, herror, -⟩ := Segment.exists_ofPart_error hundecimal
    rw [hread part hpart] at herror
    cases herror
  · exact exists_parse hencodable fun part hpart =>
      Segment.ofPart_of_not_undecimal (h part hpart) (hshort part hpart)
  · obtain ⟨hdefault, hcomponents, -⟩ := eq_of_parse hs hn
    exact ⟨hdefault, by rw [hcomponents, if_neg hs]⟩

/-- A superscript two, which is a digit character without a decimal value. -/
def superscriptTwo : Text := [CodePoint.ofChar '²']

/-- A part of decimal digits spells a number, and a superscript behind it is refused. -/
theorem parse_superscriptTwo :
    (∃ n, parse "a.07" = .ok n ∧ n.components = [.text "a", .number 7]) ∧
      parse ("a.07." ++ superscriptTwo) = .error (.numeral (.notANumeral superscriptTwo)) := by
  constructor
  · obtain ⟨hspells, hn, -⟩ := parse_encodable "a.07" (by decide) (by decide)
    obtain ⟨n, hparse⟩ := hspells.mpr (by decide)
    exact ⟨n, hparse, (hn n hparse).2⟩
  · obtain ⟨-, -, hfails⟩ := parse_encodable ("a.07." ++ superscriptTwo) (by decide) (by decide)
    exact hfails ["a", "07"] superscriptTwo [] (by decide) (by decide) (by decide)

/-- It is not so that every dotted text without surrogates and overlong parts spells a name. -/
theorem not_parse_total :
    ¬ ∀ s : Text, s.Encodable → (∀ part ∈ s.splitOn dot, part.length ≤ Numeral.digitLimit) →
      ∃ n, parse s = .ok n ∧
        n.components = if s = [] then [] else (s.splitOn dot).map Segment.spelledBy := by
  intro h
  obtain ⟨n, hn, -⟩ := h superscriptTwo (by decide) (by decide)
  cases hn

/-- The text of a name is that of its segments with dots between them. -/
theorem toText_eq_join {n : Name} (h : n ≠ .anonymous) :
    n.toText = Text.join [dot] (n.components.map Segment.label) := by
  cases n with
  | anonymous => exact absurd rfl h
  | extend parent segment hash => rfl

/-- The dotted text of a name of default hashes spells the name again, if its segments are plain and are
not the empty text alone. -/
theorem DefaultHashed.parse_toText {n : Name} (h : n.DefaultHashed) (hn : n ≠ .anonymous)
    (hfits : ∀ k : Nat, .number k ∈ n.components → Numeral.Fits k)
    (hplain : ∀ segment ∈ n.components, segment.IsPlain) (hempty : n.components ≠ [.text []]) :
    parse n.toText = .ok n := by
  have hread : ∀ segment ∈ n.components, Segment.ofPart segment.label = .ok segment :=
    fun segment hmem => (hplain segment hmem).ofPart_label fun k hk => hfits k (hk ▸ hmem)
  have hsplit : n.toText.splitOn dot = n.components.map Segment.label := by
    rw [toText_eq_join hn]
    refine Text.splitOn_join (fun hnil => hn (eq_anonymous_of_components ?_)) fun part hpart => ?_
    · exact List.map_eq_nil_iff.mp hnil
    · obtain ⟨segment, hmem, rfl⟩ := List.mem_map.mp hpart
      exact (hplain segment hmem).dot_notMem_label
  have hne : n.toText ≠ [] := fun hnil => by
    rw [hnil, Text.splitOn_nil] at hsplit
    obtain ⟨segment, hcomponents, hlabel⟩ := List.map_eq_singleton_iff.mp hsplit.symm
    exact hempty (by rw [hcomponents, Segment.label_eq_nil_iff.mp hlabel])
  have hspelled : (n.toText.splitOn dot).map Segment.spelledBy = n.components := by
    rw [hsplit, List.map_map]
    exact (List.map_congr_left fun segment hmem =>
      ((Segment.eq_spelledBy (hread segment hmem)).1).symm).trans (List.map_id _)
  rw [parse_of_ofPart hne fun part hpart => ?_, hspelled, h.extendAll_components]
  · rfl
  · rw [hsplit] at hpart
    obtain ⟨segment, hmem, rfl⟩ := List.mem_map.mp hpart
    rw [hread segment hmem, ← (Segment.eq_spelledBy (hread segment hmem)).1]

/-- A name that its dotted text spells again has the default hashes and plain segments, and is not of the
empty text alone. -/
theorem isPlain_of_parse_toText {n : Name} (hn : n ≠ .anonymous) (h : parse n.toText = .ok n) :
    n.DefaultHashed ∧ (∀ segment ∈ n.components, segment.IsPlain) ∧ n.components ≠ [.text []] := by
  have hne : n.toText ≠ [] := fun hnil => by
    rw [hnil] at h
    exact hn (Except.ok.inj h).symm
  obtain ⟨hdefault, hcomponents, -⟩ := eq_of_parse hne h
  refine ⟨hdefault, fun segment hmem => ?_, fun hempty => ?_⟩
  · obtain ⟨part, hpart, rfl⟩ := List.mem_map.mp (hcomponents ▸ hmem)
    exact Segment.isPlain_of_spelledBy (Text.separator_notMem_of_mem_splitOn part hpart)
  · exact hne (by rw [toText_eq_join hn, hempty]; rfl)

/-- What a dotted text spells is spelled again by the dotted text of the name. -/
theorem parse_toText_of_parse {s : Text} {m : Name} (hs : s ≠ []) (h : parse s = .ok m) :
    m ≠ .anonymous ∧ parse m.toText = .ok m := by
  obtain ⟨hdefault, hcomponents, hread⟩ := eq_of_parse hs h
  have hfirst : m.components ≠ [] := by
    obtain ⟨part, rest, hsplit⟩ := Text.exists_splitOn dot s
    rw [hcomponents, hsplit]
    exact List.cons_ne_nil _ _
  have hm : m ≠ .anonymous := fun heq => hfirst (heq ▸ rfl)
  refine ⟨hm, hdefault.parse_toText hm (fun k hk => ?_) (fun segment hsegment => ?_) fun hempty => ?_⟩
  · obtain ⟨part, hpart, hnumber⟩ := List.mem_map.mp (hcomponents ▸ hk)
    exact (Segment.eq_spelledBy (hread part hpart)).2 k hnumber
  · obtain ⟨part, hpart, rfl⟩ := List.mem_map.mp (hcomponents ▸ hsegment)
    exact Segment.isPlain_of_spelledBy (Text.separator_notMem_of_mem_splitOn part hpart)
  · obtain ⟨part, hsplit, hpart⟩ := List.map_eq_singleton_iff.mp (hcomponents.symm.trans hempty)
    rw [← Text.join_splitOn dot s, hsplit, Segment.eq_of_spelledBy_text hpart] at hs
    exact hs rfl

/-- What a dotted text spells carries integers. -/
theorem integral_of_parse {s : Text} {m : Name} (h : parse s = .ok m) : m.Integral := by
  by_cases hs : s = []
  · subst hs
    obtain rfl := Except.ok.inj h
    trivial
  · exact (eq_of_parse hs h).1.integral

/-- The dotted text of a name with segments spells a name equal to it exactly if all its hashes are the
default ones, no text segment holds a dot or consists of digit characters, and the name is not of the empty
text alone. Conversely the name that a dotted text spells has that text, each part of digits being written
by its canonical numeral, and is spelled again by it. -/
theorem parse_toText_iff :
    (∀ n : Name, n.Integral → n ≠ .anonymous → (∀ k : Nat, .number k ∈ n.components → Numeral.Fits k) →
      ((∃ m, parse n.toText = .ok m ∧ m.same n = true) ↔
        n.DefaultHashed ∧ (∀ t, .text t ∈ n.components → dot ∉ t ∧ t.isAllDigits = false) ∧
          n.components ≠ [.text []])) ∧
    ∀ (s : Text) (m : Name), s ≠ [] → parse s = .ok m →
      m.toText = Text.join [dot] ((s.splitOn dot).map fun part =>
        if part.isAllDigits then Numeral.ofNat part.decimal else part) ∧
      ∃ m', parse m.toText = .ok m' ∧ m'.same m = true := by
  constructor
  · intro n hn hroot hfits
    constructor
    · rintro ⟨m, hm, hsame⟩
      obtain rfl := (integral_of_parse hm).eq_of_same hn hsame
      rw [← Segment.forall_isPlain_iff]
      exact isPlain_of_parse_toText hroot hm
    · rintro ⟨hdefault, hplain, hempty⟩
      exact ⟨n, hdefault.parse_toText hroot hfits (Segment.forall_isPlain_iff.mpr hplain) hempty,
        hn.same_self⟩
  · intro s m hs hm
    obtain ⟨hroot, hagain⟩ := parse_toText_of_parse hs hm
    obtain ⟨hdefault, hcomponents, -⟩ := eq_of_parse hs hm
    refine ⟨?_, m, hagain, hdefault.integral.same_self⟩
    rw [toText_eq_join hroot, hcomponents, List.map_map]
    exact congrArg _ (List.map_congr_left fun part _ => Segment.label_spelledBy part)

/-- A name with a given hash is not spelled by its dotted text, and leading zeros are not kept. -/
theorem parse_toText_given :
    (¬ ∃ m, parse (Name.extend .anonymous (.text "A") (.int 1)).toText = .ok m ∧
      m.same (Name.extend .anonymous (.text "A") (.int 1)) = true) ∧
    ∃ m, parse "A.007" = .ok m ∧ m.toText = "A.7" ∧ ∃ m', parse m.toText = .ok m' ∧ m'.same m = true := by
  constructor
  · have hnumbers : ∀ k : Nat, .number k ∈ [Segment.text "A"] → Numeral.Fits k := by simp
    rw [parse_toText_iff.1 (.extend .anonymous (.text "A") (.int 1)) ⟨trivial, 1, rfl⟩ nofun hnumbers]
    rintro ⟨hdefault, -⟩
    obtain ⟨octets, hoctets, hhash, -⟩ := exists_octets_of_child hdefault.2
    have hhashed : (Segment.text "A").hashed anonymous.hash = "1723|s|A" := by decide +kernel
    rw [hhashed] at hoctets
    obtain rfl : [0x31, 0x37, 0x32, 0x33, 0x7C, 0x73, 0x7C, 0x41] = octets := Except.ok.inj hoctets
    have hdigest : Blake2b.digest8 [0x31, 0x37, 0x32, 0x33, 0x7C, 0x73, 0x7C, 0x41] ≠ 1 := by
      decide +kernel
    injection hhash with _ _ hdigits
    exact hdigest (by exact_mod_cast (Json.int.inj hdigits).symm)
  · obtain ⟨m, hm⟩ := exists_parse (s := "A.007") (by decide) fun part hpart =>
      Segment.ofPart_of_not_undecimal (by revert part; decide) (by revert part; decide)
    obtain ⟨htext, hagain⟩ := parse_toText_iff.2 "A.007" m nofun hm
    exact ⟨m, hm, htext.trans (by decide +kernel), hagain⟩

end Name

end TermText
