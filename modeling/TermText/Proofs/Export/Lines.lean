import TermText.Export.History
import TermText.Export.Journal
import TermText.Proofs.Declaration.Ascii
import TermText.Proofs.Export.Outcome
import TermText.Proofs.Json.Rereading

/-!
# The lines of a trace

What a tracer writes of an event is read back as the record of the event with the number of the line. This
holds of the events that exports report, if the names have no pairs of surrogates and the figures are not too
long to be read.

A history grows at its end: a line changes what is told of its own module and of no other one.
-/

namespace TermText

/-- The module that an event reports, as it is written. -/
def Event.moduleText : Event → Text
  | .declaration e => e.module.toText
  | .module e => e.module.toText

/-- The record of a declaration under a number, as it is read back. -/
def DeclarationEvent.traced (number : Nat) (e : DeclarationEvent) : Json :=
  .object [("event", .text "declaration"), ("kind", e.kind), ("length", e.length),
    ("module", .text e.module.toText), ("name", .text e.name.toText), ("seq", .int number),
    ("status", .text (if e.kept then "kept" else "skipped"))]

/-- A line of a trace: the tracer that wrote it, its number, and the event. -/
structure TraceLine where
  tracer : Nat
  number : Nat
  event : Event

namespace TraceLine

/-- The record of a line: the number and the fields of the event in the order of their keys. -/
def record (l : TraceLine) : Json :=
  Json.sortKeys (.object (Json.Fields.insertAll [("seq", .int l.number)] l.event.record))

/-- The text of a line. -/
def text (l : TraceLine) : Text :=
  Journal.line l.number l.event

/-- The record of a declaration; a line for a module has none. -/
def declared : TraceLine → List Json
  | ⟨_, number, .declaration e⟩ => [e.traced number]
  | ⟨_, _, .module _⟩ => []

end TraceLine

/-- The events that the export of a module reports, as far as their records go: names without pairs of
surrogates, kinds of declarations, and figures that are not too long to be read. -/
inductive Event.Reported (module : Name) : Event → Prop
  | begin : Reported module (.module ⟨module, "begin", []⟩)
  | declaration {name : Name} (hname : name.toText.Unpaired) (kind : DeclarationKind) (kept : Bool)
      {length : Nat} (hlength : Numeral.Fits length) :
      Reported module (.declaration ⟨module, name, .text kind.word, kept, .int length⟩)
  | finish {declarations kept skipped : Int} {counts : Json.Fields} (hdeclarations : Numeral.Fits declarations)
      (hkept : Numeral.Fits kept) (hskipped : Numeral.Fits skipped)
      (hcounts : (Json.object counts).Rereadable) :
      Reported module (.module ⟨module, "end", [("declarations", .int declarations), ("kept", .int kept),
        ("skipped", .int skipped), ("kind_counts", .object counts)]⟩)

/-- The word for a kind of declarations has no pair of surrogates. -/
theorem DeclarationKind.unpaired_word (kind : DeclarationKind) : kind.word.Unpaired := by
  cases kind <;> decide

namespace Event

variable {module : Name} {event : Event} {tracer number : Nat}

/-- What is reported of a module bears the text of its name. -/
theorem Reported.moduleText_eq (h : event.Reported module) : event.moduleText = module.toText := by
  cases h <;> rfl

/-- The record of a reported event can be read back. -/
theorem Reported.rereadable (h : event.Reported module) (hmodule : module.toText.Unpaired)
    (hnumber : Numeral.Fits number) : (TraceLine.mk tracer number event).record.Rereadable := by
  apply Json.Rereadable.sortKeys
  have hword {t : Text} (ht : t.Unpaired) : (Json.text t).Rereadable := .text ht
  have hint {n : Int} (hn : Numeral.Fits n) : (Json.int n).Rereadable := .int hn
  cases h with
  | begin =>
    have hvalues : ∀ v ∈ [Json.int number, .text "module-begin", .text module.toText], v.Rereadable := by
      simp only [List.forall_mem_cons]
      exact ⟨hint hnumber, hword (by decide), hword hmodule, List.forall_mem_nil _⟩
    have hrecord := Json.Rereadable.zip ["seq", "event", "module"] (Nat.le_refl _)
      (by decide) hvalues
    exact hrecord
  | @declaration name hname kind kept length hlength =>
    have hstatus : ∀ b : Bool, Text.Unpaired (if b then "kept" else "skipped") := by decide
    have hvalues : ∀ v ∈ [Json.int number, .text "declaration", .text module.toText, .text name.toText,
        .text kind.word, .text (if kept then "kept" else "skipped"), .int length], v.Rereadable := by
      simp only [List.forall_mem_cons]
      exact ⟨hint hnumber, hword (by decide), hword hmodule, hword hname, hword kind.unpaired_word,
        hword (hstatus kept), hint hlength, List.forall_mem_nil _⟩
    have hrecord := Json.Rereadable.zip ["seq", "event", "module", "name", "kind", "status", "length"] (Nat.le_refl _)
      (by decide) hvalues
    exact hrecord
  | @finish declarations kept skipped counts hdeclarations hkept hskipped hcounts =>
    have hvalues : ∀ v ∈ [Json.int number, .text "module-end", .text module.toText, .int declarations,
        .int kept, .int skipped, .object counts], v.Rereadable := by
      simp only [List.forall_mem_cons]
      exact ⟨hint hnumber, hword (by decide), hword hmodule, hint hdeclarations, hint hkept, hint hskipped,
        hcounts, List.forall_mem_nil _⟩
    have hrecord := Json.Rereadable.zip ["seq", "event", "module", "declarations", "kept", "skipped", "kind_counts"] (Nat.le_refl _)
      (by decide) hvalues
    exact hrecord

/-- A declaration is written as its record. -/
theorem Reported.record_declaration {e : DeclarationEvent} (h : (Event.declaration e).Reported module) :
    (TraceLine.mk tracer number (.declaration e)).record = e.traced number := by
  cases h with
  | declaration hname kind kept hlength => rfl

end Event

/-- A line that can be read back: an event that is reported of a module, under a number that is not too long
to be read. -/
def TraceLine.Readable (l : TraceLine) : Prop :=
  ∃ module, l.event.Reported module ∧ module.toText.Unpaired ∧ Numeral.Fits l.number

namespace TraceLine

variable {l : TraceLine}

/-- A line is read back as its record. -/
theorem Readable.parse_text (h : l.Readable) : Json.parse l.text = .ok l.record := by
  obtain ⟨module, hreported, hmodule, hnumber⟩ := h
  exact Json.parse_compact (hreported.rereadable hmodule hnumber)

/-- The record of a line carries its number and names its module. -/
theorem Readable.field_record (h : l.Readable) :
    l.record.field "seq" = .ok (.int l.number) ∧ l.record.field "module" = .ok (.text l.event.moduleText) := by
  obtain ⟨tracer, number, event⟩ := l
  obtain ⟨module, hreported, -⟩ := h
  cases hreported <;> exact ⟨rfl, rfl⟩

/-- The record of a line for a declaration is that of the declaration. -/
theorem Readable.record_declaration (h : l.Readable) {e : DeclarationEvent} (he : l.event = .declaration e) :
    l.record = e.traced l.number := by
  obtain ⟨tracer, number, event⟩ := l
  obtain ⟨module, hreported, -⟩ := h
  subst he
  exact hreported.record_declaration

/-- No line is blank. -/
theorem isBlank_text (l : TraceLine) : l.text.isBlank = false :=
  rfl

end TraceLine

namespace History

section Keys

variable {texts : List Text} {t : Text}

/-- A text at the end is kept if it did not come before. -/
theorem eraseDups_concat (texts : List Text) (t : Text) :
    (texts ++ [t]).eraseDups = if t ∈ texts then texts.eraseDups else texts.eraseDups ++ [t] := by
  rw [List.eraseDups_append, List.removeAll, List.filter_singleton]
  by_cases ht : t ∈ texts
  · simp [ht]
  · simp [ht, List.eraseDups_cons]

/-- No text is kept twice. -/
theorem nodup_eraseDups (texts : List Text) : texts.eraseDups.Nodup := by
  induction texts using List.reverseRecOn with
  | nil => exact List.nodup_nil
  | append_singleton texts t ih =>
    rw [eraseDups_concat]
    by_cases ht : t ∈ texts
    · rwa [if_pos ht]
    · rw [if_neg ht]
      apply List.Nodup.append ih (List.nodup_singleton t)
      rw [List.disjoint_singleton, List.mem_eraseDups]
      exact ht

end Keys

section Add

variable {keys : List Text} {present : Text → List Json} {t : Text} {records : List Json}

/-- Records added to a module that is told of. -/
theorem add_of_mem (hkeys : keys.Nodup) (ht : t ∈ keys) :
    add (.text t) records (keys.map fun k => (.text k, present k)) =
      keys.map fun k => (.text k, if k = t then present k ++ records else present k) := by
  induction keys with
  | nil => exact absurd ht List.not_mem_nil
  | cons k rest ih =>
    obtain ⟨hk, hrest⟩ := List.nodup_cons.mp hkeys
    rw [List.map_cons, List.map_cons, add, Json.same]
    by_cases heq : k = t
    · subst heq
      have hothers : ∀ other ∈ rest, other ≠ k := fun other hother h => hk (h ▸ hother)
      rw [if_pos (beq_self_eq_true k), if_pos rfl]
      congr 1
      apply List.map_congr_left
      intro other hother
      rw [if_neg (hothers other hother)]
    · rw [if_neg (fun h => heq (eq_of_beq h)), if_neg heq, ih hrest ((List.mem_cons.mp ht).resolve_left (Ne.symm heq))]

/-- Records added to a module that is not told of yet. -/
theorem add_of_notMem (ht : t ∉ keys) :
    add (.text t) records (keys.map fun k => (.text k, present k)) =
      (keys.map fun k => (.text k, present k)) ++ [(.text t, records)] := by
  induction keys with
  | nil => rfl
  | cons k rest ih =>
    obtain ⟨hne, hrest⟩ := not_or.mp (List.mem_cons.not.mp ht)
    rw [List.map_cons, add, Json.same, if_neg (fun h => hne (eq_of_beq h).symm), ih hrest]
    rfl

end Add

/-- The records of the declarations of a module, in the order of their lines. -/
def recordsOf (lines : List TraceLine) (t : Text) : List Json :=
  (lines.filter fun l => l.event.moduleText = t).flatMap TraceLine.declared

/-- What lines tell: the records of each module, in the order in which the modules first appear. -/
def told (lines : List TraceLine) : History :=
  (lines.map (·.event.moduleText)).eraseDups.map fun t => (.text t, recordsOf lines t)

/-- A line more adds its records to those of its module. -/
theorem recordsOf_concat (lines : List TraceLine) (l : TraceLine) (t : Text) :
    recordsOf (lines ++ [l]) t =
      if t = l.event.moduleText then recordsOf lines t ++ l.declared else recordsOf lines t := by
  rw [recordsOf, List.filter_append, List.flatMap_append, List.filter_singleton]
  by_cases ht : t = l.event.moduleText
  · rw [if_pos ht, ht, decide_eq_true rfl]
    exact congrArg _ (List.flatMap_singleton ..)
  · rw [if_neg ht, decide_eq_false (Ne.symm ht)]
    exact List.append_nil _

/-- There are no records of a module without a line. -/
theorem recordsOf_of_notMem {lines : List TraceLine} {t : Text}
    (ht : t ∉ lines.map (·.event.moduleText)) : recordsOf lines t = [] := by
  have hnone : ∀ l ∈ lines, ¬decide (l.event.moduleText = t) = true := fun l hl heq =>
    ht (List.mem_map.mpr ⟨l, hl, of_decide_eq_true heq⟩)
  rw [recordsOf, List.filter_eq_nil_iff.mpr hnone, List.flatMap_nil]

/-- A line more adds its records to what is told. -/
theorem told_concat (lines : List TraceLine) (l : TraceLine) :
    told (lines ++ [l]) = add (.text l.event.moduleText) l.declared (told lines) := by
  rw [told, List.map_append, List.map_singleton, eraseDups_concat, told]
  simp only [recordsOf_concat]
  by_cases ht : l.event.moduleText ∈ lines.map (·.event.moduleText)
  · rw [if_pos ht, add_of_mem (nodup_eraseDups _) (List.mem_eraseDups.mpr ht)]
  · have hnew : l.event.moduleText ∉ (lines.map (·.event.moduleText)).eraseDups := fun hmem =>
      ht (List.mem_eraseDups.mp hmem)
    rw [if_neg ht, add_of_notMem hnew, List.map_append, List.map_singleton, if_pos rfl,
      recordsOf_of_notMem ht, List.nil_append]
    congr 1
    apply List.map_congr_left
    intro t hmem
    have hne : t ≠ l.event.moduleText := fun heq => hnew (heq ▸ hmem)
    rw [if_neg hne]

/-- Nothing is added to a module that is told of. -/
theorem add_nil {lines : List TraceLine} {t : Text} (ht : t ∈ lines.map (·.event.moduleText)) :
    add (.text t) [] (told lines) = told lines := by
  rw [told, add_of_mem (nodup_eraseDups _) (List.mem_eraseDups.mpr ht)]
  simp only [List.append_nil, ite_self]

/-- Events of which none ends an export of a module that did not begin before. -/
def Begun (events : List Event) : Prop :=
  ∀ before event after, events = before ++ event :: after → event.isEnd = true →
    event.moduleText ∈ before.map Event.moduleText

/-- A line that is read tells what the lines with it tell. -/
theorem addLine_told {before : List TraceLine} {l : TraceLine} (h : l.Readable)
    (hend : l.event.isEnd = true → l.event.moduleText ∈ before.map (·.event.moduleText)) :
    (told before).addLine l.text = .ok (told (before ++ [l])) := by
  rw [addLine, l.isBlank_text, h.parse_text, told_concat]
  obtain ⟨tracer, number, event⟩ := l
  obtain ⟨module, hreported, -⟩ := h
  cases hreported with
  | begin => rfl
  | declaration hname kind kept hlength => rfl
  | finish hdeclarations hkept hskipped hcounts =>
    rw [TraceLine.declared, add_nil (hend rfl)]
    rfl

/-- Lines that are read one after another tell what they tell together. -/
theorem foldlM_addLine {before lines : List TraceLine} (h : ∀ l ∈ lines, l.Readable)
    (hbegun : Begun ((before ++ lines).map (·.event))) :
    (lines.map TraceLine.text).foldlM addLine (told before) = .ok (told (before ++ lines)) := by
  induction lines generalizing before with
  | nil => rw [List.append_nil]; rfl
  | cons l rest ih =>
    obtain ⟨hl, hrest⟩ := List.forall_mem_cons.mp h
    have hfirst : (told before).addLine l.text = .ok (told (before ++ [l])) := by
      apply addLine_told hl
      intro hend
      have hmem := hbegun (before.map (·.event)) l.event (rest.map (·.event)) List.map_append hend
      rwa [List.map_map] at hmem
    have hassoc : before ++ l :: rest = before ++ [l] ++ rest := List.append_cons ..
    rw [hassoc] at hbegun ⊢
    rw [List.map_cons, List.foldlM_cons, hfirst]
    exact ih hrest hbegun

/-- The history that lines tell is what is read from them. -/
theorem ofLines_text {lines : List TraceLine} (h : ∀ l ∈ lines, l.Readable)
    (hbegun : Begun (lines.map (·.event))) : ofLines (lines.map TraceLine.text) = .ok (told lines) :=
  @foldlM_addLine [] lines h hbegun

end History

end TermText
