import Mathlib.Data.List.Basic
import TermText.Text.Basic

/-!
# Parts of a text

A text is split at a separator into parts that do not hold it, and joined again of these parts. Parts are
joined and split again if none of them holds the separator.
-/

namespace TermText.Text

variable {separator : CodePoint} {t : Text} {parts : List Text}

/-- The empty text has one part, which is empty. -/
theorem splitOn_nil (separator : CodePoint) : splitOn separator [] = [[]] := rfl

/-- A separator in front closes an empty part. -/
theorem splitOn_separator (separator : CodePoint) (t : Text) :
    splitOn separator (separator :: t) = [] :: splitOn separator t :=
  if_pos rfl

/-- A text has a first part. -/
theorem exists_splitOn (separator : CodePoint) (t : Text) :
    ∃ part rest, splitOn separator t = part :: rest := by
  fun_induction splitOn separator t with
  | case1 => exact ⟨[], [], rfl⟩
  | case2 => exact ⟨_, _, rfl⟩
  | case3 => exact ⟨_, _, rfl⟩
  | case4 => exact ⟨_, _, rfl⟩

/-- A code point other than the separator belongs to the first part of what follows it. -/
theorem splitOn_cons {c : CodePoint} {part : Text} {rest : List Text} (hc : c ≠ separator)
    (h : splitOn separator t = part :: rest) : splitOn separator (c :: t) = (c :: part) :: rest := by
  rw [splitOn, if_neg hc, h]

/-- No part holds the separator. -/
theorem separator_notMem_of_mem_splitOn :
    ∀ part ∈ splitOn separator t, separator ∉ part := by
  induction t with
  | nil => simp [splitOn_nil]
  | cons c t ih =>
    obtain ⟨first, rest, hsplit⟩ := exists_splitOn separator t
    by_cases hc : c = separator
    · subst hc
      rw [splitOn_separator]
      exact List.forall_mem_cons.mpr ⟨List.not_mem_nil, ih⟩
    · rw [hsplit] at ih
      rw [splitOn_cons hc hsplit]
      obtain ⟨hfirst, hrest⟩ := List.forall_mem_cons.mp ih
      exact List.forall_mem_cons.mpr ⟨List.not_mem_cons_of_ne_of_not_mem (Ne.symm hc) hfirst, hrest⟩

/-- A text that does not hold the separator is one part. -/
theorem splitOn_of_notMem (h : separator ∉ t) : splitOn separator t = [t] := by
  induction t with
  | nil => rfl
  | cons c t ih =>
    obtain ⟨hc, ht⟩ := not_or.mp (List.mem_cons.not.mp h)
    exact splitOn_cons (Ne.symm hc) (ih ht)

/-- A text is split before a separator and behind it. -/
theorem splitOn_append (separator : CodePoint) (s t : Text) :
    splitOn separator (s ++ separator :: t) = splitOn separator s ++ splitOn separator t := by
  induction s with
  | nil => exact splitOn_separator separator t
  | cons c s ih =>
    by_cases hc : c = separator
    · subst hc
      rw [List.cons_append, splitOn_separator, splitOn_separator, ih, List.cons_append]
    · obtain ⟨first, rest, hsplit⟩ := exists_splitOn separator s
      rw [hsplit, List.cons_append] at ih
      rw [List.cons_append, splitOn_cons hc ih, splitOn_cons hc hsplit, List.cons_append]

/-- The separator stands between two parts. -/
theorem join_cons_cons (separator s t : Text) (rest : List Text) :
    join separator (s :: t :: rest) = s ++ separator ++ join separator (t :: rest) :=
  rfl

/-- Parts that do not hold the separator are joined and split again. -/
theorem splitOn_join (hparts : parts ≠ []) (h : ∀ part ∈ parts, separator ∉ part) :
    splitOn separator (join [separator] parts) = parts := by
  induction parts with
  | nil => exact absurd rfl hparts
  | cons part rest ih =>
    obtain ⟨hpart, hrest⟩ := List.forall_mem_cons.mp h
    cases rest with
    | nil => exact splitOn_of_notMem hpart
    | cons next rest =>
      rw [join_cons_cons, List.append_assoc, List.singleton_append, splitOn_append,
        splitOn_of_notMem hpart, ih (List.cons_ne_nil _ _) hrest, List.singleton_append]

/-- A text is joined again of its parts. -/
theorem join_splitOn (separator : CodePoint) (t : Text) :
    join [separator] (splitOn separator t) = t := by
  induction t with
  | nil => rfl
  | cons c t ih =>
    obtain ⟨first, rest, hsplit⟩ := exists_splitOn separator t
    by_cases hc : c = separator
    · subst hc
      rw [splitOn_separator, hsplit, join_cons_cons, ← hsplit, ih]
      rfl
    · rw [splitOn_cons hc hsplit]
      rw [hsplit] at ih
      cases rest with
      | nil => exact congrArg (c :: ·) ih
      | cons next rest => exact congrArg (c :: ·) ih

/-- A part of joined parts holds only code points of the whole. -/
theorem subset_join {separator part : Text} (h : part ∈ parts) : part ⊆ join separator parts := by
  induction parts with
  | nil => cases h
  | cons first rest ih =>
    cases rest with
    | nil => exact List.mem_singleton.mp h ▸ List.Subset.refl _
    | cons next rest =>
      rw [join_cons_cons]
      rcases List.mem_cons.mp h with rfl | h
      · exact List.subset_append_of_subset_left _ (List.subset_append_left _ _)
      · exact List.subset_append_of_subset_right _ (ih h)

/-- A part holds no code point that the text does not hold. -/
theorem subset_of_mem_splitOn {part : Text} (h : part ∈ splitOn separator t) : part ⊆ t :=
  join_splitOn separator t ▸ subset_join h

end TermText.Text
