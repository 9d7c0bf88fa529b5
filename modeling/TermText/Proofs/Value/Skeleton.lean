import TermText.Proofs.Text.Numerals
import TermText.Proofs.Text.Units
import TermText.Value.Basic

/-!
# Skeletons of values

A skeleton is what the rendered text of a value determines: the shape of its lists, the units of its
texts, and the bare tokens of everything else, of whatever kind. Rendering reads a value's skeleton
only, and of readable skeletons no two are written alike, whatever text follows them.
-/

namespace TermText

/-- A value as it is printed: bare tokens, quoted units, and lists. -/
inductive Skeleton where
  | token (t : Text)
  | quoted (units : List Nat)
  | list (items : List Skeleton)

namespace Skeleton

mutual

/-- A skeleton on one line. -/
def write : Skeleton → Text
  | .token t => t
  | .quoted units => Text.tokenOf units
  | .list items => "(" ++ writeItems items ++ ")"

/-- Items with single spaces between them. -/
def writeItems : List Skeleton → Text
  | [] => []
  | [item] => write item
  | item :: rest => write item ++ " " ++ writeItems rest

end

mutual

/-- A skeleton whose tokens are atoms and whose units have 16 bits. -/
def Readable : Skeleton → Prop
  | .token t => Atom.isValid t = true
  | .quoted units => ∀ unit ∈ units, unit < 0x10000
  | .list items => AllReadable items

/-- Readable items. -/
def AllReadable : List Skeleton → Prop
  | [] => True
  | item :: rest => Readable item ∧ AllReadable rest

end

end Skeleton

/-- A text that starts with what ends an atom, or is empty. -/
def Text.Stops (t : Text) : Prop :=
  ∀ c rest, t = c :: rest → Atom.isForbidden c = true

/-- An atom holds nothing that would end it. -/
theorem Atom.not_forbidden {t : Text} (h : Atom.isValid t = true) :
    ∀ c ∈ t, Atom.isForbidden c = false := by
  simp only [Atom.isValid, Bool.and_eq_true, Bool.not_eq_true', List.any_eq_false] at h
  intro c hc
  simpa using h.2 c hc

/-- Atoms end where something follows that ends an atom. -/
theorem Atom.append_inj {t t' r r' : Text} (ht : ∀ c ∈ t, Atom.isForbidden c = false)
    (ht' : ∀ c ∈ t', Atom.isForbidden c = false) (hr : r.Stops) (hr' : r'.Stops)
    (h : t ++ r = t' ++ r') : t = t' ∧ r = r' := by
  induction t generalizing t' with
  | nil =>
    cases t' with
    | nil => exact ⟨rfl, h⟩
    | cons c' rest' =>
      have hfree := ht' c' List.mem_cons_self
      rw [hr c' _ h] at hfree
      cases hfree
  | cons c rest ih =>
    cases t' with
    | nil =>
      have hfree := ht c List.mem_cons_self
      rw [hr' c _ h.symm] at hfree
      cases hfree
    | cons c' rest' =>
      obtain ⟨rfl, hrest⟩ := List.cons.inj h
      obtain ⟨rfl, rfl⟩ := ih (fun d hd => ht d (List.mem_cons_of_mem _ hd))
        (fun d hd => ht' d (List.mem_cons_of_mem _ hd)) hrest
      exact ⟨rfl, rfl⟩

namespace Skeleton

/-- The code points that a skeleton of a kind may start with. -/
def StartsWith : Skeleton → CodePoint → Prop
  | .token _, c => Atom.isForbidden c = false
  | .quoted _, c => c = CodePoint.ofChar '"'
  | .list _, c => c = CodePoint.ofChar '('

/-- A readable skeleton starts like its kind. -/
theorem exists_startsWith {a : Skeleton} (h : a.Readable) :
    ∃ c rest, a.write = c :: rest ∧ a.StartsWith c := by
  cases a with
  | token t =>
    cases t with
    | nil => simp [Readable, Atom.isValid] at h
    | cons c rest => exact ⟨c, rest, rfl, Atom.not_forbidden h c List.mem_cons_self⟩
  | quoted units => exact ⟨_, _, rfl, rfl⟩
  | list items => exact ⟨_, _, rfl, rfl⟩

/-- Skeletons that are written alike start with a code point that both kinds may start with. -/
theorem exists_startsWith_both {a b : Skeleton} (ha : a.Readable) (hb : b.Readable) {r r' : Text}
    (h : a.write ++ r = b.write ++ r') : ∃ c, a.StartsWith c ∧ b.StartsWith c := by
  obtain ⟨c, rest, hwrite, hc⟩ := exists_startsWith ha
  obtain ⟨c', rest', hwrite', hc'⟩ := exists_startsWith hb
  rw [hwrite, hwrite'] at h
  exact ⟨c, hc, (List.cons.inj h).1 ▸ hc'⟩

/-- No readable skeleton starts like the end of a list. -/
theorem write_append_ne_close {a : Skeleton} (h : a.Readable) (r r' : Text) :
    a.write ++ r ≠ CodePoint.ofChar ')' :: r' := by
  obtain ⟨c, rest, hwrite, hc⟩ := exists_startsWith h
  rw [hwrite]
  intro heq
  obtain ⟨rfl, _⟩ := List.cons.inj heq
  cases a with
  | token t => exact absurd (show Atom.isForbidden _ = false from hc) (by decide)
  | quoted units => exact absurd (show _ = CodePoint.ofChar '"' from hc) (by decide)
  | list items => exact absurd (show _ = CodePoint.ofChar '(' from hc) (by decide)

/-- What follows an item of a list: the end of the list, or a space and further items. -/
def writeRest (rest : List Skeleton) (r : Text) : Text :=
  match rest with
  | [] => CodePoint.ofChar ')' :: r
  | item :: rest => CodePoint.ofChar ' ' :: (writeItems (item :: rest) ++ CodePoint.ofChar ')' :: r)

/-- A list is written with its first item in front of the rest. -/
theorem writeItems_cons (item : Skeleton) (rest : List Skeleton) (r : Text) :
    writeItems (item :: rest) ++ CodePoint.ofChar ')' :: r = item.write ++ writeRest rest r := by
  cases rest with
  | nil => rfl
  | cons next rest =>
    rw [writeItems, writeRest, List.append_assoc, List.append_assoc]
    · rfl
    · simp

/-- A token that stands before the rest of a list ends there. -/
theorem stops_writeRest (rest : List Skeleton) (r : Text) : (writeRest rest r).Stops := by
  intro c t h
  cases rest with
  | nil =>
    obtain ⟨rfl, _⟩ := List.cons.inj h
    decide
  | cons item rest =>
    obtain ⟨rfl, _⟩ := List.cons.inj h
    decide

mutual

/-- A readable skeleton is determined by its text, whatever follows it. -/
theorem write_append_inj (a b : Skeleton) (ha : a.Readable) (hb : b.Readable) {r r' : Text}
    (hr : r.Stops) (hr' : r'.Stops) (h : a.write ++ r = b.write ++ r') : a = b ∧ r = r' := by
  obtain ⟨c, hc, hc'⟩ := exists_startsWith_both ha hb h
  cases a with
  | token t =>
    cases b with
    | token t' =>
      obtain ⟨rfl, rfl⟩ := Atom.append_inj (Atom.not_forbidden ha) (Atom.not_forbidden hb) hr hr' h
      exact ⟨rfl, rfl⟩
    | quoted vs =>
      obtain rfl : c = CodePoint.ofChar '"' := hc'
      exact absurd (show Atom.isForbidden _ = false from hc) (by decide)
    | list bs =>
      obtain rfl : c = CodePoint.ofChar '(' := hc'
      exact absurd (show Atom.isForbidden _ = false from hc) (by decide)
  | quoted us =>
    obtain rfl : c = CodePoint.ofChar '"' := hc
    cases b with
    | token t' => exact absurd (show Atom.isForbidden _ = false from hc') (by decide)
    | quoted vs =>
      obtain ⟨rfl, rfl⟩ := Text.tokenOf_append_inj ha hb h
      exact ⟨rfl, rfl⟩
    | list bs => exact absurd (show _ = CodePoint.ofChar '(' from hc') (by decide)
  | list as =>
    obtain rfl : c = CodePoint.ofChar '(' := hc
    cases b with
    | token t' => exact absurd (show Atom.isForbidden _ = false from hc') (by decide)
    | quoted vs => exact absurd (show _ = CodePoint.ofChar '"' from hc') (by decide)
    | list bs =>
      have hitems : writeItems as ++ CodePoint.ofChar ')' :: r =
          writeItems bs ++ CodePoint.ofChar ')' :: r' := by
        simp only [write, List.append_assoc] at h
        exact (List.cons.inj h).2
      obtain ⟨rfl, rfl⟩ := writeItems_append_inj as bs ha hb hitems
      exact ⟨rfl, rfl⟩
termination_by sizeOf a

/-- Readable items are determined by their text up to the end of the list. -/
theorem writeItems_append_inj (as bs : List Skeleton) (has : AllReadable as) (hbs : AllReadable bs)
    {r r' : Text} (h : writeItems as ++ CodePoint.ofChar ')' :: r =
      writeItems bs ++ CodePoint.ofChar ')' :: r') : as = bs ∧ r = r' := by
  cases as with
  | nil =>
    cases bs with
    | nil => exact ⟨rfl, (List.cons.inj h).2⟩
    | cons b bs =>
      rw [writeItems_cons] at h
      exact absurd h.symm (write_append_ne_close hbs.1 _ _)
  | cons a as =>
    cases bs with
    | nil =>
      rw [writeItems_cons] at h
      exact absurd h (write_append_ne_close has.1 _ _)
    | cons b bs =>
      rw [writeItems_cons, writeItems_cons] at h
      obtain ⟨rfl, hrest⟩ := write_append_inj a b has.1 hbs.1 (stops_writeRest as r)
        (stops_writeRest bs r') h
      cases as with
      | nil =>
        cases bs with
        | nil => exact ⟨rfl, (List.cons.inj hrest).2⟩
        | cons b bs => exact absurd (List.cons.inj hrest).1 (by decide)
      | cons a' as =>
        cases bs with
        | nil => exact absurd (List.cons.inj hrest).1 (by decide)
        | cons b bs =>
          obtain ⟨hsame, rfl⟩ := writeItems_append_inj (a' :: as) (b :: bs) has.2 hbs.2
            (List.cons.inj hrest).2
          exact ⟨congrArg _ hsame, rfl⟩
termination_by sizeOf as

end

/-- Readable skeletons are determined by their texts. -/
theorem write_inj {a b : Skeleton} (ha : a.Readable) (hb : b.Readable) (h : a.write = b.write) :
    a = b := by
  have hstops : Text.Stops [] := nofun
  exact (write_append_inj a b ha hb hstops hstops (by rw [h])).1

end Skeleton

namespace Value

mutual

/-- The skeleton of a value. -/
def skeleton : Value → Skeleton
  | .atom a => .token a.text
  | .text t => .quoted t.units
  | .int n => .token (Numeral.ofInt n)
  | .float x => .token x.toText
  | .list items => .list (skeletons items)
  | .document given => .token given.compact

/-- The skeletons of several values. -/
def skeletons : List Value → List Skeleton
  | [] => []
  | item :: rest => skeleton item :: skeletons rest

end

/-- The skeletons of several values are those of each. -/
theorem skeletons_eq_map (items : List Value) : skeletons items = items.map skeleton := by
  induction items with
  | nil => rfl
  | cons item rest ih => rw [skeletons, ih, List.map_cons]

mutual

/-- Rendering reads the skeleton of a value only. -/
theorem render_eq_write : ∀ v : Value, v.render = v.skeleton.write
  | .atom a => rfl
  | .text t => Text.escaped_eq_tokenOf t
  | .int n => rfl
  | .float x => rfl
  | .list items => by rw [render, skeleton, Skeleton.write, renderItems_eq_writeItems]
  | .document given => rfl

/-- Items are rendered as their skeletons are written. -/
theorem renderItems_eq_writeItems : ∀ items : List Value,
    renderItems items = Skeleton.writeItems (skeletons items)
  | [] => rfl
  | [item] => by rw [renderItems, skeletons, skeletons, Skeleton.writeItems, render_eq_write item]
  | item :: next :: rest => by
    rw [renderItems, skeletons, skeletons, Skeleton.writeItems, render_eq_write item,
      renderItems_eq_writeItems (next :: rest), skeletons]
    · simp
    · simp

end

/-- Values whose skeletons are readable are rendered alike exactly if their skeletons are equal. -/
theorem render_eq_iff {v w : Value} (hv : v.skeleton.Readable) (hw : w.skeleton.Readable) :
    v.render = w.render ↔ v.skeleton = w.skeleton := by
  rw [render_eq_write, render_eq_write]
  exact ⟨Skeleton.write_inj hv hw, fun h => by rw [h]⟩

end Value

end TermText
