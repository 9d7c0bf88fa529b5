import TermText.Proofs.Binary64.Mark
import TermText.Proofs.Term.Spelling
import TermText.Proofs.Text.Surrogates

/-!
# Which values are rendered alike

Two values are rendered alike exactly if they have the same tree of lists, texts of the same units at
the same leaves, and the same bare tokens at the others. So a text never reads as anything else, and
an integer never as a double; but an atom may be spelled like a number, and a pair of surrogates reads
as the code point that it stands for.

Doubles are compared by their texts. Values that hold a document in the place of a text are left out.
-/

namespace TermText.Value

/-- The bare token that a leaf is printed as; a text and a list have none. -/
def token? : Value → Option Text
  | .atom a => some a.text
  | .int n => some (Numeral.ofInt n)
  | .float x => some x.toText
  | _ => none

mutual

/-- Two values of one tree shape with texts of the same units at the same leaves and the same tokens
at the others. -/
def Alike : Value → Value → Prop
  | .list vs, .list ws => AllAlike vs ws
  | .text t, .text t' => t.units = t'.units
  | v, w => ∃ t, v.token? = some t ∧ w.token? = some t

/-- As many values on both sides, alike one by one. -/
def AllAlike : List Value → List Value → Prop
  | [], [] => True
  | v :: vs, w :: ws => Alike v w ∧ AllAlike vs ws
  | _, _ => False

end

mutual

/-- Two values that are equal but for numbers that are spelled by atoms and pairs of surrogates that
are joined. -/
def EqualUpToSpelling : Value → Value → Prop
  | .atom a, .atom b => a = b
  | .int m, .int n => m = n
  | .float x, .float y => x.toText = y.toText
  | .text t, .text t' => t.joinPairs = t'.joinPairs
  | .atom a, .int n | .int n, .atom a => a.text = Numeral.ofInt n
  | .atom a, .float x | .float x, .atom a => a.text = x.toText
  | .list vs, .list ws => AllEqualUpToSpelling vs ws
  | _, _ => False

/-- As many values on both sides, equal up to spelling one by one. -/
def AllEqualUpToSpelling : List Value → List Value → Prop
  | [], [] => True
  | v :: vs, w :: ws => EqualUpToSpelling v w ∧ AllEqualUpToSpelling vs ws
  | _, _ => False

end

mutual

/-- A value without documents. -/
def Plain : Value → Prop
  | .document _ => False
  | .list items => AllPlain items
  | _ => True

/-- Values without documents. -/
def AllPlain : List Value → Prop
  | [] => True
  | item :: rest => Plain item ∧ AllPlain rest

end

mutual

/-- A value without documents is printed readably. -/
theorem readable_skeleton : ∀ v : Value, v.Plain → v.skeleton.Readable
  | .atom a, _ => a.valid
  | .text _, _ => fun _ hunit => Text.lt_of_mem_units hunit
  | .int n, _ => Numeral.isValid_ofInt n
  | .float x, _ => x.isValid_toText
  | .list items, h => allReadable_skeletons items h
  | .document _, h => h.elim

/-- Plain values have skeletons that can be read back. -/
theorem allReadable_skeletons : ∀ items : List Value, AllPlain items →
    Skeleton.AllReadable (skeletons items)
  | [], _ => trivial
  | item :: rest, h => ⟨readable_skeleton item h.1, allReadable_skeletons rest h.2⟩

end

mutual

/-- Values without documents have one skeleton exactly if they are alike. -/
theorem skeleton_eq_iff_alike (v w : Value) (hv : v.Plain) (hw : w.Plain) :
    v.skeleton = w.skeleton ↔ v.Alike w := by
  cases v with
  | list vs =>
    cases w with
    | list ws =>
      have hitems := skeletons_eq_iff_allAlike vs ws hv hw
      simpa [skeleton, Alike] using hitems
    | document given => exact hw.elim
    | _ => simp [skeleton, Alike, token?]
  | text t => cases w <;> simp [skeleton, Alike, token?]
  | document given => exact hv.elim
  | _ =>
    cases w with
    | document given => exact hw.elim
    | _ => simp [skeleton, Alike, token?, eq_comm]

/-- Lists of plain values have the same skeletons exactly if they are alike one by one. -/
theorem skeletons_eq_iff_allAlike (vs ws : List Value) (hvs : AllPlain vs) (hws : AllPlain ws) :
    skeletons vs = skeletons ws ↔ AllAlike vs ws := by
  cases vs with
  | nil => cases ws <;> simp [skeletons, AllAlike]
  | cons v vs =>
    cases ws with
    | nil => simp [skeletons, AllAlike]
    | cons w ws =>
      have hfirst := skeleton_eq_iff_alike v w hvs.1 hws.1
      have hrest := skeletons_eq_iff_allAlike vs ws hvs.2 hws.2
      rw [skeletons, skeletons, List.cons.injEq, hfirst, hrest, AllAlike]

end

mutual

/-- Values are alike exactly if they are equal but for numbers spelled by atoms and joined pairs. -/
theorem alike_iff_equalUpToSpelling (v w : Value) : v.Alike w ↔ v.EqualUpToSpelling w := by
  cases v with
  | list vs =>
    cases w with
    | list ws =>
      have hitems := allAlike_iff_allEqualUpToSpelling vs ws
      rwa [Alike, EqualUpToSpelling]
    | _ => simp [Alike, EqualUpToSpelling, token?]
  | text t =>
    cases w with
    | text t' => rw [Alike, EqualUpToSpelling, Text.units_eq_iff]
    | _ => simp [Alike, EqualUpToSpelling, token?]
  | int m =>
    cases w with
    | int n =>
      have hnumerals : Numeral.ofInt n = Numeral.ofInt m ↔ m = n :=
        ⟨fun h => (Numeral.ofInt_injective h).symm, fun h => by rw [h]⟩
      simpa [Alike, EqualUpToSpelling, token?] using hnumerals
    | float x => simp [Alike, EqualUpToSpelling, token?, x.toText_ne_ofInt]
    | _ => simp [Alike, EqualUpToSpelling, token?]
  | float x =>
    cases w with
    | int n => simp [Alike, EqualUpToSpelling, token?, (x.toText_ne_ofInt n).symm]
    | _ => simp [Alike, EqualUpToSpelling, token?, eq_comm]
  | atom a =>
    cases w with
    | atom b =>
      obtain ⟨t, ht⟩ := a
      obtain ⟨u, hu⟩ := b
      simp [Alike, EqualUpToSpelling, token?, eq_comm]
    | _ => simp [Alike, EqualUpToSpelling, token?, eq_comm]
  | document given => cases w <;> simp [Alike, EqualUpToSpelling, token?]

/-- Values are alike one by one exactly if they are equal up to their spelling. -/
theorem allAlike_iff_allEqualUpToSpelling (vs ws : List Value) :
    AllAlike vs ws ↔ AllEqualUpToSpelling vs ws := by
  cases vs with
  | nil => cases ws <;> simp [AllEqualUpToSpelling, AllAlike]
  | cons v vs =>
    cases ws with
    | nil => simp [AllEqualUpToSpelling, AllAlike]
    | cons w ws =>
      have hfirst := alike_iff_equalUpToSpelling v w
      have hrest := allAlike_iff_allEqualUpToSpelling vs ws
      rw [AllAlike, AllEqualUpToSpelling, hfirst, hrest]

end

/-- Of any two values without documents: they are rendered alike exactly if they have one tree shape
with texts of the same units at the same leaves and the same tokens at the others. That is, they are
equal but for atoms spelled like numbers and pairs of surrogates that stand for one code point. -/
theorem render_eq_iff_alike (v w : Value) (hv : v.Plain) (hw : w.Plain) :
    (v.render = w.render ↔ v.Alike w) ∧ (v.render = w.render ↔ v.EqualUpToSpelling w) := by
  have halike : v.render = w.render ↔ v.Alike w := by
    rw [render_eq_iff (readable_skeleton v hv) (readable_skeleton w hw)]
    exact skeleton_eq_iff_alike v w hv hw
  exact ⟨halike, halike.trans (alike_iff_equalUpToSpelling v w)⟩

/-- A pair of surrogates reads as the code point that it stands for and an atom as the number that it
spells, but an empty list does not read as an empty text. -/
theorem render_joins_pairs_and_spells_numbers :
    let twelve : Atom := ⟨Numeral.ofInt 12, Numeral.isValid_ofInt 12⟩
    let v : Value := .list [.text [0xD83D, 0xDE00], .list [], .int 12]
    let w : Value := .list [.text [0x1F600], .list [], .atom twelve]
    let u : Value := .list [.text [0x1F600], .text [], .atom twelve]
    (v.Plain ∧ w.Plain ∧ v.render = w.render) ∧ u.Plain ∧ v.render ≠ u.render := by
  intro twelve v w u
  have hv : v.Plain := ⟨trivial, trivial, trivial, trivial⟩
  have hw : w.Plain := ⟨trivial, trivial, trivial, trivial⟩
  have hu : u.Plain := ⟨trivial, trivial, trivial, trivial⟩
  have hjoin : Text.joinPairs [0xD83D, 0xDE00] = Text.joinPairs [0x1F600] := by decide
  refine ⟨⟨hv, hw, ?_⟩, hu, ?_⟩
  · exact (render_eq_iff_alike v w hv hw).2.mpr ⟨hjoin, trivial, rfl, trivial⟩
  · intro h
    exact ((render_eq_iff_alike v u hv hu).2.mp h).2.1

end TermText.Value
