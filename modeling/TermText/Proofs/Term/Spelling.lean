import TermText.Proofs.Term.Form
import TermText.Proofs.Value.Skeleton
import TermText.Value.Tag

/-!
# Spellings of forms

The skeleton that spells a form. Every form but that of what is outside the model is spelled by a
list with a keyword in front; the keywords and the numbers of items tell the forms apart, although
an application is spelled by one list with the arguments of its function in front of its own.
-/

namespace TermText

namespace Tag

/-- The tag that a keyword belongs to. -/
def ofKeyword? (t : Text) : Option Tag :=
  [anonymous, name, zero, succ, max, imax, level, boundVar, metaVar, sort, const, apply, lambda, pi,
    letIn, literal, proj, definition, assumption, function, sealed, quotient, data, constructor,
    eliminator, module, moduleName].find? fun tag => tag.keyword == t

/-- A keyword belongs to one tag only. -/
theorem ofKeyword?_keyword (tag : Tag) : ofKeyword? tag.keyword = some tag := by
  cases tag <;> decide +kernel

/-- Two tags with one keyword are the same. -/
theorem keyword_injective {tag tag' : Tag} (h : tag.keyword = tag'.keyword) : tag = tag' := by
  have hsome := congrArg ofKeyword? h
  rw [ofKeyword?_keyword, ofKeyword?_keyword] at hsome
  exact Option.some.inj hsome

end Tag

namespace Numeral

/-- The numeral of an integer is an atom. -/
theorem isValid_ofInt (n : Int) : Atom.isValid (ofInt n) = true := by
  have hfree : (ofInt n).any Atom.isForbidden = false := by
    rw [List.any_eq_false]
    exact forall_mem_ofInt (by decide) (by decide) n
  simp [Atom.isValid, hfree, ofInt_ne_nil]

end Numeral

namespace Skeleton

/-- A list headed by the keyword of a tag. -/
def headed (tag : Tag) (fields : List Skeleton) : Skeleton :=
  .list (.token tag.keyword :: fields)

/-- The items of a list after its head. -/
def fields : Skeleton → List Skeleton
  | .list (_ :: fields) => fields
  | _ => []

/-- A headed list determines its tag and its fields. -/
@[simp] theorem headed_inj {tag tag' : Tag} {fields fields' : List Skeleton} :
    headed tag fields = headed tag' fields' ↔ tag = tag' ∧ fields = fields' := by
  constructor
  · intro h
    obtain ⟨hkeyword, rfl⟩ := List.cons.inj (Skeleton.list.inj h)
    exact ⟨Tag.keyword_injective (Skeleton.token.inj hkeyword), rfl⟩
  · intro hsame
    obtain ⟨rfl, rfl⟩ := hsame
    rfl

/-- A headed list is not empty. -/
@[simp] theorem headed_ne_nil (tag : Tag) (fields : List Skeleton) :
    headed tag fields ≠ .list [] := nofun

/-- The empty list has no head. -/
@[simp] theorem nil_ne_headed (tag : Tag) (fields : List Skeleton) :
    .list [] ≠ headed tag fields := nofun

/-- Items are readable exactly if each is. -/
theorem allReadable_iff {items : List Skeleton} :
    AllReadable items ↔ ∀ item ∈ items, item.Readable := by
  induction items with
  | nil => simp [AllReadable]
  | cons item rest ih => simp [AllReadable, ih]

/-- A headed list is readable exactly if its fields are. -/
@[simp] theorem readable_headed {tag : Tag} {fields : List Skeleton} :
    (headed tag fields).Readable ↔ ∀ field ∈ fields, field.Readable := by
  rw [headed, Readable, AllReadable, Readable, allReadable_iff]
  exact and_iff_right tag.keyword_valid

/-- A numeral can be read back. -/
@[simp] theorem readable_ofInt (n : Int) : (token (Numeral.ofInt n)).Readable :=
  Numeral.isValid_ofInt n

end Skeleton

/-- A segment as it is spelled. -/
def SegmentForm.skeleton : SegmentForm → Skeleton
  | .text units => .quoted units
  | .number n => .token ("#" ++ Numeral.ofNat n)

/-- A name as it is spelled. -/
def NameForm.skeleton : NameForm → Skeleton
  | .anonymous => .headed .anonymous []
  | .chain parentHash hash segments =>
    .headed .name (.token (Numeral.ofInt parentHash) :: .token (Numeral.ofInt hash) ::
      segments.map SegmentForm.skeleton)

/-- A level as it is spelled within another one. -/
def LevelForm.body : LevelForm → Skeleton
  | .zero => .headed .zero []
  | .succ l => .headed .succ [l.body]
  | .max a b => .headed .max [a.body, b.body]
  | .imax a b => .headed .imax [a.body, b.body]
  | .named name => name.skeleton
  | .outside => .list []

/-- A level as it is spelled by itself. -/
def LevelForm.skeleton (l : LevelForm) : Skeleton :=
  .headed .level [l.body]

namespace TermForm

/-- Whether the form is that of an application. -/
def isApp : TermForm → Bool
  | .app .. => true
  | _ => false

/-- A term as it is spelled. An application of an application adds its argument to the fields of its
function. -/
def skeleton : TermForm → Skeleton
  | .boundVar index => .headed .boundVar [.token (Numeral.ofInt index)]
  | .freeVar name => name.skeleton
  | .metaVar name => .headed .metaVar [name.skeleton]
  | .sort level => .headed .sort [level.skeleton]
  | .const name levels => .headed .const [name.skeleton, .list (levels.map LevelForm.skeleton)]
  | .app fn arg =>
    .headed .apply ((if fn.isApp then fn.skeleton.fields else [fn.skeleton]) ++ [arg.skeleton])
  | .lambda type body => .headed .lambda [type.skeleton, body.skeleton]
  | .pi type body => .headed .pi [type.skeleton, body.skeleton]
  | .letIn type value body => .headed .letIn [type.skeleton, value.skeleton, body.skeleton]
  | .natural value => .headed .literal [.token (Numeral.ofInt value)]
  | .text units => .headed .literal [.quoted units]
  | .proj typeName index struct =>
    .headed .proj [typeName.skeleton, .token (Numeral.ofInt index), struct.skeleton]
  | .outside => .list []

/-- The head and the arguments of a function, to which further arguments are added. -/
def operands (fn : TermForm) : List Skeleton :=
  if fn.isApp then fn.skeleton.fields else [fn.skeleton]

/-- The skeleton of an application lists its operands. -/
theorem skeleton_app (fn arg : TermForm) :
    (TermForm.app fn arg).skeleton = .headed .apply (fn.operands ++ [arg.skeleton]) := rfl

/-- The operands of an application are those of its function and its argument. -/
theorem operands_app (fn arg : TermForm) :
    (TermForm.app fn arg).operands = fn.operands ++ [arg.skeleton] := rfl

/-- What is no application is its own only operand. -/
theorem operands_of_not_app {fn : TermForm} (h : fn.isApp = false) : fn.operands = [fn.skeleton] := by
  rw [operands, h]
  rfl

end TermForm

/-- Two forms of segments that are spelled alike are the same. -/
theorem SegmentForm.skeleton_inj {s s' : SegmentForm} (h : s.skeleton = s'.skeleton) : s = s' := by
  cases s with
  | text units =>
    cases s' with
    | text units' => rw [Skeleton.quoted.inj h]
    | number n => cases h
  | number n =>
    cases s' with
    | text units => cases h
    | number n' => rw [Numeral.ofNat_injective (List.append_cancel_left (Skeleton.token.inj h))]

namespace NameForm

/-- Two forms of names that are spelled alike are the same. -/
theorem skeleton_inj {n n' : NameForm} (h : n.skeleton = n'.skeleton) : n = n' := by
  cases n with
  | anonymous =>
    cases n' with
    | anonymous => rfl
    | chain parentHash hash segments => simp [skeleton] at h
  | chain parentHash hash segments =>
    cases n' with
    | anonymous => simp [skeleton] at h
    | chain parentHash' hash' segments' =>
      simp only [skeleton, Skeleton.headed_inj, List.cons.injEq, Skeleton.token.injEq, true_and] at h
      obtain ⟨hparent, hown, hsegments⟩ := h
      rw [Numeral.ofInt_injective hparent, Numeral.ofInt_injective hown,
        (List.map_inj_right fun _ _ => SegmentForm.skeleton_inj).mp hsegments]

/-- A name is spelled with one of its two tags. -/
theorem exists_skeleton_eq (n : NameForm) :
    ∃ fields, n.skeleton = .headed .anonymous fields ∨ n.skeleton = .headed .name fields := by
  cases n with
  | anonymous => exact ⟨_, .inl rfl⟩
  | chain parentHash hash segments => exact ⟨_, .inr rfl⟩

/-- A name is spelled like nothing that has another tag. -/
@[simp] theorem skeleton_ne_headed (n : NameForm) {tag : Tag} (hanonymous : tag ≠ .anonymous)
    (hname : tag ≠ .name) (fields : List Skeleton) : n.skeleton ≠ .headed tag fields := by
  obtain ⟨given, h | h⟩ := n.exists_skeleton_eq
  · rw [h]
    exact fun heq => hanonymous (Skeleton.headed_inj.mp heq).1.symm
  · rw [h]
    exact fun heq => hname (Skeleton.headed_inj.mp heq).1.symm

/-- A name has no head but its own two. -/
@[simp] theorem headed_ne_skeleton (n : NameForm) {tag : Tag} (hanonymous : tag ≠ .anonymous)
    (hname : tag ≠ .name) (fields : List Skeleton) : .headed tag fields ≠ n.skeleton :=
  (n.skeleton_ne_headed hanonymous hname fields).symm

/-- The skeleton of a name is not empty. -/
@[simp] theorem skeleton_ne_nil (n : NameForm) : n.skeleton ≠ .list [] := by
  cases n <;> simp [skeleton]

/-- So the empty list is the skeleton of no name. -/
@[simp] theorem nil_ne_skeleton (n : NameForm) : .list [] ≠ n.skeleton :=
  n.skeleton_ne_nil.symm

end NameForm

namespace LevelForm

/-- Two forms of levels that are spelled alike within others are the same. -/
theorem body_inj {l l' : LevelForm} (h : l.body = l'.body) : l = l' := by
  induction l generalizing l' with
  | zero =>
    cases l' with
    | zero => rfl
    | _ => simp [body] at h
  | succ l ih =>
    cases l' with
    | succ l' =>
      simp only [body, Skeleton.headed_inj, List.cons.injEq, and_true, true_and] at h
      rw [ih h]
    | _ => simp [body] at h
  | max a b iha ihb =>
    cases l' with
    | max a' b' =>
      simp only [body, Skeleton.headed_inj, List.cons.injEq, and_true, true_and] at h
      rw [iha h.1, ihb h.2]
    | _ => simp [body] at h
  | imax a b iha ihb =>
    cases l' with
    | imax a' b' =>
      simp only [body, Skeleton.headed_inj, List.cons.injEq, and_true, true_and] at h
      rw [iha h.1, ihb h.2]
    | _ => simp [body] at h
  | named name =>
    cases l' with
    | named name' => rw [NameForm.skeleton_inj h]
    | _ => simp [body] at h
  | outside =>
    cases l' with
    | outside => rfl
    | _ => simp [body] at h

/-- Two forms of levels that are spelled alike are the same. -/
theorem skeleton_inj {l l' : LevelForm} (h : l.skeleton = l'.skeleton) : l = l' := by
  simp only [skeleton, Skeleton.headed_inj, List.cons.injEq, and_true, true_and] at h
  exact body_inj h

end LevelForm

namespace TermForm

/-- A function has a head among its operands. -/
theorem operands_ne_nil (fn : TermForm) : fn.operands ≠ [] := by
  cases hfn : fn.isApp with
  | false => simp [operands_of_not_app hfn]
  | true =>
    cases fn with
    | app fn arg => simp [operands_app]
    | _ => cases hfn

/-- Exactly an application has more than one operand. -/
theorem isApp_eq (f : TermForm) : f.isApp = decide (1 < f.operands.length) := by
  cases hf : f.isApp with
  | false => simp [operands_of_not_app hf]
  | true =>
    cases f with
    | app fn arg => simpa [operands_app] using List.length_pos_iff.mpr fn.operands_ne_nil
    | _ => cases hf

/-- An application is spelled by its operands. -/
theorem skeleton_of_isApp {f : TermForm} (h : f.isApp = true) :
    f.skeleton = .headed .apply f.operands := by
  cases f with
  | app fn arg => rw [skeleton_app, operands_app]
  | _ => cases h

/-- Functions with the same operands are spelled alike: their number tells an application from what
is none. -/
theorem skeleton_eq_of_operands_eq {f g : TermForm} (h : f.operands = g.operands) :
    f.skeleton = g.skeleton := by
  have hkind : f.isApp = g.isApp := by rw [isApp_eq, isApp_eq, h]
  cases hg : g.isApp with
  | false =>
    rw [operands_of_not_app (hkind.trans hg), operands_of_not_app hg] at h
    exact List.singleton_inj.mp h
  | true => rw [skeleton_of_isApp (hkind.trans hg), skeleton_of_isApp hg, h]

/-- Two forms of terms that are spelled alike are the same. -/
theorem skeleton_inj {f g : TermForm} (h : f.skeleton = g.skeleton) : f = g := by
  induction f generalizing g with
  | boundVar index =>
    cases g with
    | boundVar index' =>
      simp only [skeleton, Skeleton.headed_inj, List.cons.injEq, and_true, true_and,
        Skeleton.token.injEq] at h
      rw [Int.ofNat.inj (Numeral.ofInt_injective h)]
    | _ => simp [skeleton] at h
  | freeVar name =>
    cases g with
    | freeVar name' => rw [NameForm.skeleton_inj h]
    | _ => simp [skeleton] at h
  | metaVar name =>
    cases g with
    | metaVar name' =>
      simp only [skeleton, Skeleton.headed_inj, List.cons.injEq, and_true, true_and] at h
      rw [NameForm.skeleton_inj h]
    | _ => simp [skeleton] at h
  | sort level =>
    cases g with
    | sort level' =>
      simp only [skeleton, Skeleton.headed_inj, List.cons.injEq, and_true, true_and] at h
      rw [LevelForm.skeleton_inj h]
    | _ => simp [skeleton] at h
  | const name levels =>
    cases g with
    | const name' levels' =>
      simp only [skeleton, Skeleton.headed_inj, List.cons.injEq, and_true, true_and,
        Skeleton.list.injEq] at h
      rw [NameForm.skeleton_inj h.1,
        (List.map_inj_right fun _ _ => LevelForm.skeleton_inj).mp h.2]
    | _ => simp [skeleton] at h
  | app fn arg ihfn iharg =>
    cases g with
    | app fn' arg' =>
      rw [skeleton_app, skeleton_app, Skeleton.headed_inj] at h
      obtain ⟨hoperands, hlast⟩ := List.append_inj' h.2 rfl
      rw [ihfn (skeleton_eq_of_operands_eq hoperands), iharg (List.singleton_inj.mp hlast)]
    | _ => simp [skeleton] at h
  | lambda type body ihtype ihbody =>
    cases g with
    | lambda type' body' =>
      simp only [skeleton, Skeleton.headed_inj, List.cons.injEq, and_true, true_and] at h
      rw [ihtype h.1, ihbody h.2]
    | _ => simp [skeleton] at h
  | pi type body ihtype ihbody =>
    cases g with
    | pi type' body' =>
      simp only [skeleton, Skeleton.headed_inj, List.cons.injEq, and_true, true_and] at h
      rw [ihtype h.1, ihbody h.2]
    | _ => simp [skeleton] at h
  | letIn type value body ihtype ihvalue ihbody =>
    cases g with
    | letIn type' value' body' =>
      simp only [skeleton, Skeleton.headed_inj, List.cons.injEq, and_true, true_and] at h
      rw [ihtype h.1, ihvalue h.2.1, ihbody h.2.2]
    | _ => simp [skeleton] at h
  | natural value =>
    cases g with
    | natural value' =>
      simp only [skeleton, Skeleton.headed_inj, List.cons.injEq, and_true, true_and,
        Skeleton.token.injEq] at h
      rw [Int.ofNat.inj (Numeral.ofInt_injective h)]
    | _ => simp [skeleton] at h
  | text units =>
    cases g with
    | text units' =>
      simp only [skeleton, Skeleton.headed_inj, List.cons.injEq, and_true, true_and,
        Skeleton.quoted.injEq] at h
      rw [h]
    | _ => simp [skeleton] at h
  | proj typeName index struct ih =>
    cases g with
    | proj typeName' index' struct' =>
      simp only [skeleton, Skeleton.headed_inj, List.cons.injEq, and_true, true_and,
        Skeleton.token.injEq] at h
      obtain ⟨htype, hindex, hstruct⟩ := h
      rw [NameForm.skeleton_inj htype, Numeral.ofInt_injective hindex, ih hstruct]
    | _ => simp [skeleton] at h
  | outside =>
    cases g with
    | outside => rfl
    | _ => simp [skeleton] at h

end TermForm

end TermText
