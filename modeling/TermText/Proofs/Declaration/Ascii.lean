import TermText.Proofs.Declaration.Agreement
import TermText.Proofs.Text.Ascii

/-!
# Encodings in ASCII

Whatever texts a term, a declaration or a module holds, its encoding is rendered in ASCII: keywords and
numerals are in ASCII, and a text is written as a token. So the rendered encoding has a fingerprint.
-/

namespace TermText

/-- A keyword is of printed ASCII. -/
theorem Tag.ascii_keyword (tag : Tag) : tag.keyword.Ascii := by
  cases tag <;> decide

/-- So is the word for a kind of quotients. -/
theorem QuotientKind.ascii_word (kind : QuotientKind) : kind.word.Ascii := by
  cases kind <;> decide

namespace Skeleton

mutual

/-- A skeleton whose tokens are in ASCII. -/
def Ascii : Skeleton → Prop
  | .token t => t.Ascii
  | .quoted _ => True
  | .list items => AllAscii items

/-- Items whose tokens are in ASCII. -/
def AllAscii : List Skeleton → Prop
  | [] => True
  | item :: rest => Ascii item ∧ AllAscii rest

end

/-- Items are in ASCII exactly if each is. -/
theorem allAscii_iff {items : List Skeleton} : AllAscii items ↔ ∀ item ∈ items, item.Ascii := by
  induction items with
  | nil => simp [AllAscii]
  | cons item rest ih => simp [AllAscii, ih]

/-- A headed list is in ASCII exactly if its fields are. -/
@[simp] theorem ascii_headed {tag : Tag} {fields : List Skeleton} :
    (headed tag fields).Ascii ↔ ∀ field ∈ fields, field.Ascii := by
  rw [headed, Ascii, AllAscii, Ascii, allAscii_iff]
  exact and_iff_right tag.ascii_keyword

/-- A numeral is a token of printed ASCII. -/
@[simp] theorem ascii_ofInt (n : Int) : (token (Numeral.ofInt n)).Ascii :=
  Numeral.ascii_ofInt n

/-- A quoted text is of printed ASCII, whatever its units are. -/
@[simp] theorem ascii_quoted (units : List Nat) : (quoted units).Ascii := trivial

mutual

/-- A skeleton whose tokens are in ASCII is written in ASCII. -/
theorem ascii_write (s : Skeleton) (h : s.Ascii) : s.write.Ascii := by
  have hparens : Text.Ascii "(" ∧ Text.Ascii ")" := by decide
  cases s with
  | token t => exact h
  | quoted units => exact Text.ascii_tokenOf units
  | list items => simp [write, hparens, ascii_writeItems items h]

/-- A list is written in printed ASCII if its items are of it. -/
theorem ascii_writeItems (items : List Skeleton) (h : AllAscii items) :
    (writeItems items).Ascii := by
  have hspace : Text.Ascii " " := by decide
  match items with
  | [] => exact Text.ascii_nil
  | [item] => exact ascii_write item h.1
  | item :: next :: rest =>
    rw [writeItems]
    · simp [hspace, ascii_write item h.1, ascii_writeItems (next :: rest) h.2]
    · simp

end

end Skeleton

/-- A segment has a skeleton of printed ASCII. -/
theorem SegmentForm.ascii_skeleton (s : SegmentForm) : s.skeleton.Ascii := by
  cases s with
  | text units => trivial
  | number n => exact Text.ascii_append.mpr ⟨by decide, Numeral.ascii_ofNat n⟩

/-- A name has a skeleton of printed ASCII. -/
@[simp] theorem NameForm.ascii_skeleton (n : NameForm) : n.skeleton.Ascii := by
  cases n with
  | anonymous => simp [skeleton]
  | chain parentHash hash segments => simp [skeleton, SegmentForm.ascii_skeleton]

/-- A level has a skeleton of printed ASCII within another one. -/
@[simp] theorem LevelForm.ascii_body (l : LevelForm) : l.body.Ascii := by
  induction l with
  | outside => trivial
  | _ => simp_all [body]

namespace TermForm

/-- The operands of a function that is spelled in ASCII are. -/
theorem ascii_of_mem_operands {f : TermForm} (h : f.skeleton.Ascii) {s : Skeleton}
    (hs : s ∈ f.operands) : s.Ascii := by
  cases hf : f.isApp with
  | false =>
    rw [operands_of_not_app hf] at hs
    exact List.mem_singleton.mp hs ▸ h
  | true =>
    rw [skeleton_of_isApp hf, Skeleton.ascii_headed] at h
    exact h s hs

/-- A form is spelled in ASCII. -/
@[simp] theorem ascii_skeleton (f : TermForm) : f.skeleton.Ascii := by
  induction f with
  | const name levels =>
    have hlevels : Skeleton.AllAscii (levels.map LevelForm.skeleton) := by
      simp [Skeleton.allAscii_iff, LevelForm.skeleton]
    rw [skeleton, Skeleton.ascii_headed, List.forall_mem_cons, List.forall_mem_singleton]
    exact ⟨name.ascii_skeleton, hlevels⟩
  | app fn arg ihfn iharg =>
    rw [skeleton_app, Skeleton.ascii_headed]
    intro s hs
    rcases List.mem_append.mp hs with hs | hs
    · exact ascii_of_mem_operands ihfn hs
    · exact List.mem_singleton.mp hs ▸ iharg
  | outside => trivial
  | _ => simp_all [skeleton, LevelForm.skeleton]

end TermForm

namespace Declaration

mutual

/-- A declaration is spelled in ASCII. -/
theorem ascii_skeleton (d : Declaration) : d.skeleton.Ascii := by
  cases d with
  | mk name type payload =>
    have hpayload := ascii_payloadSkeleton type payload
    simp [skeleton, hpayload]

/-- A payload has a skeleton of printed ASCII. -/
theorem ascii_payloadSkeleton (type : Term) (payload : Payload) :
    (payloadSkeleton type payload).Ascii := by
  cases payload with
  | quotient kind typeName =>
    rw [payloadSkeleton, Skeleton.ascii_headed, List.forall_mem_cons, List.forall_mem_singleton]
    exact ⟨kind.ascii_word, typeName.form.ascii_skeleton⟩
  | family constructors =>
    rw [payloadSkeleton, Skeleton.ascii_headed, List.forall_mem_cons, List.forall_mem_singleton]
    exact ⟨type.form.ascii_skeleton, allAscii_skeletons constructors⟩
  | foreign f => exact trivial
  | _ => simp [payloadSkeleton]

/-- Several declarations have skeletons of printed ASCII. -/
theorem allAscii_skeletons (ds : List Declaration) : Skeleton.AllAscii (skeletons ds) := by
  cases ds with
  | nil => exact trivial
  | cons d rest => exact ⟨ascii_skeleton d, allAscii_skeletons rest⟩

end

end Declaration

/-- A module is spelled in ASCII. -/
theorem Module.ascii_skeleton (internal : Name → Bool) (m : Module) :
    (m.skeleton internal).Ascii := by
  rw [skeleton, Skeleton.ascii_headed, List.forall_mem_cons, Skeleton.ascii_headed,
    List.forall_mem_singleton]
  exact ⟨m.name.form.ascii_skeleton,
    Skeleton.allAscii_iff.mp (Declaration.allAscii_skeletons (m.visible internal))⟩

/-- An encoding whose skeleton is in ASCII is rendered in ASCII. -/
theorem Encoding.Spells.exists_ascii {encoding : Except EncodeError Value} {s : Skeleton}
    (h : Spells encoding s) (hs : s.Ascii) : ∃ v, encoding = .ok v ∧ v.render.Ascii := by
  obtain ⟨v, hv, rfl⟩ := h
  exact ⟨v, hv, Value.render_eq_write v ▸ Skeleton.ascii_write _ hs⟩

/-- A declaration of the model has an encoding that is rendered in ASCII. -/
theorem Declaration.InModel.exists_ascii {d : Declaration} (h : d.InModel) :
    ∃ v, d.encode = .ok v ∧ v.render.Ascii :=
  (d.encode_spells h).exists_ascii d.ascii_skeleton

/-- So has a module, whatever names are internal. -/
theorem Module.InModel.exists_ascii {internal : Name → Bool} {m : Module} (h : m.InModel internal) :
    ∃ v, m.encode internal = .ok v ∧ v.render.Ascii :=
  (encode_spells h).exists_ascii (m.ascii_skeleton internal)

end TermText
