import TermText.Proofs.Term.Spelling
import TermText.Term.Encode

/-!
# The encoding is a complete invariant of the form

The encoding of a term of the model always succeeds and has the skeleton that spells the form of the
term: an application is flattened to the operands of its form, whatever annotations stand around its
partial applications. As a readable skeleton is determined by its text and a form by its skeleton,
two terms are rendered alike exactly if their forms are equal. Numerals are written in full, however
long they are.
-/

namespace TermText

/-- The skeleton of a tagged list is headed by the tag. -/
@[simp] theorem Value.skeleton_tagged (tag : Tag) (fields : List Value) :
    (Value.tagged tag fields).skeleton = .headed tag (fields.map Value.skeleton) := by
  rw [Value.tagged, Value.skeleton, Value.skeletons, Value.skeletons_eq_map]
  rfl

namespace Encoding

/-- The encoding succeeds with a value of a given skeleton. -/
def Spells (encoding : Except EncodeError Value) (s : Skeleton) : Prop :=
  ∃ v, encoding = .ok v ∧ v.skeleton = s

/-- A part that is encoded becomes the only field of a headed list. -/
theorem Spells.wrap {a : Except EncodeError Value} {s : Skeleton} (h : Spells a s) (tag : Tag) :
    Spells (do
      let v ← a
      .ok (.tagged tag [v])) (.headed tag [s]) := by
  obtain ⟨v, rfl, rfl⟩ := h
  exact ⟨.tagged tag [v], rfl, Value.skeleton_tagged tag [v]⟩

/-- Two parts that are encoded become the fields of a headed list. -/
theorem Spells.both {a b : Except EncodeError Value} {s t : Skeleton} (ha : Spells a s)
    (hb : Spells b t) (tag : Tag) :
    Spells (do
      let (v, w) ← pair a b
      .ok (.tagged tag [v, w])) (.headed tag [s, t]) := by
  obtain ⟨v, rfl, rfl⟩ := ha
  obtain ⟨w, rfl, rfl⟩ := hb
  exact ⟨.tagged tag [v, w], rfl, Value.skeleton_tagged tag [v, w]⟩

/-- Parts that are encoded one by one are encoded together. -/
theorem exists_all {α : Type} {encode : α → Except EncodeError Value} {spell : α → Skeleton}
    {parts : List α} (h : ∀ x ∈ parts, Spells (encode x) (spell x)) :
    ∃ vs, all (parts.map encode) = .ok vs ∧ vs.map Value.skeleton = parts.map spell := by
  induction parts with
  | nil => exact ⟨[], rfl, rfl⟩
  | cons x rest ih =>
    obtain ⟨v, hv, hskeleton⟩ := h x List.mem_cons_self
    obtain ⟨vs, hvs, hskeletons⟩ := ih fun y hy => h y (List.mem_cons_of_mem _ hy)
    refine ⟨v :: vs, ?_, by rw [List.map_cons, List.map_cons, hskeleton, hskeletons]⟩
    rw [all_eq_ok_iff] at hvs ⊢
    rw [List.map_cons, List.map_cons, hv, hvs]

end Encoding

/-- A segment is encoded as its form is spelled. -/
theorem Segment.skeleton_encode (s : Segment) : s.encode.skeleton = s.form.skeleton := by
  cases s with
  | text t => rw [Segment.encode, Value.skeleton]; rfl
  | number n => rw [Segment.encode, Value.skeleton]; rfl

/-- A name whose hashes are integers is encoded as its form is spelled. -/
theorem Name.encode_spells {n : Name} (h : n.Numbered) :
    Encoding.Spells n.encode n.form.skeleton := by
  cases n with
  | anonymous => exact ⟨_, rfl, Value.skeleton_tagged .anonymous []⟩
  | extend parent segment hash =>
    obtain ⟨⟨above, (habove : parent.hash = .int above)⟩, own, (hown : hash = .int own)⟩ := h
    refine ⟨.tagged .name (.int above :: .int own ::
      ((Name.extend parent segment hash).components.map Segment.encode)), ?_, ?_⟩
    · rw [Name.encode, habove, hown]
      rfl
    · rw [Value.skeleton_tagged, List.map_cons, List.map_cons, List.map_map, Name.form,
        NameForm.skeleton, habove, hown, List.map_map]
      simp only [Function.comp_def, Segment.skeleton_encode, Value.skeleton, Json.whole]

namespace Level

/-- A level of the model is encoded within another one as its form is spelled there. -/
theorem encodeBody_spells {l : Level} (h : l.InModel) :
    Encoding.Spells l.encodeBody l.form.body := by
  induction l with
  | zero => exact ⟨_, rfl, Value.skeleton_tagged .zero []⟩
  | succ l ih => exact (ih h).wrap .succ
  | max a b iha ihb => exact (iha h.1).both (ihb h.2) .max
  | imax a b iha ihb => exact (iha h.1).both (ihb h.2) .imax
  | param name => exact Name.encode_spells h
  | metaVar name => exact Name.encode_spells h
  | foreign f => exact h.elim

/-- A level of the model is encoded as its form is spelled. -/
theorem encode_spells {l : Level} (h : l.InModel) : Encoding.Spells l.encode l.form.skeleton :=
  (encodeBody_spells h).wrap .level

end Level

namespace Term

/-- The head and the arguments of a term of the model are terms of the model. -/
theorem inModel_bareSpineOnto (t : Term) (args : List Term) (h : t.InModel)
    (hargs : ∀ x ∈ args, x.InModel) :
    (t.bareSpineOnto args).1.InModel ∧ ∀ x ∈ (t.bareSpineOnto args).2, x.InModel := by
  fun_induction bareSpineOnto t args with
  | case1 id fn arg args ih => exact ih h.1 (List.forall_mem_cons.mpr ⟨h.2, hargs⟩)
  | case2 id inner data args ih => exact ih h hargs
  | case3 t args => exact ⟨h, hargs⟩

/-- The head and the arguments of a term are spelled like the operands of its form, with further
arguments behind. -/
theorem operands_append_eq (t : Term) (args : List Term) :
    t.form.operands ++ args.map (·.form.skeleton) =
      (t.bareSpineOnto args).1.form.skeleton ::
        (t.bareSpineOnto args).2.map (·.form.skeleton) := by
  fun_induction bareSpineOnto t args with
  | case1 id fn arg args ih =>
    rw [← ih, form, TermForm.operands_app, List.append_assoc, List.map_cons]
    rfl
  | case2 id inner data args ih => rw [← ih, form]
  | case3 t args happ hannotated =>
    rw [TermForm.operands_of_not_app]
    · rfl
    · cases t with
      | app id fn arg => exact absurd rfl (happ id fn arg)
      | annotated id inner data => exact absurd rfl (hannotated id inner data)
      | _ => rfl

/-- An application is encoded by the encodings of its head and its arguments. -/
theorem encode_app (id : NodeId) (fn arg : Term) :
    (Term.app id fn arg).encode = (do
      let (head, args) ← Encoding.pair (fn.bareSpineOnto [arg]).1.encode
        (Encoding.all ((fn.bareSpineOnto [arg]).2.map encode))
      .ok (.tagged .apply (head :: args))) := by
  rw [encode]
  simp

/-- A term of the model is encoded as its form is spelled. -/
theorem encode_spells (t : Term) (h : t.InModel) : Encoding.Spells t.encode t.form.skeleton := by
  -- The induction follows the encoding: it enters the operands of an application, not its function.
  induction t using encode.induct with
  | case1 id index => exact ⟨_, by rw [encode], Value.skeleton_tagged .boundVar [.int index]⟩
  | case2 id name =>
    rw [encode]
    exact Name.encode_spells h
  | case3 id name =>
    rw [encode]
    exact (Name.encode_spells h).wrap .metaVar
  | case4 id level =>
    rw [encode]
    exact (Level.encode_spells h).wrap .sort
  | case5 id name levels =>
    obtain ⟨v, hv, hname⟩ := Name.encode_spells h.1
    obtain ⟨vs, hvs, hlevels⟩ := Encoding.exists_all fun l hl => Level.encode_spells (h.2 l hl)
    refine ⟨.tagged .const [v, .list vs], by rw [encode, hv, hvs]; rfl, ?_⟩
    rw [Value.skeleton_tagged, List.map_cons, List.map_singleton, hname, Value.skeleton,
      Value.skeletons_eq_map, hlevels, form, TermForm.skeleton, List.map_map]
    rfl
  | case6 id fn arg parts ihhead ihargs =>
    obtain ⟨hhead, hargs⟩ := inModel_bareSpineOnto fn [arg] h.1 (List.forall_mem_singleton.mpr h.2)
    obtain ⟨v, hv, hskeleton⟩ := ihhead hhead
    obtain ⟨vs, hvs, hskeletons⟩ := Encoding.exists_all fun x hx => ihargs x hx (hargs x hx)
    refine ⟨.tagged .apply (v :: vs), by rw [encode_app, hv, hvs]; rfl, ?_⟩
    rw [Value.skeleton_tagged, List.map_cons, hskeleton, hskeletons, ← operands_append_eq]
    rfl
  | case7 id type body binder ihtype ihbody =>
    rw [encode]
    exact (ihtype h.1).both (ihbody h.2) .lambda
  | case8 id type body binder ihtype ihbody =>
    rw [encode]
    exact (ihtype h.1).both (ihbody h.2) .pi
  | case9 id type value body binder ihtype ihvalue ihbody =>
    obtain ⟨v, hv, htype⟩ := ihtype h.1
    obtain ⟨x, hx, hvalue⟩ := ihvalue h.2.1
    obtain ⟨w, hw, hbody⟩ := ihbody h.2.2
    refine ⟨.tagged .letIn [v, x, w], by rw [encode, hv, hx, hw]; rfl, ?_⟩
    rw [Value.skeleton_tagged, List.map_cons, List.map_cons, List.map_singleton, htype, hvalue, hbody]
    rfl
  | case10 id value => exact ⟨_, by rw [encode], Value.skeleton_tagged .literal [.int value]⟩
  | case11 id value => exact ⟨_, by rw [encode], Value.skeleton_tagged .literal [.text value]⟩
  | case12 id inner data ih =>
    rw [encode]
    exact ih h
  | case13 id typeName index struct ih =>
    obtain ⟨v, hv, htype⟩ := Name.encode_spells h.1
    obtain ⟨w, hw, hstruct⟩ := ih h.2
    refine ⟨.tagged .proj [v, .int index, w], by rw [encode, hv, hw]; rfl, ?_⟩
    rw [Value.skeleton_tagged, List.map_cons, List.map_cons, List.map_singleton, htype, hstruct]
    rfl
  | case14 id value => exact h.elim
  | case15 id error => exact h.elim
  | case16 id typeName error struct ih => exact h.elim
  | case17 id f => exact h.elim

end Term

/-- The form of a segment is spelled readably. -/
theorem Segment.readable_form (s : Segment) : s.form.skeleton.Readable := by
  cases s with
  | text t => exact fun unit hunit => Text.lt_of_mem_units hunit
  | number n => exact Segment.marked_valid n

/-- The form of a name is spelled readably. -/
theorem Name.readable_form (n : Name) : n.form.skeleton.Readable := by
  cases n with
  | anonymous => simp [form, NameForm.skeleton]
  | extend parent segment hash =>
    simp only [form, NameForm.skeleton, Skeleton.readable_headed, List.forall_mem_cons,
      List.forall_mem_map]
    exact ⟨Skeleton.readable_ofInt _, Skeleton.readable_ofInt _, fun s _ => s.readable_form⟩

/-- The form of a level is spelled readably within another one. -/
theorem Level.readable_body (l : Level) : l.form.body.Readable := by
  induction l with
  | zero => simp [form, LevelForm.body]
  | succ l ih => simpa [form, LevelForm.body] using ih
  | max a b iha ihb => simpa [form, LevelForm.body] using ⟨iha, ihb⟩
  | imax a b iha ihb => simpa [form, LevelForm.body] using ⟨iha, ihb⟩
  | param name => exact name.readable_form
  | metaVar name => exact name.readable_form
  | foreign f => trivial

/-- The form of a level is spelled readably. -/
theorem Level.readable_form (l : Level) : l.form.skeleton.Readable := by
  simpa [LevelForm.skeleton] using l.readable_body

/-- The operands of a function that is spelled readably are readable. -/
theorem TermForm.readable_of_mem_operands {f : TermForm} (h : f.skeleton.Readable) {s : Skeleton}
    (hs : s ∈ f.operands) : s.Readable := by
  cases hf : f.isApp with
  | false =>
    rw [operands_of_not_app hf] at hs
    exact List.mem_singleton.mp hs ▸ h
  | true =>
    rw [skeleton_of_isApp hf, Skeleton.readable_headed] at h
    exact h s hs

namespace Term

/-- The form of a term is spelled readably. -/
theorem readable_form (t : Term) : t.form.skeleton.Readable := by
  induction t with
  | boundVar id index => simp [form, TermForm.skeleton]
  | freeVar id name => exact name.readable_form
  | metaVar id name => simpa [form, TermForm.skeleton] using name.readable_form
  | sort id level => simpa [form, TermForm.skeleton] using level.readable_form
  | const id name levels =>
    rw [form, TermForm.skeleton, Skeleton.readable_headed, List.forall_mem_cons,
      List.forall_mem_singleton]
    refine ⟨name.readable_form, Skeleton.allReadable_iff.mpr ?_⟩
    simpa using fun l _ => l.readable_form
  | app id fn arg ihfn iharg =>
    rw [form, TermForm.skeleton_app, Skeleton.readable_headed]
    intro s hs
    rcases List.mem_append.mp hs with hs | hs
    · exact TermForm.readable_of_mem_operands ihfn hs
    · exact List.mem_singleton.mp hs ▸ iharg
  | lambda id type body binder ihtype ihbody =>
    simpa [form, TermForm.skeleton] using ⟨ihtype, ihbody⟩
  | pi id type body binder ihtype ihbody =>
    simpa [form, TermForm.skeleton] using ⟨ihtype, ihbody⟩
  | letIn id type value body binder ihtype ihvalue ihbody =>
    simpa [form, TermForm.skeleton] using ⟨ihtype, ihvalue, ihbody⟩
  | natural id value => simp [form, TermForm.skeleton]
  | text id value =>
    simp only [form, TermForm.skeleton, Skeleton.readable_headed, List.forall_mem_singleton]
    exact fun unit hunit => Text.lt_of_mem_units hunit
  | annotated id inner data ih => exact ih
  | proj id typeName index struct ih =>
    simpa [form, TermForm.skeleton] using ⟨typeName.readable_form, ih⟩
  | document | unwritable | unwritableProj | foreign => trivial

/-- Two terms of the model have encodings, and these are rendered alike exactly if the terms have
the same form. -/
theorem render_eq_iff_form_eq (e₁ e₂ : Term) (h₁ : e₁.InModel) (h₂ : e₂.InModel) :
    ∃ v₁ v₂, e₁.encode = .ok v₁ ∧ e₂.encode = .ok v₂ ∧
      (v₁.render = v₂.render ↔ e₁.form = e₂.form) := by
  obtain ⟨v₁, hv₁, hs₁⟩ := e₁.encode_spells h₁
  obtain ⟨v₂, hv₂, hs₂⟩ := e₂.encode_spells h₂
  refine ⟨v₁, v₂, hv₁, hv₂, ?_⟩
  rw [Value.render_eq_iff (hs₁ ▸ e₁.readable_form) (hs₂ ▸ e₂.readable_form), hs₁, hs₂]
  exact ⟨TermForm.skeleton_inj, fun h => by rw [h]⟩

/-- An annotation and the kind of a level variable leave no trace in the text, the nesting of
applications does. -/
theorem render_erases_annotation_not_nesting :
    let n : Name := .extend .anonymous (.text "a") (.int 7)
    (∃ v₁ v₂, (Term.annotated 0 (.const 1 n [.param n]) []).encode = .ok v₁ ∧
      (Term.const 0 n [.metaVar n]).encode = .ok v₂ ∧ v₁.render = v₂.render) ∧
    ∃ v₁ v₂, (Term.app 0 (.freeVar 1 n) (.app 2 (.boundVar 3 0) (.boundVar 4 1))).encode = .ok v₁ ∧
      (Term.app 0 (.app 1 (.freeVar 2 n) (.boundVar 3 0)) (.boundVar 4 1)).encode = .ok v₂ ∧
      v₁.render ≠ v₂.render := by
  intro n
  have hn : n.Numbered := ⟨⟨1723, rfl⟩, 7, rfl⟩
  constructor
  · obtain ⟨v₁, v₂, hv₁, hv₂, hsame⟩ := render_eq_iff_form_eq
      (.annotated 0 (.const 1 n [.param n]) []) (.const 0 n [.metaVar n])
      ⟨hn, List.forall_mem_singleton.mpr hn⟩ ⟨hn, List.forall_mem_singleton.mpr hn⟩
    exact ⟨v₁, v₂, hv₁, hv₂, hsame.mpr rfl⟩
  · obtain ⟨v₁, v₂, hv₁, hv₂, hsame⟩ := render_eq_iff_form_eq
      (.app 0 (.freeVar 1 n) (.app 2 (.boundVar 3 0) (.boundVar 4 1)))
      (.app 0 (.app 1 (.freeVar 2 n) (.boundVar 3 0)) (.boundVar 4 1))
      ⟨hn, trivial, trivial⟩ ⟨⟨hn, trivial⟩, trivial⟩
    exact ⟨v₁, v₂, hv₁, hv₂, fun h => absurd (hsame.mp h) (by simp [form])⟩

end Term

end TermText
