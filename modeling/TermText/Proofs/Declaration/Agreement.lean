import TermText.Declaration.Encode
import TermText.Proofs.Term.Invariant

/-!
# What the text of a module shows

The text of a module determines what is visible of it, and nothing else does. Declarations are
rendered alike exactly if they agree: their names, types and payloads are rendered alike, where only
definitions and proofs of one value are taken for one another, and the constructors of families agree
one by one. Two modules are rendered alike exactly if their names are and their visible declarations
agree one by one.

Names and terms are compared by their own texts here; what these determine is another matter.
-/

namespace TermText

/-- Two encodings that succeed with values that are rendered alike. -/
def Encoding.Alike (a b : Except EncodeError Value) : Prop :=
  ∃ v w, a = .ok v ∧ b = .ok w ∧ v.render = w.render

/-- Encodings whose skeletons are readable are alike exactly if their skeletons are equal. -/
theorem Encoding.Spells.alike_iff {a b : Except EncodeError Value} {s t : Skeleton}
    (ha : Spells a s) (hb : Spells b t) (hs : s.Readable) (ht : t.Readable) :
    Encoding.Alike a b ↔ s = t := by
  obtain ⟨v, rfl, rfl⟩ := ha
  obtain ⟨w, rfl, rfl⟩ := hb
  simp [Encoding.Alike, Value.render_eq_iff hs ht]

/-- Names whose numbers are integers are encoded alike exactly if their skeletons agree. -/
theorem Name.alike_iff {n n' : Name} (h : n.Numbered) (h' : n'.Numbered) :
    Encoding.Alike n.encode n'.encode ↔ n.form.skeleton = n'.form.skeleton :=
  (Name.encode_spells h).alike_iff (Name.encode_spells h') n.readable_form n'.readable_form

/-- Terms of the model are encoded alike exactly if their skeletons agree. -/
theorem Term.alike_iff {t t' : Term} (h : t.InModel) (h' : t'.InModel) :
    Encoding.Alike t.encode t'.encode ↔ t.form.skeleton = t'.form.skeleton :=
  (t.encode_spells h).alike_iff (t'.encode_spells h') t.readable_form t'.readable_form

/-- The words for two quotient constants differ. -/
theorem QuotientKind.word_injective {kind kind' : QuotientKind} (h : kind.word = kind'.word) :
    kind = kind' := by
  cases kind <;> cases kind' <;> first | rfl | exact absurd h (by decide)

namespace Declaration

mutual

/-- Two declarations whose names, types and payloads show the same. -/
def Agree : Declaration → Declaration → Prop
  | .mk name type payload, .mk name' type' payload' =>
    Encoding.Alike name.encode name'.encode ∧ Encoding.Alike type.encode type'.encode ∧
      PayloadsAgree payload payload'

/-- Two payloads that show the same: they are of one kind, definitions and proofs counting as one, and
hold the same. -/
def PayloadsAgree : Payload → Payload → Prop
  | .assumption, .assumption => True
  | .definition v, .definition w | .definition v, .proof w | .proof v, .definition w
  | .proof v, .proof w => Encoding.Alike v.encode w.encode
  | .sealed v, .sealed w => Encoding.Alike v.encode w.encode
  | .quotient kind typeName, .quotient kind' typeName' =>
    kind = kind' ∧ Encoding.Alike typeName.encode typeName'.encode
  | .family constructors, .family constructors' => AllAgree constructors constructors'
  | .constructor owner, .constructor owner' => Encoding.Alike owner.encode owner'.encode
  | .eliminator, .eliminator => True
  | _, _ => False

/-- As many declarations on both sides, which agree one by one. -/
def AllAgree : List Declaration → List Declaration → Prop
  | [], [] => True
  | d :: ds, d' :: ds' => Agree d d' ∧ AllAgree ds ds'
  | _, _ => False

end

mutual

/-- A declaration whose names, terms and payloads are of the model. -/
def InModel : Declaration → Prop
  | .mk name type payload => name.Numbered ∧ type.InModel ∧ PayloadInModel payload

/-- A payload of the eight kinds of the model. -/
def PayloadInModel : Payload → Prop
  | .assumption | .eliminator => True
  | .definition value | .proof value | .sealed value => value.InModel
  | .quotient _ name | .constructor name => name.Numbered
  | .family constructors => AllInModel constructors
  | .foreign _ => False

/-- Declarations of the model. -/
def AllInModel : List Declaration → Prop
  | [] => True
  | d :: rest => InModel d ∧ AllInModel rest

end

mutual

/-- A declaration as it is spelled. -/
def skeleton : Declaration → Skeleton
  | .mk name type payload =>
    .headed .definition [name.form.skeleton, type.form.skeleton, payloadSkeleton type payload]

/-- The payload of a declaration with a given type as it is spelled. -/
def payloadSkeleton (type : Term) : Payload → Skeleton
  | .assumption => .headed .assumption []
  | .definition value | .proof value => .headed .function [value.form.skeleton]
  | .sealed value => .headed .sealed [value.form.skeleton]
  | .quotient kind typeName => .headed .quotient [.token kind.word, typeName.form.skeleton]
  | .family constructors => .headed .data [type.form.skeleton, .list (skeletons constructors)]
  | .constructor owner => .headed .constructor [owner.form.skeleton]
  | .eliminator => .headed .eliminator [type.form.skeleton]
  | .foreign _ => .list []

/-- Several declarations as they are spelled. -/
def skeletons : List Declaration → List Skeleton
  | [] => []
  | d :: rest => skeleton d :: skeletons rest

end

/-- Several declarations are of the model exactly if each is. -/
theorem allInModel_iff {ds : List Declaration} : AllInModel ds ↔ ∀ d ∈ ds, d.InModel := by
  induction ds with
  | nil => simp [AllInModel]
  | cons d rest ih => simp [AllInModel, ih]

mutual

/-- A declaration of the model is encoded as it is spelled. -/
theorem encode_spells (d : Declaration) (h : d.InModel) : Encoding.Spells d.encode d.skeleton := by
  cases d with
  | mk name type payload =>
    obtain ⟨hname, htype, hpayload⟩ := h
    obtain ⟨n, hn, hnameSkeleton⟩ := Name.encode_spells hname
    obtain ⟨t, ht, htypeSkeleton⟩ := type.encode_spells htype
    obtain ⟨p, hp, hpayloadSkeleton⟩ := encodePayload_spells type htype payload hpayload
    refine ⟨.tagged .definition [n, t, p], by rw [encode, hn, ht, hp]; rfl, ?_⟩
    rw [Value.skeleton_tagged, skeleton, ← hnameSkeleton, ← htypeSkeleton, ← hpayloadSkeleton]
    rfl

/-- A payload of the model is encoded as it is spelled. -/
theorem encodePayload_spells (type : Term) (htype : type.InModel) (payload : Payload)
    (h : PayloadInModel payload) :
    Encoding.Spells (encodePayload type payload) (payloadSkeleton type payload) := by
  cases payload with
  | assumption => exact ⟨_, rfl, Value.skeleton_tagged .assumption []⟩
  | definition value => exact (value.encode_spells h).wrap .function
  | proof value => exact (value.encode_spells h).wrap .function
  | sealed value => exact (value.encode_spells h).wrap .sealed
  | quotient kind typeName =>
    obtain ⟨n, hn, hskeleton⟩ := Name.encode_spells h
    refine ⟨.tagged .quotient [.atom ⟨kind.word, kind.word_valid⟩, n],
      by rw [encodePayload, hn]; rfl, ?_⟩
    rw [Value.skeleton_tagged, payloadSkeleton, ← hskeleton]
    rfl
  | family constructors =>
    obtain ⟨t, ht, hskeleton⟩ := type.encode_spells htype
    obtain ⟨vs, hvs, hskeletons⟩ := exists_encodeAll constructors h
    refine ⟨.tagged .data [t, .list vs], by rw [encodePayload, ht, hvs]; rfl, ?_⟩
    rw [Value.skeleton_tagged, payloadSkeleton, ← hskeleton, ← hskeletons, List.map_cons,
      List.map_singleton, Value.skeleton, Value.skeletons_eq_map]
  | constructor owner => exact (Name.encode_spells h).wrap .constructor
  | eliminator => exact (type.encode_spells htype).wrap .eliminator
  | foreign f => exact h.elim

/-- Declarations of the model are encoded together as they are spelled. -/
theorem exists_encodeAll (ds : List Declaration) (h : AllInModel ds) :
    ∃ vs, encodeAll ds = .ok vs ∧ vs.map Value.skeleton = skeletons ds := by
  cases ds with
  | nil => exact ⟨[], rfl, rfl⟩
  | cons d rest =>
    obtain ⟨v, hv, hskeleton⟩ := encode_spells d h.1
    obtain ⟨vs, hvs, hskeletons⟩ := exists_encodeAll rest h.2
    refine ⟨v :: vs, by rw [encodeAll, hv, hvs]; rfl, ?_⟩
    rw [List.map_cons, hskeleton, hskeletons, skeletons]

end

mutual

/-- Every declaration is spelled readably. -/
theorem readable_skeleton (d : Declaration) : d.skeleton.Readable := by
  cases d with
  | mk name type payload =>
    have hpayload := readable_payloadSkeleton type payload
    simp [skeleton, name.readable_form, type.readable_form, hpayload]

/-- The skeleton of a payload can be read back from its text. -/
theorem readable_payloadSkeleton (type : Term) (payload : Payload) :
    (payloadSkeleton type payload).Readable := by
  cases payload with
  | quotient kind typeName =>
    rw [payloadSkeleton, Skeleton.readable_headed, List.forall_mem_cons, List.forall_mem_singleton]
    exact ⟨kind.word_valid, typeName.readable_form⟩
  | family constructors =>
    rw [payloadSkeleton, Skeleton.readable_headed, List.forall_mem_cons, List.forall_mem_singleton]
    exact ⟨type.readable_form, allReadable_skeletons constructors⟩
  | foreign f => exact trivial
  | _ => simp [payloadSkeleton, Term.readable_form, Name.readable_form]

/-- The skeletons of several declarations can be read back from their texts. -/
theorem allReadable_skeletons (ds : List Declaration) : Skeleton.AllReadable (skeletons ds) := by
  cases ds with
  | nil => exact trivial
  | cons d rest => exact ⟨readable_skeleton d, allReadable_skeletons rest⟩

end

mutual

/-- Declarations of the model are spelled alike exactly if they agree. -/
theorem skeleton_eq_iff_agree (d d' : Declaration) (h : d.InModel) (h' : d'.InModel) :
    d.skeleton = d'.skeleton ↔ Agree d d' := by
  cases d with
  | mk name type payload =>
    cases d' with
    | mk name' type' payload' =>
      obtain ⟨hname, htype, hpayload⟩ := h
      obtain ⟨hname', htype', hpayload'⟩ := h'
      rw [Agree, Name.alike_iff hname hname', Term.alike_iff htype htype']
      simp only [skeleton, Skeleton.headed_inj, List.cons.injEq, true_and, and_true]
      refine and_congr_right fun _ => and_congr_right fun htypes => ?_
      exact payloadSkeleton_eq_iff_agree htypes payload payload' hpayload hpayload'

/-- Payloads of the model, of declarations whose types are spelled alike, are spelled alike exactly if
they agree. -/
theorem payloadSkeleton_eq_iff_agree {type type' : Term}
    (htypes : type.form.skeleton = type'.form.skeleton) (payload payload' : Payload)
    (h : PayloadInModel payload) (h' : PayloadInModel payload') :
    payloadSkeleton type payload = payloadSkeleton type' payload' ↔
      PayloadsAgree payload payload' := by
  -- Payloads of two kinds have different keywords, but for definitions and proofs.
  cases payload with
  | assumption => cases payload' <;> simp [payloadSkeleton, PayloadsAgree]
  | definition v | proof v =>
    cases payload' with
    | definition w | proof w => simp [payloadSkeleton, PayloadsAgree, Term.alike_iff h h']
    | _ => simp [payloadSkeleton, PayloadsAgree]
  | sealed v =>
    cases payload' with
    | sealed w => simp [payloadSkeleton, PayloadsAgree, Term.alike_iff h h']
    | _ => simp [payloadSkeleton, PayloadsAgree]
  | quotient kind typeName =>
    cases payload' with
    | quotient kind' typeName' =>
      have hkinds : kind.word = kind'.word ↔ kind = kind' :=
        ⟨QuotientKind.word_injective, fun hsame => by rw [hsame]⟩
      simp [payloadSkeleton, PayloadsAgree, Name.alike_iff h h', hkinds]
    | _ => simp [payloadSkeleton, PayloadsAgree]
  | family constructors =>
    cases payload' with
    | family constructors' =>
      have hconstructors := skeletons_eq_iff_allAgree constructors constructors' h h'
      simp [payloadSkeleton, PayloadsAgree, htypes, hconstructors]
    | _ => simp [payloadSkeleton, PayloadsAgree]
  | constructor owner =>
    cases payload' with
    | constructor owner' => simp [payloadSkeleton, PayloadsAgree, Name.alike_iff h h']
    | _ => simp [payloadSkeleton, PayloadsAgree]
  | eliminator => cases payload' <;> simp [payloadSkeleton, PayloadsAgree, htypes]
  | foreign f => exact h.elim

/-- Lists of declarations of the model have the same skeletons exactly if they agree one by one. -/
theorem skeletons_eq_iff_allAgree (ds ds' : List Declaration) (h : AllInModel ds)
    (h' : AllInModel ds') : skeletons ds = skeletons ds' ↔ AllAgree ds ds' := by
  cases ds with
  | nil => cases ds' <;> simp [skeletons, AllAgree]
  | cons d rest =>
    cases ds' with
    | nil => simp [skeletons, AllAgree]
    | cons d' rest' =>
      have hfirst := skeleton_eq_iff_agree d d' h.1 h'.1
      have hrest := skeletons_eq_iff_allAgree rest rest' h.2 h'.2
      rw [skeletons, skeletons, List.cons.injEq, hfirst, hrest, AllAgree]

end

end Declaration

namespace Module

/-- The declarations of a module that are shown, in their order. -/
def visible (internal : Name → Bool) (m : Module) : List Declaration :=
  m.declarations.filter fun d => d.name.isVisible internal

/-- A module whose name and whose visible declarations are of the model. -/
def InModel (internal : Name → Bool) (m : Module) : Prop :=
  m.name.Numbered ∧ ∀ d ∈ m.visible internal, d.InModel

/-- A module as it is spelled. -/
def skeleton (internal : Name → Bool) (m : Module) : Skeleton :=
  .headed .module
    (.headed .moduleName [m.name.form.skeleton] :: Declaration.skeletons (m.visible internal))

/-- A module of the model is encoded as it is spelled. -/
theorem encode_spells {internal : Name → Bool} {m : Module} (h : m.InModel internal) :
    Encoding.Spells (m.encode internal) (m.skeleton internal) := by
  obtain ⟨n, hn, hskeleton⟩ := Name.encode_spells h.1
  obtain ⟨vs, hvs, hskeletons⟩ :=
    Declaration.exists_encodeAll (m.visible internal) (Declaration.allInModel_iff.mpr h.2)
  refine ⟨.tagged .module (.tagged .moduleName [n] :: vs), ?_, ?_⟩
  · change encodeWith m.name (Declaration.encodeAll (m.visible internal)) = _
    rw [encodeWith, hn, hvs]
    rfl
  · rw [Value.skeleton_tagged, List.map_cons, Value.skeleton_tagged, List.map_singleton, hskeleton,
      hskeletons, skeleton]

/-- The skeleton of a module can be read back from its text. -/
theorem readable_skeleton (internal : Name → Bool) (m : Module) :
    (m.skeleton internal).Readable := by
  rw [skeleton, Skeleton.readable_headed, List.forall_mem_cons, Skeleton.readable_headed,
    List.forall_mem_singleton]
  exact ⟨m.name.readable_form,
    Skeleton.allReadable_iff.mp (Declaration.allReadable_skeletons (m.visible internal))⟩

/-- Two modules of the model, each seen through its own choice of internal names, have encodings, and
these are rendered alike exactly if the names of the modules are and the visible declarations agree
one by one. -/
theorem render_eq_iff_visible_agree (m₁ m₂ : Module) (internal₁ internal₂ : Name → Bool)
    (h₁ : m₁.InModel internal₁) (h₂ : m₂.InModel internal₂) :
    ∃ v₁ v₂, m₁.encode internal₁ = .ok v₁ ∧ m₂.encode internal₂ = .ok v₂ ∧
      (v₁.render = v₂.render ↔ Encoding.Alike m₁.name.encode m₂.name.encode ∧
        Declaration.AllAgree (m₁.visible internal₁) (m₂.visible internal₂)) := by
  obtain ⟨v₁, hv₁, hs₁⟩ := encode_spells h₁
  obtain ⟨v₂, hv₂, hs₂⟩ := encode_spells h₂
  refine ⟨v₁, v₂, hv₁, hv₂, ?_⟩
  have hvisible := Declaration.skeletons_eq_iff_allAgree (m₁.visible internal₁)
    (m₂.visible internal₂) (Declaration.allInModel_iff.mpr h₁.2)
    (Declaration.allInModel_iff.mpr h₂.2)
  rw [Value.render_eq_iff (hs₁ ▸ m₁.readable_skeleton internal₁)
    (hs₂ ▸ m₂.readable_skeleton internal₂), hs₁, hs₂, Name.alike_iff h₁.1 h₂.1, ← hvisible]
  simp [skeleton]

/-- A definition reads as a proof of the same value, whatever is hidden beside it, but a sealed value
does not. -/
theorem render_hides_internal_not_sealing :
    let n : Name := .extend .anonymous (.text "a") (.int 7)
    let hidden : Name := .extend .anonymous (.text "_b") (.int 8)
    let definition : Module :=
      ⟨n, [.mk n (.boundVar 0 0) (.definition (.boundVar 1 1)), .mk hidden (.boundVar 2 2) .eliminator]⟩
    let proof : Module := ⟨n, [.mk n (.boundVar 3 0) (.proof (.boundVar 4 1))]⟩
    let sealing : Module := ⟨n, [.mk n (.boundVar 5 0) (.sealed (.boundVar 6 1))]⟩
    (∃ v w, definition.encode Name.isInternal = .ok v ∧ proof.encode (fun _ => false) = .ok w ∧
      v.render = w.render) ∧
    ∃ v w, definition.encode Name.isInternal = .ok v ∧ sealing.encode Name.isInternal = .ok w ∧
      v.render ≠ w.render := by
  intro n hidden definition proof sealing
  have hn : n.Numbered := ⟨⟨1723, rfl⟩, 7, rfl⟩
  have hname : Encoding.Alike n.encode n.encode := (Name.alike_iff hn hn).mpr rfl
  have hvar (id index : Nat) : (Term.boundVar id index).InModel := trivial
  have hterm (id id' index : Nat) :
      Encoding.Alike (Term.boundVar id index).encode (Term.boundVar id' index).encode :=
    (Term.alike_iff (hvar id index) (hvar id' index)).mpr rfl
  have hdefinition : definition.InModel Name.isInternal :=
    ⟨hn, List.forall_mem_singleton.mpr ⟨hn, trivial, trivial⟩⟩
  constructor
  · obtain ⟨v, w, hv, hw, hsame⟩ := render_eq_iff_visible_agree definition proof Name.isInternal
      (fun _ => false) hdefinition ⟨hn, List.forall_mem_singleton.mpr ⟨hn, trivial, trivial⟩⟩
    exact ⟨v, w, hv, hw, hsame.mpr ⟨hname, ⟨hname, hterm _ _ _, hterm _ _ _⟩, trivial⟩⟩
  · obtain ⟨v, w, hv, hw, hsame⟩ := render_eq_iff_visible_agree definition sealing Name.isInternal
      Name.isInternal hdefinition ⟨hn, List.forall_mem_singleton.mpr ⟨hn, trivial, trivial⟩⟩
    exact ⟨v, w, hv, hw, fun h => (hsame.mp h).2.1.2.2⟩

end Module

end TermText
