import TermText.Proofs.Declaration.Agreement

/-!
# What can be written in full

A thing is writable if every number in it gives an integer, and every hash that is written. Foreign
objects may still stand anywhere in it, so it need not have an encoding; but if it has none, then a
foreign object is to blame and not a number. Then two parts fail together as they fail one after the
other: the first failure is the one reported.
-/

namespace TermText

namespace Encoding

/-- An encoding that no number stops. -/
def Writable {α : Type} (encoding : Except EncodeError α) : Prop :=
  ∀ e, encoding = .error e → e.isAtNumber = false

/-- What is encoded is not stopped by a number. -/
theorem writable_ok {α : Type} (x : α) : Writable (.ok x) := by
  intro e h
  cases h

/-- What is made of an encoding is stopped by no number if neither step is. -/
theorem Writable.bind {α β : Type} {a : Except EncodeError α} {f : α → Except EncodeError β}
    (ha : Writable a) (hf : ∀ x, Writable (f x)) : Writable (a >>= f) := by
  intro e h
  cases a with
  | error first =>
    have hfirst : first = e := Except.error.inj h
    exact hfirst ▸ ha first rfl
  | ok x => exact hf x e h

/-- If no number stops the first of two parts, they are encoded one after the other. -/
theorem Writable.pair_eq {α β : Type} {a : Except EncodeError α} (ha : Writable a)
    (b : Except EncodeError β) :
    pair a b = (do
      let x ← a
      let y ← b
      .ok (x, y)) := by
  cases a with
  | ok x => cases b <;> rfl
  | error first =>
    cases b with
    | ok y => rfl
    | error later =>
      have hfirst := ha first rfl
      simp only [pair, EncodeError.reported, hfirst, Bool.false_and]
      rfl

/-- Two parts that no number stops are stopped by none together. -/
theorem Writable.pair {α β : Type} {a : Except EncodeError α} {b : Except EncodeError β}
    (ha : Writable a) (hb : Writable b) : Writable (pair a b) := by
  rw [ha.pair_eq]
  exact ha.bind fun _ => hb.bind fun _ => writable_ok _

/-- Parts that no number stops are stopped by none together. -/
theorem writable_all {α β : Type} {encode : α → Except EncodeError β} {parts : List α}
    (h : ∀ x ∈ parts, Writable (encode x)) : Writable (all (parts.map encode)) := by
  induction parts with
  | nil => exact writable_ok []
  | cons x rest ih =>
    have hboth := (h x List.mem_cons_self).pair (ih fun y hy => h y (List.mem_cons_of_mem _ hy))
    intro e he
    rw [List.map_cons, all] at he
    split at he
    · cases he
    · next error hfailed => exact Except.error.inj he ▸ hboth error hfailed

end Encoding

namespace Name

/-- A name whose own hash and whose parent's hash give integers. -/
def Writable (n : Name) : Prop :=
  (∃ above : Int, n.parent.hash.integer = .ok above) ∧ ∃ own : Int, n.hash.integer = .ok own

/-- A writable name has an encoding. -/
theorem Writable.exists_encode {n : Name} (h : n.Writable) : ∃ v, n.encode = .ok v := by
  cases n with
  | anonymous => exact ⟨_, rfl⟩
  | extend parent segment hash =>
    obtain ⟨⟨above, (habove : parent.hash.integer = .ok above)⟩, own,
      (hown : hash.integer = .ok own)⟩ := h
    exact ⟨_, by rw [Name.encode, habove, hown]; rfl⟩

/-- The encoding of a writable name is not stopped by a number. -/
theorem Writable.encode {n : Name} (h : n.Writable) : Encoding.Writable n.encode := by
  obtain ⟨v, hv⟩ := h.exists_encode
  exact hv ▸ Encoding.writable_ok v

/-- Only a number stops the encoding of a name. -/
theorem isAtNumber_of_encode {n : Name} {e : EncodeError} (h : n.encode = .error e) :
    e.isAtNumber = true := by
  cases n with
  | anonymous => cases h
  | extend parent segment hash =>
    rw [Name.encode] at h
    cases habove : parent.hash.integer with
    | error error => rw [habove] at h; cases h; rfl
    | ok above =>
      cases hown : hash.integer with
      | error error => rw [habove, hown] at h; cases h; rfl
      | ok own => rw [habove, hown] at h; cases h

/-- A name whose hashes are integers is writable. -/
theorem Numbered.writable {n : Name} (h : n.Numbered) : n.Writable := by
  obtain ⟨⟨above, habove⟩, own, hown⟩ := h
  exact ⟨⟨above, by rw [habove]; rfl⟩, own, by rw [hown]; rfl⟩

end Name

namespace Level

/-- A level all of whose names are written in full. -/
def Writable : Level → Prop
  | .zero | .foreign _ => True
  | .succ l => l.Writable
  | .max a b | .imax a b => a.Writable ∧ b.Writable
  | .param name | .metaVar name => name.Writable

/-- The encoding of a writable level within another one is not stopped by a number. -/
theorem Writable.encodeBody {l : Level} (h : l.Writable) : Encoding.Writable l.encodeBody := by
  induction l with
  | zero => exact Encoding.writable_ok _
  | succ l ih => exact (ih h).bind fun _ => Encoding.writable_ok _
  | max a b iha ihb => exact ((iha h.1).pair (ihb h.2)).bind fun _ => Encoding.writable_ok _
  | imax a b iha ihb => exact ((iha h.1).pair (ihb h.2)).bind fun _ => Encoding.writable_ok _
  | param name => exact Name.Writable.encode h
  | metaVar name => exact Name.Writable.encode h
  | foreign f =>
    intro e he
    cases he
    rfl

/-- Neither is its encoding by itself. -/
theorem Writable.encode {l : Level} (h : l.Writable) : Encoding.Writable l.encode :=
  h.encodeBody.bind fun _ => Encoding.writable_ok _

/-- A level of the model is writable. -/
theorem InModel.writable {l : Level} (h : l.InModel) : l.Writable := by
  induction l with
  | zero => trivial
  | succ l ih => exact ih h
  | max a b iha ihb => exact ⟨iha h.1, ihb h.2⟩
  | imax a b iha ihb => exact ⟨iha h.1, ihb h.2⟩
  | param name => exact Name.Numbered.writable h
  | metaVar name => exact Name.Numbered.writable h
  | foreign f => trivial

end Level

namespace Term

/-- A term all of whose names and numbers are written in full. -/
def Writable : Term → Prop
  | .boundVar .. | .natural .. | .text .. | .document .. | .foreign .. => True
  | .freeVar _ name | .metaVar _ name => name.Writable
  | .sort _ level => level.Writable
  | .const _ name levels => name.Writable ∧ ∀ l ∈ levels, l.Writable
  | .app _ fn arg => fn.Writable ∧ arg.Writable
  | .lambda _ type body _ | .pi _ type body _ => type.Writable ∧ body.Writable
  | .letIn _ type value body _ => type.Writable ∧ value.Writable ∧ body.Writable
  | .annotated _ inner _ => inner.Writable
  | .proj _ typeName _ struct => typeName.Writable ∧ struct.Writable
  | .unwritable .. | .unwritableProj .. => False

/-- The head and the arguments of a writable term are writable. -/
theorem writable_bareSpineOnto (t : Term) (args : List Term) (h : t.Writable)
    (hargs : ∀ x ∈ args, x.Writable) :
    (t.bareSpineOnto args).1.Writable ∧ ∀ x ∈ (t.bareSpineOnto args).2, x.Writable := by
  fun_induction bareSpineOnto t args with
  | case1 id fn arg args ih => exact ih h.1 (List.forall_mem_cons.mpr ⟨h.2, hargs⟩)
  | case2 id inner data args ih => exact ih h hargs
  | case3 t args => exact ⟨h, hargs⟩

/-- No number stops the encoding of a writable term. -/
theorem Writable.encode {t : Term} (h : t.Writable) : Encoding.Writable t.encode := by
  induction t using encode.induct with
  | case1 id index => rw [Term.encode]; exact Encoding.writable_ok _
  | case2 id name => rw [Term.encode]; exact Name.Writable.encode h
  | case3 id name =>
    rw [Term.encode]
    exact (Name.Writable.encode h).bind fun _ => Encoding.writable_ok _
  | case4 id level =>
    rw [Term.encode]
    exact (Level.Writable.encode h).bind fun _ => Encoding.writable_ok _
  | case5 id name levels =>
    rw [Term.encode]
    have hlevels := Encoding.writable_all fun l hl => (h.2 l hl).encode
    exact (h.1.encode.pair hlevels).bind fun _ => Encoding.writable_ok _
  | case6 id fn arg parts ihhead ihargs =>
    rw [encode_app]
    obtain ⟨hhead, hargs⟩ := writable_bareSpineOnto fn [arg] h.1 (List.forall_mem_singleton.mpr h.2)
    have hall := Encoding.writable_all fun x hx => ihargs x hx (hargs x hx)
    exact ((ihhead hhead).pair hall).bind fun _ => Encoding.writable_ok _
  | case7 id type body binder ihtype ihbody =>
    rw [Term.encode]
    exact ((ihtype h.1).pair (ihbody h.2)).bind fun _ => Encoding.writable_ok _
  | case8 id type body binder ihtype ihbody =>
    rw [Term.encode]
    exact ((ihtype h.1).pair (ihbody h.2)).bind fun _ => Encoding.writable_ok _
  | case9 id type value body binder ihtype ihvalue ihbody =>
    rw [Term.encode]
    exact ((ihtype h.1).pair ((ihvalue h.2.1).pair (ihbody h.2.2))).bind fun _ =>
      Encoding.writable_ok _
  | case10 id value => rw [Term.encode]; exact Encoding.writable_ok _
  | case11 id value => rw [Term.encode]; exact Encoding.writable_ok _
  | case12 id inner data ih => rw [Term.encode]; exact ih h
  | case13 id typeName index struct ih =>
    rw [Term.encode]
    exact (h.1.encode.pair (ih h.2)).bind fun _ => Encoding.writable_ok _
  | case14 id value => rw [Term.encode]; exact Encoding.writable_ok _
  | case15 id error => exact h.elim
  | case16 id typeName error struct ih => exact h.elim
  | case17 id f =>
    rw [Term.encode]
    intro e he
    cases he
    rfl

/-- A term of the model is writable. -/
theorem InModel.writable {t : Term} (h : t.InModel) : t.Writable := by
  induction t with
  | boundVar | natural | text => trivial
  | freeVar id name => exact Name.Numbered.writable h
  | metaVar id name => exact Name.Numbered.writable h
  | sort id level => exact Level.InModel.writable h
  | const id name levels => exact ⟨h.1.writable, fun l hl => (h.2 l hl).writable⟩
  | app id fn arg ihfn iharg => exact ⟨ihfn h.1, iharg h.2⟩
  | lambda id type body binder ihtype ihbody => exact ⟨ihtype h.1, ihbody h.2⟩
  | pi id type body binder ihtype ihbody => exact ⟨ihtype h.1, ihbody h.2⟩
  | letIn id type value body binder ihtype ihvalue ihbody =>
    exact ⟨ihtype h.1, ihvalue h.2.1, ihbody h.2.2⟩
  | annotated id inner data ih => exact ih h
  | proj id typeName index struct ih => exact ⟨h.1.writable, ih h.2⟩
  | document | unwritable | unwritableProj | foreign => exact h.elim

end Term

namespace Declaration

mutual

/-- A declaration all of whose names and numbers are written in full. -/
def Writable : Declaration → Prop
  | .mk name type payload => name.Writable ∧ type.Writable ∧ PayloadWritable payload

/-- A payload all of whose names and numbers are written in full. -/
def PayloadWritable : Payload → Prop
  | .assumption | .eliminator | .foreign _ => True
  | .definition value | .proof value | .sealed value => value.Writable
  | .quotient _ name | .constructor name => name.Writable
  | .family constructors => AllWritable constructors

/-- Declarations all of whose names and numbers are written in full. -/
def AllWritable : List Declaration → Prop
  | [] => True
  | d :: rest => Writable d ∧ AllWritable rest

end

/-- Several declarations are writable exactly if each is. -/
theorem allWritable_iff {ds : List Declaration} : AllWritable ds ↔ ∀ d ∈ ds, d.Writable := by
  induction ds with
  | nil => simp [AllWritable]
  | cons d rest ih => simp [AllWritable, ih]

mutual

/-- No number stops the encoding of a writable declaration. -/
theorem writable_encode (d : Declaration) (h : d.Writable) : Encoding.Writable d.encode := by
  cases d with
  | mk name type payload =>
    obtain ⟨hname, htype, hpayload⟩ := h
    have hencoded := writable_encodePayload type htype payload hpayload
    rw [encode]
    exact (hname.encode.pair (htype.encode.pair hencoded)).bind fun _ => Encoding.writable_ok _

/-- The encoding of a writable payload is not stopped by a number. -/
theorem writable_encodePayload (type : Term) (htype : type.Writable) (payload : Payload)
    (h : PayloadWritable payload) : Encoding.Writable (encodePayload type payload) := by
  cases payload with
  | assumption => exact Encoding.writable_ok _
  | definition value => exact (Term.Writable.encode h).bind fun _ => Encoding.writable_ok _
  | proof value => exact (Term.Writable.encode h).bind fun _ => Encoding.writable_ok _
  | sealed value => exact (Term.Writable.encode h).bind fun _ => Encoding.writable_ok _
  | quotient kind typeName =>
    exact (Name.Writable.encode h).bind fun _ => Encoding.writable_ok _
  | family constructors =>
    exact (htype.encode.pair (writable_encodeAll constructors h)).bind fun _ =>
      Encoding.writable_ok _
  | constructor owner => exact (Name.Writable.encode h).bind fun _ => Encoding.writable_ok _
  | eliminator => exact htype.encode.bind fun _ => Encoding.writable_ok _
  | foreign f =>
    intro e he
    cases he
    rfl

/-- The encodings of several writable declarations are not stopped by a number. -/
theorem writable_encodeAll (ds : List Declaration) (h : AllWritable ds) :
    Encoding.Writable (encodeAll ds) := by
  cases ds with
  | nil => exact Encoding.writable_ok _
  | cons d rest =>
    exact ((writable_encode d h.1).pair (writable_encodeAll rest h.2)).bind fun _ =>
      Encoding.writable_ok _

end

mutual

/-- A declaration of the model is writable. -/
theorem writable_of_inModel (d : Declaration) (h : d.InModel) : d.Writable := by
  cases d with
  | mk name type payload =>
    exact ⟨h.1.writable, h.2.1.writable, payloadWritable_of_inModel payload h.2.2⟩

/-- A payload of the model is writable. -/
theorem payloadWritable_of_inModel (payload : Payload) (h : PayloadInModel payload) :
    PayloadWritable payload := by
  cases payload with
  | definition | proof | sealed => exact Term.InModel.writable h
  | family constructors => exact allWritable_of_inModel constructors h
  | foreign f => exact h.elim
  | quotient | constructor => exact Name.Numbered.writable h
  | assumption | eliminator => trivial

/-- Declarations of the model are writable. -/
theorem allWritable_of_inModel (ds : List Declaration) (h : AllInModel ds) : AllWritable ds := by
  cases ds with
  | nil => trivial
  | cons d rest => exact ⟨writable_of_inModel d h.1, allWritable_of_inModel rest h.2⟩

end

end Declaration

end TermText
