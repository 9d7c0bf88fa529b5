import TermText.Proofs.Term.Invariant

/-!
# Flattened applications

The encoding goes down an application to its head and collects the arguments on the way. It agrees with
plain recursion on the term, which encodes function and argument and adds the argument to the list of the
function if that is an application itself. So annotations leave no trace wherever they stand, and the head
of an encoded application is never an application.

This holds of all terms, foreign objects and numbers that cannot be written included: where there is no
encoding, both fail alike.
-/

namespace TermText

namespace EncodeError

/-- Of three failures in a row one is reported, whichever two are compared first. -/
theorem reported_assoc (a b c : EncodeError) :
    (a.reported b).reported c = a.reported (b.reported c) := by
  by_cases ha : a.isAtNumber = true <;> by_cases hb : b.isAtNumber = true <;>
    by_cases hc : c.isAtNumber = true <;> simp [reported, ha, hb, hc]

end EncodeError

namespace Encoding

section Algebra

variable {α β γ : Type} (a : Except EncodeError α) (b : Except EncodeError β)
  (c : Except EncodeError γ)

/-- What is made of a part may be made of it when it is together with another one. -/
theorem pair_map_left {δ : Type} (f : α → δ) :
    pair (a.map f) b = (pair a b).map fun (x, y) => (f x, y) := by
  cases a <;> cases b <;> rfl

/-- The second part may be changed before it is put to the first. -/
theorem pair_map_right {δ : Type} (f : β → δ) :
    pair a (b.map f) = (pair a b).map fun (x, y) => (x, f y) := by
  cases a <;> cases b <;> rfl

/-- Three parts are together however they are grouped. -/
theorem pair_assoc :
    pair a (pair b c) = (pair (pair a b) c).map fun ((x, y), z) => (x, (y, z)) := by
  cases a with
  | ok x => cases b <;> cases c <;> rfl
  | error first =>
    cases b with
    | ok y => cases c <;> rfl
    | error second =>
      cases c with
      | ok z => rfl
      | error third => exact congrArg Except.error (first.reported_assoc second third).symm

/-- A part behind others is encoded after them. -/
theorem all_concat (parts : List (Except EncodeError α)) :
    all (parts ++ [a]) = (pair (all parts) a).map fun (xs, x) => xs ++ [x] := by
  have hcons (first : Except EncodeError α) (rest : List (Except EncodeError α)) :
      all (first :: rest) = (pair first (all rest)).map fun (x, xs) => x :: xs := by
    rw [all]
    cases pair first (all rest) <;> rfl
  induction parts with
  | nil => cases a <;> rfl
  | cons first rest ih =>
    rw [List.cons_append, hcons, ih, pair_map_right, pair_assoc, hcons, pair_map_left]
    cases pair (pair first (all rest)) a <;> rfl

end Algebra

/-- Whatever an encoding gives has a property. -/
def Gives {α : Type} (encoding : Except EncodeError α) (P : α → Prop) : Prop :=
  ∀ x, encoding = .ok x → P x

section Gives

variable {α β : Type} {a : Except EncodeError α} {b : Except EncodeError β} {P : α → Prop}
  {Q : β → Prop}

/-- What is encoded is as the encoding is. -/
theorem Gives.ok {x : α} (h : P x) : Gives (.ok x) P := by
  intro y hy
  cases hy
  exact h

/-- What has no encoding gives anything. -/
theorem Gives.error (e : EncodeError) : Gives (.error e) P := by
  intro y hy
  cases hy

/-- An encoding is some value. -/
theorem Gives.any (a : Except EncodeError α) : Gives a fun _ => True := fun _ _ => trivial

/-- What is given of a kind is of any kind that includes it. -/
theorem Gives.mono {P' : α → Prop} (h : Gives a P) (hP : ∀ x, P x → P' x) : Gives a P' :=
  fun x hx => hP x (h x hx)

/-- What is given of two kinds is of the first. -/
theorem Gives.left {P' : α → Prop} (h : Gives a fun x => P x ∧ P' x) : Gives a P :=
  h.mono fun _ h => h.1

/-- What is made of what is given. -/
theorem Gives.bind {f : α → Except EncodeError β} (ha : Gives a P) (hf : ∀ x, P x → Gives (f x) Q) :
    Gives (a >>= f) Q := by
  cases a with
  | error e => exact .error e
  | ok x => exact hf x (ha x rfl)

/-- What two parts give together each gives alone. -/
theorem Gives.pair (ha : Gives a P) (hb : Gives b Q) :
    Gives (pair a b) fun p => P p.1 ∧ Q p.2 := by
  intro p hp
  obtain ⟨hx, hy⟩ := pair_eq_ok_iff.mp hp
  exact ⟨ha p.1 hx, hb p.2 hy⟩

/-- What parts give together each gives alone. -/
theorem gives_all {parts : List (Except EncodeError α)} (h : ∀ a ∈ parts, Gives a P) :
    Gives (all parts) fun xs => ∀ x ∈ xs, P x := by
  intro xs hxs x hx
  rw [all_eq_ok_iff] at hxs
  exact h (.ok x) (hxs ▸ List.mem_map_of_mem hx) x rfl

end Gives

end Encoding

namespace Value

/-- A list headed by the keyword of applications. -/
def isApplication : Value → Bool
  | .list (.atom a :: _) => a == Tag.apply.atom
  | _ => false

/-- A list with one more item. -/
def addItem : Value → Value → Value
  | .list items, item => .list (items ++ [item])
  | v, _ => v

mutual

/-- A value and all values within it. -/
def parts : Value → List Value
  | .list items => .list items :: partsOfAll items
  | v => [v]

/-- All values within the items of a list. -/
def partsOfAll : List Value → List Value
  | [] => []
  | item :: rest => parts item ++ partsOfAll rest

end

/-- An application that has arguments and whose head is no application. -/
def IsFlat (v : Value) : Prop :=
  ∃ head first rest, v = .tagged .apply (head :: first :: rest) ∧ head.isApplication = false

/-- A value in which every application is flat. -/
def Flattened (v : Value) : Prop :=
  ∀ part ∈ v.parts, part.isApplication = true → part.IsFlat

/-- What is no list holds no application. -/
theorem flattened_of_parts {v : Value} (hparts : v.parts = [v]) (hnone : v.isApplication = false) :
    v.Flattened := by
  intro part hpart happly
  rw [hparts, List.mem_singleton] at hpart
  rw [hpart, hnone] at happly
  cases happly

/-- A flattened value that is no application. -/
def Unapplied (v : Value) : Prop :=
  v.Flattened ∧ v.isApplication = false

/-- The parts of several values are those of each in order. -/
theorem partsOfAll_eq (items : List Value) : partsOfAll items = items.flatMap parts := by
  induction items with
  | nil => rfl
  | cons item rest ih => rw [partsOfAll, ih, List.flatMap_cons]

/-- A list is flattened if its items are, and if it is flat in case it is an application. -/
theorem flattened_list_iff {items : List Value} :
    (Value.list items).Flattened ↔
      ((Value.list items).isApplication = true → (Value.list items).IsFlat) ∧
        ∀ item ∈ items, item.Flattened := by
  simp only [Flattened, parts, partsOfAll_eq, List.forall_mem_cons, List.mem_flatMap,
    forall_exists_index, and_imp]
  exact and_congr_right fun _ =>
    ⟨fun h item hitem part hpart => h part item hitem hpart,
      fun h part item hitem hpart => h item hitem part hpart⟩

/-- Any other tagged list is no application. -/
theorem isApplication_tagged (tag : Tag) (fields : List Value) :
    (Value.tagged tag fields).isApplication = decide (tag = .apply) := by
  cases tag <;> rfl

/-- A list with another tag is no application, and it is flattened if its fields are. -/
theorem unapplied_tagged {tag : Tag} (htag : tag ≠ .apply) {fields : List Value}
    (h : ∀ field ∈ fields, field.Flattened) : (Value.tagged tag fields).Unapplied := by
  have hnone : (Value.tagged tag fields).isApplication = false := by
    rw [isApplication_tagged, decide_eq_false htag]
  refine ⟨flattened_list_iff.mpr ⟨fun happly => ?_, ?_⟩, hnone⟩
  · exact absurd happly (Bool.eq_false_iff.mp hnone)
  · exact List.forall_mem_cons.mpr ⟨flattened_of_parts rfl rfl, h⟩

/-- An application with one argument is flattened if head and argument are and the head is none. -/
theorem flattened_apply {head arg : Value} (hnone : head.isApplication = false) (hhead : head.Flattened)
    (harg : arg.Flattened) : (Value.tagged .apply [head, arg]).Flattened := by
  refine flattened_list_iff.mpr ⟨fun _ => ⟨head, arg, [], rfl, hnone⟩, ?_⟩
  exact List.forall_mem_cons.mpr ⟨flattened_of_parts rfl rfl,
    List.forall_mem_cons.mpr ⟨hhead, List.forall_mem_singleton.mpr harg⟩⟩

/-- A flattened application takes one more argument. -/
theorem Flattened.addItem {v arg : Value} (h : v.Flattened) (happly : v.isApplication = true)
    (harg : arg.Flattened) : (v.addItem arg).Flattened ∧ (v.addItem arg).isApplication = true := by
  cases v with
  | list items =>
    obtain ⟨hflat, hitems⟩ := flattened_list_iff.mp h
    obtain ⟨head, first, rest, heq, hnone⟩ := hflat happly
    obtain rfl := Value.list.inj heq
    refine ⟨flattened_list_iff.mpr ⟨fun _ => ?_, ?_⟩, rfl⟩
    · exact ⟨head, first, rest ++ [arg], rfl, hnone⟩
    · exact List.forall_mem_append.mpr ⟨hitems, List.forall_mem_singleton.mpr harg⟩
  | _ => cases happly

end Value

namespace Encoding

/-- Flattened fields of a list with another tag. -/
theorem Gives.tagged {tag : Tag} (htag : tag ≠ .apply) {fields : List Value}
    (h : ∀ field ∈ fields, field.Flattened) : Gives (.ok (Value.tagged tag fields)) Value.Unapplied :=
  .ok (Value.unapplied_tagged htag h)

variable {a b : Except EncodeError Value} (ha : Gives a Value.Flattened)

include ha

/-- A part that becomes the only field of a list with another tag. -/
theorem Gives.wrap (tag : Tag) (htag : tag ≠ .apply) :
    Gives (do
      let v ← a
      .ok (.tagged tag [v])) Value.Unapplied :=
  ha.bind fun _ hv => .tagged htag (List.forall_mem_singleton.mpr hv)

/-- Two parts that become the fields of a list with another tag. -/
theorem Gives.both (hb : Gives b Value.Flattened) (tag : Tag) (htag : tag ≠ .apply) :
    Gives (do
      let (v, w) ← Encoding.pair a b
      .ok (.tagged tag [v, w])) Value.Unapplied :=
  (ha.pair hb).bind fun _ h => .tagged htag
    (List.forall_mem_cons.mpr ⟨h.1, List.forall_mem_singleton.mpr h.2⟩)

end Encoding

namespace Term

/-- Whether a term is an application once the annotations around it are removed. -/
def isApplication : Term → Bool
  | .app .. => true
  | .annotated _ inner _ => inner.isApplication
  | _ => false

/-- The encoding by plain recursion on the term: an argument is added to the function it is applied to
if this is an application itself. -/
def encodePlainly : Term → Except EncodeError Value
  | .app _ fn arg => do
    let (f, a) ← Encoding.pair fn.encodePlainly arg.encodePlainly
    .ok (if fn.isApplication then f.addItem a else .tagged .apply [f, a])
  | .annotated _ inner _ => inner.encodePlainly
  | .lambda _ type body _ => do
    let (t, b) ← Encoding.pair type.encodePlainly body.encodePlainly
    .ok (.tagged .lambda [t, b])
  | .pi _ type body _ => do
    let (t, b) ← Encoding.pair type.encodePlainly body.encodePlainly
    .ok (.tagged .pi [t, b])
  | .letIn _ type value body _ => do
    let (t, v, b) ← Encoding.pair type.encodePlainly
      (Encoding.pair value.encodePlainly body.encodePlainly)
    .ok (.tagged .letIn [t, v, b])
  | .proj _ typeName index struct => do
    let (n, s) ← Encoding.pair typeName.encode struct.encodePlainly
    .ok (.tagged .proj [n, .int index, s])
  | .unwritableProj _ typeName error struct => do
    let (n, index, s) ← Encoding.pair typeName.encode
      (Encoding.pair (.error (.number error)) struct.encodePlainly)
    .ok (.tagged .proj [n, index, s])
  | .boundVar _ index => .ok (.tagged .boundVar [.int index])
  | .freeVar _ name => name.encode
  | .metaVar _ name => do
    let n ← name.encode
    .ok (.tagged .metaVar [n])
  | .sort _ level => do
    let l ← level.encode
    .ok (.tagged .sort [l])
  | .const _ name levels => do
    let (n, ls) ← Encoding.pair name.encode (Encoding.all (levels.map Level.encode))
    .ok (.tagged .const [n, .list ls])
  | .natural _ value => .ok (.tagged .literal [.int value])
  | .text _ value => .ok (.tagged .literal [.text value])
  | .document _ value => .ok (.tagged .literal [.document value])
  | .unwritable _ error => .error (.number error)
  | .foreign _ f => .error (.term f)

/-- The term without its annotations, whose nodes all carry the identity zero. -/
def bare : Term → Term
  | .app _ fn arg => .app 0 fn.bare arg.bare
  | .annotated _ inner _ => inner.bare
  | .lambda _ type body binder => .lambda 0 type.bare body.bare binder
  | .pi _ type body binder => .pi 0 type.bare body.bare binder
  | .letIn _ type value body binder => .letIn 0 type.bare value.bare body.bare binder
  | .proj _ typeName index struct => .proj 0 typeName index struct.bare
  | .unwritableProj _ typeName error struct => .unwritableProj 0 typeName error struct.bare
  | .boundVar _ index => .boundVar 0 index
  | .freeVar _ name => .freeVar 0 name
  | .metaVar _ name => .metaVar 0 name
  | .sort _ level => .sort 0 level
  | .const _ name levels => .const 0 name levels
  | .natural _ value => .natural 0 value
  | .text _ value => .text 0 value
  | .document _ value => .document 0 value
  | .unwritable _ error => .unwritable 0 error
  | .foreign _ f => .foreign 0 f

section Spine

/-- Arguments behind others come last in a spine. -/
theorem bareSpineOnto_append (t : Term) (args more : List Term) :
    t.bareSpineOnto (args ++ more) = ((t.bareSpineOnto args).1, (t.bareSpineOnto args).2 ++ more) := by
  fun_induction bareSpineOnto t args with
  | case1 id fn arg args ih => exact ih
  | case2 id inner data args ih => exact ih
  | case3 t args happ hannotated =>
    cases t with
    | app id fn arg => exact absurd rfl (happ id fn arg)
    | annotated id inner data => exact absurd rfl (hannotated id inner data)
    | _ => rfl

/-- The encoding of the head and the arguments of a term together. -/
def encodeSpine (t : Term) : Except EncodeError (Value × List Value) :=
  Encoding.pair (t.bareSpineOnto []).1.encode (Encoding.all ((t.bareSpineOnto []).2.map encode))

/-- An argument more is encoded after the spine. -/
theorem encodeSpine_app (id : NodeId) (fn arg : Term) :
    (Term.app id fn arg).encodeSpine =
      (Encoding.pair fn.encodeSpine arg.encode).map fun ((head, args), a) => (head, args ++ [a]) := by
  have hspine : (Term.app id fn arg).bareSpineOnto [] =
      ((fn.bareSpineOnto []).1, (fn.bareSpineOnto []).2 ++ [arg]) :=
    fn.bareSpineOnto_append [] [arg]
  rw [encodeSpine, hspine, List.map_append, List.map_singleton, Encoding.all_concat,
    Encoding.pair_map_right, Encoding.pair_assoc, encodeSpine]
  cases Encoding.pair (Encoding.pair _ _) arg.encode <;> rfl

/-- An application is encoded by its spine. -/
theorem encode_of_isApplication {t : Term} (h : t.isApplication = true) :
    t.encode = t.encodeSpine.map fun (head, args) => .tagged .apply (head :: args) := by
  induction t with
  | app id fn arg =>
    have hspine : (Term.app id fn arg).encodeSpine =
        Encoding.pair (fn.bareSpineOnto [arg]).1.encode
          (Encoding.all ((fn.bareSpineOnto [arg]).2.map encode)) := rfl
    rw [encode_app, hspine]
    cases Encoding.pair (fn.bareSpineOnto [arg]).1.encode _ <;> rfl
  | annotated id inner data ih =>
    rw [encode, ih h]
    rfl
  | _ => cases h

/-- What is no application is a head without arguments. -/
theorem encodeSpine_of_not_isApplication {t : Term} (h : t.isApplication = false) :
    t.encodeSpine = t.encode.map fun head => (head, []) := by
  have hnil (a : Except EncodeError Value) :
      Encoding.pair a (Encoding.all []) = a.map fun head => (head, ([] : List Value)) := by
    cases a <;> rfl
  induction t with
  | app id fn arg => cases h
  | annotated id inner data ih =>
    rw [encode, ← ih h]
    rfl
  | _ => exact hnil _

/-- An application is encoded by its function and its argument. -/
theorem encode_app_eq (id : NodeId) (fn arg : Term) :
    (Term.app id fn arg).encode = (do
      let (f, a) ← Encoding.pair fn.encode arg.encode
      .ok (if fn.isApplication then f.addItem a else .tagged .apply [f, a])) := by
  rw [encode_of_isApplication rfl, encodeSpine_app]
  cases hfn : fn.isApplication with
  | true =>
    rw [encode_of_isApplication hfn, Encoding.pair_map_left]
    cases Encoding.pair fn.encodeSpine arg.encode <;> rfl
  | false =>
    rw [encodeSpine_of_not_isApplication hfn, Encoding.pair_map_left]
    cases Encoding.pair fn.encode arg.encode <;> rfl

end Spine

/-- A term is encoded as by plain recursion. -/
theorem encode_eq_encodePlainly (t : Term) : t.encode = t.encodePlainly := by
  induction t with
  | app id fn arg ihfn iharg => rw [encode_app_eq, encodePlainly, ihfn, iharg]
  | annotated id inner data ih => rw [encode, encodePlainly, ih]
  | lambda id type body binder ihtype ihbody => rw [encode, encodePlainly, ihtype, ihbody]
  | pi id type body binder ihtype ihbody => rw [encode, encodePlainly, ihtype, ihbody]
  | letIn id type value body binder ihtype ihvalue ihbody =>
    rw [encode, encodePlainly, ihtype, ihvalue, ihbody]
  | proj id typeName index struct ih => rw [encode, encodePlainly, ih]
  | unwritableProj id typeName error struct ih => rw [encode, encodePlainly, ih]
  | _ => rw [encode, encodePlainly]

section Bare

/-- Annotations do not tell whether a term is an application. -/
theorem isApplication_bare (t : Term) : t.bare.isApplication = t.isApplication := by
  induction t with
  | annotated id inner data ih => exact ih
  | _ => rfl

/-- A term is encoded as without its annotations. -/
theorem encode_bare (t : Term) : t.bare.encode = t.encode := by
  rw [encode_eq_encodePlainly, encode_eq_encodePlainly]
  induction t with
  | app id fn arg ihfn iharg =>
    rw [bare, encodePlainly, encodePlainly, ihfn, iharg, isApplication_bare]
  | annotated id inner data ih => rw [bare, encodePlainly, ih]
  | lambda id type body binder ihtype ihbody =>
    rw [bare, encodePlainly, encodePlainly, ihtype, ihbody]
  | pi id type body binder ihtype ihbody => rw [bare, encodePlainly, encodePlainly, ihtype, ihbody]
  | letIn id type value body binder ihtype ihvalue ihbody =>
    rw [bare, encodePlainly, encodePlainly, ihtype, ihvalue, ihbody]
  | proj id typeName index struct ih => rw [bare, encodePlainly, encodePlainly, ih]
  | unwritableProj id typeName error struct ih => rw [bare, encodePlainly, encodePlainly, ih]
  | _ => rfl

end Bare

end Term

/-- Nothing is applied in the encoding of a name. -/
theorem Name.gives_encode (n : Name) : Encoding.Gives n.encode Value.Unapplied := by
  cases n with
  | anonymous => exact .tagged (by decide) (List.forall_mem_nil _)
  | extend parent segment hash =>
    have hsegment (s : Segment) : s.encode.Flattened := by
      cases s <;> exact Value.flattened_of_parts rfl rfl
    refine .bind (.any _) fun above _ => .bind (.any _) fun own _ => .tagged (by decide) ?_
    simp only [List.forall_mem_cons, List.forall_mem_map]
    exact ⟨Value.flattened_of_parts rfl rfl, Value.flattened_of_parts rfl rfl, fun s _ => hsegment s⟩

namespace Level

/-- Nothing is applied in the encoding of a level. -/
theorem gives_encodeBody (l : Level) : Encoding.Gives l.encodeBody Value.Unapplied := by
  induction l with
  | zero => exact .tagged (by decide) (List.forall_mem_nil _)
  | succ l ih => exact ih.left.wrap .succ (by decide)
  | max a b iha ihb => exact iha.left.both ihb.left .max (by decide)
  | imax a b iha ihb => exact iha.left.both ihb.left .imax (by decide)
  | param name => exact name.gives_encode
  | metaVar name => exact name.gives_encode
  | foreign f => exact .error _

/-- A level by itself is encoded below one keyword, as a flattened value. -/
theorem gives_encode (l : Level) :
    Encoding.Gives l.encode fun v => v.Flattened ∧ ∃ body, v = .tagged .level [body] :=
  l.gives_encodeBody.bind fun body hbody =>
    .ok ⟨(Value.unapplied_tagged (by decide) (List.forall_mem_singleton.mpr hbody.1)).1, body, rfl⟩

/-- A list of levels is no application. -/
theorem gives_encodeAll (levels : List Level) :
    Encoding.Gives (Encoding.all (levels.map encode)) fun vs => (Value.list vs).Flattened := by
  have hlevels : ∀ a ∈ levels.map encode,
      Encoding.Gives a fun v => v.Flattened ∧ ∃ body, v = .tagged .level [body] :=
    List.forall_mem_map.mpr fun l _ => l.gives_encode
  refine (Encoding.gives_all hlevels).mono fun vs hvs => ?_
  refine Value.flattened_list_iff.mpr ⟨fun happly => ?_, fun v hv => (hvs v hv).1⟩
  cases vs with
  | nil => cases happly
  | cons v rest =>
    obtain ⟨-, body, rfl⟩ := hvs v List.mem_cons_self
    cases happly

end Level

namespace Term

/-- In the encoding of a term all applications are flat, and it is one itself exactly if the term is one
behind its annotations. -/
theorem gives_encodePlainly (t : Term) :
    Encoding.Gives t.encodePlainly fun v => v.Flattened ∧ v.isApplication = t.isApplication := by
  induction t with
  | app id fn arg ihfn iharg =>
    refine (ihfn.pair iharg).bind fun (f, a) ⟨⟨hf, hkind⟩, ha, _⟩ => .ok ?_
    by_cases hfn : fn.isApplication = true
    · rw [if_pos hfn]
      exact hf.addItem (hkind.trans hfn) ha
    · rw [if_neg hfn]
      exact ⟨Value.flattened_apply (hkind.trans (Bool.eq_false_iff.mpr hfn)) hf ha, rfl⟩
  | annotated id inner data ih => exact ih
  | lambda id type body binder ihtype ihbody =>
    exact ihtype.left.both ihbody.left .lambda (by decide)
  | pi id type body binder ihtype ihbody => exact ihtype.left.both ihbody.left .pi (by decide)
  | letIn id type value body binder ihtype ihvalue ihbody =>
    refine (ihtype.left.pair (ihvalue.left.pair ihbody.left)).bind fun (t, v, b) ⟨ht, hv, hb⟩ =>
      .tagged (by decide) ?_
    simpa using ⟨ht, hv, hb⟩
  | proj id typeName index struct ih =>
    refine (typeName.gives_encode.left.pair ih.left).bind fun (n, s) ⟨hn, hs⟩ =>
      .tagged (by decide) ?_
    simpa using ⟨hn, Value.flattened_of_parts rfl rfl, hs⟩
  | unwritableProj id typeName error struct ih =>
    have hindex : Encoding.Gives (.error (.number error)) Value.Flattened := .error _
    refine (typeName.gives_encode.left.pair (hindex.pair ih.left)).bind
      fun (n, index, s) ⟨hn, hi, hs⟩ => .tagged (by decide) ?_
    simpa using ⟨hn, hi, hs⟩
  | const id name levels =>
    refine (name.gives_encode.left.pair (Level.gives_encodeAll levels)).bind fun (n, ls) ⟨hn, hls⟩ =>
      .tagged (by decide) ?_
    simpa using ⟨hn, hls⟩
  | sort id level => exact level.gives_encode.left.wrap .sort (by decide)
  | metaVar id name => exact name.gives_encode.left.wrap .metaVar (by decide)
  | freeVar id name => exact name.gives_encode
  | boundVar | natural | text | document =>
    exact .tagged (by decide) (List.forall_mem_singleton.mpr (Value.flattened_of_parts rfl rfl))
  | unwritable | foreign => exact .error _

/-- The encoding of a term is that by plain recursion, with the same failures. It does not depend on the
annotations, wherever they stand, nor on identities; and each application in it has arguments, and a head
that is no application. -/
theorem encode_agrees_with_recursion (t : Term) :
    t.encode = t.encodePlainly ∧ (∀ u : Term, u.bare = t.bare → u.encode = t.encode) ∧
      ∀ v, t.encode = .ok v → ∀ part ∈ v.parts, part.isApplication = true →
        ∃ head first rest, part = .tagged .apply (head :: first :: rest) ∧
          head.isApplication = false := by
  refine ⟨t.encode_eq_encodePlainly, fun u hu => ?_, fun v hv => ?_⟩
  · rw [← u.encode_bare, hu, t.encode_bare]
  · rw [encode_eq_encodePlainly] at hv
    exact (t.gives_encodePlainly v hv).1

/-- Annotations around the whole, around the partial application, twice, and around its head. -/
theorem encode_agrees_with_recursion_through_annotations :
    let t : Term := .app 0 (.app 1 (.boundVar 2 7) (.boundVar 3 0)) (.natural 4 5)
    let u : Term := .annotated 10 (.app 11 (.annotated 12 (.annotated 13
      (.app 14 (.annotated 15 (.boundVar 2 7) []) (.boundVar 3 0)) []) []) (.natural 4 5)) []
    let v : Value := .tagged .apply
      [.tagged .boundVar [.int 7], .tagged .boundVar [.int 0], .tagged .literal [.int 5]]
    u.bare = t.bare ∧ u.encode = t.encode ∧ t.encode = .ok v ∧ v ∈ v.parts ∧
      v.isApplication = true ∧ ∃ head first rest, v = .tagged .apply (head :: first :: rest) ∧
        head.isApplication = false := by
  intro t u v
  obtain ⟨hplain, hbare, hflat⟩ := t.encode_agrees_with_recursion
  have hencode : t.encode = .ok v := hplain.trans rfl
  have hmem : v ∈ v.parts := List.mem_cons_self
  exact ⟨rfl, hbare u rfl, hencode, hmem, rfl, hflat v hencode v hmem rfl⟩

end Term

end TermText
