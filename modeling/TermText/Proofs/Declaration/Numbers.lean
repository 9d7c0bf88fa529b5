import TermText.Proofs.Declaration.Writable
import TermText.Proofs.Term.Tree

/-!
# The numbers of what is encoded

All numbers that an encoding writes have a property: hashes, number segments, indices and literals.
What they stand in is of the model then. Numbers are looked for in trees, as identities are never
written; binder names and annotations are not written either.
-/

namespace TermText

section

variable (P : Int → Prop)

/-- A segment whose number has a property. -/
def Segment.NumbersIn : Segment → Prop
  | .text _ => True
  | .number n => P n

/-- A name all of whose hashes and number segments have a property, the hashes being integers. -/
def Name.NumbersIn : Name → Prop
  | .anonymous => P anonymousHash
  | .extend parent segment hash =>
    parent.NumbersIn ∧ segment.NumbersIn P ∧ ∃ i : Int, hash = .int i ∧ P i

/-- A level of the model all of whose numbers have a property. -/
def Level.NumbersIn : Level → Prop
  | .zero => True
  | .succ l => l.NumbersIn
  | .max a b | .imax a b => a.NumbersIn ∧ b.NumbersIn
  | .param name | .metaVar name => name.NumbersIn P
  | .foreign _ => False

/-- A term of the model all of whose numbers have a property. -/
def Term.NumbersIn : Term → Prop
  | .boundVar _ n | .natural _ n => P n
  | .text .. => True
  | .freeVar _ name | .metaVar _ name => name.NumbersIn P
  | .sort _ level => level.NumbersIn P
  | .const _ name levels => name.NumbersIn P ∧ ∀ l ∈ levels, l.NumbersIn P
  | .app _ fn arg => fn.NumbersIn ∧ arg.NumbersIn
  | .lambda _ type body _ | .pi _ type body _ => type.NumbersIn ∧ body.NumbersIn
  | .letIn _ type value body _ => type.NumbersIn ∧ value.NumbersIn ∧ body.NumbersIn
  | .annotated _ inner _ => inner.NumbersIn
  | .proj _ typeName index struct => typeName.NumbersIn P ∧ P index ∧ struct.NumbersIn
  | .document .. | .unwritable .. | .unwritableProj .. | .foreign .. => False

namespace Declaration

mutual

/-- A declaration of the model all of whose numbers have a property. -/
def NumbersIn : Declaration → Prop
  | .mk name type payload => name.NumbersIn P ∧ type.NumbersIn P ∧ PayloadNumbersIn payload

/-- A payload of the model all of whose numbers have a property. -/
def PayloadNumbersIn : Payload → Prop
  | .assumption | .eliminator => True
  | .definition value | .proof value | .sealed value => value.NumbersIn P
  | .quotient _ name | .constructor name => name.NumbersIn P
  | .family constructors => AllNumbersIn constructors
  | .foreign _ => False

/-- Declarations of the model all of whose numbers have a property. -/
def AllNumbersIn : List Declaration → Prop
  | [] => True
  | d :: rest => NumbersIn d ∧ AllNumbersIn rest

end

end Declaration

/-- A module of declarations of the model all of whose numbers have a property. -/
def Module.NumbersIn (m : Module) : Prop :=
  m.name.NumbersIn P ∧ ∀ d ∈ m.declarations, d.NumbersIn P

end

variable {P : Int → Prop}

/-- The hash of a name whose numbers have a property is one of them. -/
theorem Name.NumbersIn.exists_hash {n : Name} (h : n.NumbersIn P) : ∃ i : Int, n.hash = .int i ∧ P i := by
  cases n with
  | anonymous => exact ⟨anonymousHash, rfl, h⟩
  | extend parent segment hash => exact h.2.2

/-- What holds of the numbers of a name holds of those of its parent. -/
theorem Name.NumbersIn.parent {n : Name} (h : n.NumbersIn P) : n.parent.NumbersIn P := by
  cases n with
  | anonymous => exact h
  | extend parent segment hash => exact h.1

/-- A name whose numbers are of a kind has integers for numbers. -/
theorem Name.NumbersIn.numbered {n : Name} (h : n.NumbersIn P) : n.Numbered := by
  obtain ⟨above, habove, -⟩ := h.parent.exists_hash
  obtain ⟨own, hown, -⟩ := h.exists_hash
  exact ⟨⟨above, habove⟩, own, hown⟩

/-- A level whose numbers are of a kind is of the model. -/
theorem Level.NumbersIn.inModel {l : Level} (h : l.NumbersIn P) : l.InModel := by
  induction l with
  | zero => trivial
  | succ l ih => exact ih h
  | max a b iha ihb => exact ⟨iha h.1, ihb h.2⟩
  | imax a b iha ihb => exact ⟨iha h.1, ihb h.2⟩
  | param name => exact Name.NumbersIn.numbered h
  | metaVar name => exact Name.NumbersIn.numbered h
  | foreign f => exact h.elim

/-- A term whose numbers are of a kind is of the model. -/
theorem Term.NumbersIn.inModel {t : Term} (h : t.NumbersIn P) : t.InModel := by
  induction t with
  | boundVar | natural | text => trivial
  | freeVar id name => exact Name.NumbersIn.numbered h
  | metaVar id name => exact Name.NumbersIn.numbered h
  | sort id level => exact Level.NumbersIn.inModel h
  | const id name levels => exact ⟨h.1.numbered, fun l hl => (h.2 l hl).inModel⟩
  | app id fn arg ihfn iharg => exact ⟨ihfn h.1, iharg h.2⟩
  | lambda id type body binder ihtype ihbody => exact ⟨ihtype h.1, ihbody h.2⟩
  | pi id type body binder ihtype ihbody => exact ⟨ihtype h.1, ihbody h.2⟩
  | letIn id type value body binder ihtype ihvalue ihbody =>
    exact ⟨ihtype h.1, ihvalue h.2.1, ihbody h.2.2⟩
  | annotated id inner data ih => exact ih h
  | proj id typeName index struct ih => exact ⟨h.1.numbered, ih h.2.2⟩
  | document | unwritable | unwritableProj | foreign => exact h.elim

/-- A term has the numbers of its tree. -/
@[simp] theorem Term.numbersIn_tree (t : Term) : t.tree.NumbersIn P ↔ t.NumbersIn P := by
  induction t <;> simp_all [tree, NumbersIn]

namespace Declaration

/-- The numbers of several declarations are of a kind exactly if those of each are. -/
theorem allNumbersIn_iff {ds : List Declaration} : AllNumbersIn P ds ↔ ∀ d ∈ ds, d.NumbersIn P := by
  induction ds with
  | nil => simp [AllNumbersIn]
  | cons d rest ih => simp [AllNumbersIn, ih]

mutual

/-- A declaration whose numbers are of a kind is of the model. -/
theorem inModel_of_numbersIn (d : Declaration) (h : d.NumbersIn P) : d.InModel := by
  cases d with
  | mk name type payload =>
    exact ⟨h.1.numbered, h.2.1.inModel, payloadInModel_of_numbersIn payload h.2.2⟩

/-- A payload whose numbers are of a kind is of the model. -/
theorem payloadInModel_of_numbersIn (payload : Payload) (h : PayloadNumbersIn P payload) :
    PayloadInModel payload := by
  cases payload with
  | assumption | eliminator => trivial
  | definition | proof | sealed => exact Term.NumbersIn.inModel h
  | quotient | constructor => exact Name.NumbersIn.numbered h
  | family constructors => exact allInModel_of_numbersIn constructors h
  | foreign f => exact h.elim

/-- Declarations whose numbers are of a kind are of the model. -/
theorem allInModel_of_numbersIn (ds : List Declaration) (h : AllNumbersIn P ds) : AllInModel ds := by
  cases ds with
  | nil => trivial
  | cons d rest => exact ⟨inModel_of_numbersIn d h.1, allInModel_of_numbersIn rest h.2⟩

end

mutual

/-- A declaration has the numbers of its trees. -/
theorem numbersIn_tree (d : Declaration) : d.tree.NumbersIn P ↔ d.NumbersIn P := by
  cases d with
  | mk name type payload =>
    rw [tree, NumbersIn, NumbersIn, Term.numbersIn_tree, payloadNumbersIn_tree payload]

/-- Without its identities a payload has the same numbers. -/
theorem payloadNumbersIn_tree (payload : Payload) :
    PayloadNumbersIn P (payloadTree payload) ↔ PayloadNumbersIn P payload := by
  cases payload with
  | family constructors => exact allNumbersIn_treeAll constructors
  | _ => simp [payloadTree, PayloadNumbersIn]

/-- Without their identities several declarations have the same numbers. -/
theorem allNumbersIn_treeAll (ds : List Declaration) :
    AllNumbersIn P (treeAll ds) ↔ AllNumbersIn P ds := by
  cases ds with
  | nil => rfl
  | cons d rest => rw [treeAll, AllNumbersIn, AllNumbersIn, numbersIn_tree d, allNumbersIn_treeAll rest]

end

end Declaration

/-- A module whose numbers have a property is of the model, whatever names are internal. -/
theorem Module.NumbersIn.inModel {m : Module} (h : m.NumbersIn P) (internal : Name → Bool) :
    m.InModel internal :=
  ⟨h.1.numbered, fun d hd => d.inModel_of_numbersIn (h.2 d (List.mem_filter.mp hd |>.1))⟩

end TermText
