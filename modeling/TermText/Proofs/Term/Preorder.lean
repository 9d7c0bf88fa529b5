import Mathlib.Logic.Relation
import TermText.Sharing

/-!
# The nodes of a term in the order of their visit

The pre-order of a term lists a shared node wherever it occurs; reachability through children does
not mention an order. The nodes of several terms are listed once each, at their first occurrence,
by `innerNodes`, and leaves are left out. The list is a specification: nothing computes with it,
and for a graph with much sharing it is read off a list far longer than itself.
-/

namespace TermText

namespace Term

/-- A node is reached from a term by going to children any number of times. -/
def Reaches : Term → Term → Prop :=
  Relation.ReflTransGen fun t c => c ∈ t.children

/-- A term and everything below it, from left to right, every node in front of its children. -/
def preorder : Term → List Term
  | .app id fn arg => .app id fn arg :: (fn.preorder ++ arg.preorder)
  | .lambda id type body binder => .lambda id type body binder :: (type.preorder ++ body.preorder)
  | .pi id type body binder => .pi id type body binder :: (type.preorder ++ body.preorder)
  | .letIn id type value body binder =>
    .letIn id type value body binder :: (type.preorder ++ (value.preorder ++ body.preorder))
  | .annotated id inner data => .annotated id inner data :: inner.preorder
  | .proj id typeName index struct => .proj id typeName index struct :: struct.preorder
  | .unwritableProj id typeName error struct =>
    .unwritableProj id typeName error struct :: struct.preorder
  | t => [t]

/-- The pre-order of a term is the term in front of the pre-orders of its children. -/
theorem preorder_eq (t : Term) : t.preorder = t :: t.children.flatMap preorder := by
  cases t <;> simp [preorder, children]

/-- A child has fewer nodes than its parent. -/
theorem size_lt_of_mem_children {t c : Term} (h : c ∈ t.children) : c.size < t.size := by
  have hle : ∀ ts : List Term, c ∈ ts → c.size ≤ totalSize ts := by
    intro ts hmem
    induction ts with
    | nil => cases hmem
    | cons u rest ih =>
      simp only [totalSize]
      obtain rfl | hrest := List.mem_cons.1 hmem
      · omega
      · have hrest := ih hrest
        omega
  have hall := totalSize_children_lt t
  have hone := hle t.children h
  omega

/-- A node that is reached has at most as many nodes as what it is reached from. -/
theorem Reaches.size_le {t u : Term} (h : t.Reaches u) : u.size ≤ t.size := by
  induction h with
  | refl => exact Nat.le_refl _
  | tail _ hchild ih =>
    have hlt := size_lt_of_mem_children hchild
    omega

/-- A leaf has no children. -/
theorem children_of_isLeaf {t : Term} (h : t.isLeaf = true) : t.children = [] := by
  cases t <;> simp_all [isLeaf, children]

/-- The pre-order lists what is reached. -/
theorem mem_preorder_iff {t u : Term} : u ∈ t.preorder ↔ t.Reaches u := by
  induction hsize : t.size using Nat.strongRecOn generalizing t with
  | ind n ih =>
    have hbelow : ∀ c ∈ t.children, u ∈ c.preorder ↔ c.Reaches u := fun c hc =>
      ih c.size (hsize ▸ size_lt_of_mem_children hc) rfl
    rw [preorder_eq, List.mem_cons, List.mem_flatMap]
    constructor
    · intro h
      obtain rfl | ⟨c, hc, hu⟩ := h
      · exact .refl
      · exact .head hc ((hbelow c hc).1 hu)
    · intro h
      obtain rfl | ⟨c, hc, hu⟩ := h.cases_head
      · exact .inl rfl
      · exact .inr ⟨c, hc, (hbelow c hc).2 hu⟩

/-- The terms whose identity is not among those seen, each at the first occurrence of its
identity. -/
def fresh (seen : List NodeId) : List Term → List Term
  | [] => []
  | t :: rest => if t.id ∈ seen then fresh seen rest else t :: fresh (seen ++ [t.id]) rest

/-- The inner nodes of several terms in the order in which they are come by, shared ones as often as
they occur. -/
def visits (ts : List Term) : List Term :=
  (ts.flatMap preorder).filter fun t => !t.isLeaf

/-- The inner nodes of several terms, each once, in the order of their first visit. -/
def innerNodes (ts : List Term) : List Term :=
  fresh [] (visits ts)

/-- The identities of what is fresh are those that were not seen. -/
theorem mem_ids_fresh {seen : List NodeId} {ts : List Term} {id : NodeId} :
    id ∈ (fresh seen ts).map Term.id ↔ id ∉ seen ∧ id ∈ ts.map Term.id := by
  induction ts generalizing seen with
  | nil => simp [fresh]
  | cons u rest ih =>
    by_cases hseen : u.id ∈ seen
    · rw [fresh, if_pos hseen, ih, List.map_cons, List.mem_cons]
      by_cases hid : id ∈ seen
      · simp [hid]
      · have hne : id ≠ u.id := fun heq => hid (heq ▸ hseen)
        simp [hid, hne]
    · rw [fresh, if_neg hseen, List.map_cons, List.mem_cons, ih, List.map_cons, List.mem_cons,
        List.mem_append, List.mem_singleton]
      by_cases heq : id = u.id
      · simp [heq, hseen]
      · simp [heq]

/-- No two fresh terms have one identity. -/
theorem nodup_ids_fresh (seen : List NodeId) (ts : List Term) :
    ((fresh seen ts).map Term.id).Nodup := by
  induction ts generalizing seen with
  | nil => exact List.nodup_nil
  | cons u rest ih =>
    by_cases hseen : u.id ∈ seen
    · rw [fresh, if_pos hseen]
      exact ih seen
    · rw [fresh, if_neg hseen, List.map_cons, List.nodup_cons, mem_ids_fresh]
      exact ⟨fun h => h.1 (List.mem_append_right seen List.mem_cons_self), ih _⟩

/-- Terms that were all seen can be left out. -/
theorem fresh_append_of_seen {seen : List NodeId} {ts us : List Term}
    (h : ∀ t ∈ ts, t.id ∈ seen) : fresh seen (ts ++ us) = fresh seen us := by
  induction ts with
  | nil => rfl
  | cons t rest ih =>
    rw [List.cons_append, fresh, if_pos (h t List.mem_cons_self)]
    exact ih fun u hu => h u (List.mem_cons_of_mem t hu)

/-- The visits of a term and of further ones. -/
theorem visits_cons (t : Term) (rest : List Term) :
    visits (t :: rest) = visits [t] ++ visits rest := by
  simp [visits]

/-- A leaf is not visited. -/
theorem visits_leaf {t : Term} (h : t.isLeaf = true) (rest : List Term) :
    visits (t :: rest) = visits rest := by
  rw [visits_cons]
  simp [visits, preorder_eq, children_of_isLeaf h, h]

/-- An inner node is visited in front of its children. -/
theorem visits_inner {t : Term} (h : t.isLeaf = false) (rest : List Term) :
    visits (t :: rest) = t :: visits (t.children ++ rest) := by
  simp [visits, preorder_eq t, h]

/-- The nodes reached from several terms. -/
def Reached (roots : List Term) (t : Term) : Prop :=
  ∃ r ∈ roots, r.Reaches t

/-- What is reached from several terms is what their pre-orders list. -/
theorem reached_iff {roots : List Term} {t : Term} :
    Reached roots t ↔ t ∈ roots.flatMap preorder := by
  simp only [Reached, List.mem_flatMap, mem_preorder_iff]

/-- A child of a node that is reached is reached. -/
theorem Reached.child {roots : List Term} {t c : Term} (h : Reached roots t)
    (hc : c ∈ t.children) : Reached roots c := by
  obtain ⟨r, hr, hreach⟩ := h
  exact ⟨r, hr, hreach.tail hc⟩

/-- What is reached from a node that is reached is reached. -/
theorem Reached.trans {roots : List Term} {t u : Term} (h : Reached roots t) (hu : t.Reaches u) :
    Reached roots u := by
  obtain ⟨r, hr, hreach⟩ := h
  exact ⟨r, hr, Relation.ReflTransGen.trans hreach hu⟩

/-- The inner nodes that are reached are those that are visited. -/
theorem mem_visits_iff {roots : List Term} {t : Term} :
    t ∈ visits roots ↔ Reached roots t ∧ t.isLeaf = false := by
  rw [visits, List.mem_filter, reached_iff, Bool.not_eq_true']

/-- Terms that are one graph of nodes of the model: no foreign object is reached, and nodes of one
identity are one node. -/
structure OneGraph (roots : List Term) : Prop where
  known : ∀ t, Reached roots t → ∀ id f, t ≠ .foreign id f
  same : ∀ t u, Reached roots t → Reached roots u → t.id = u.id → t = u

/-- Some terms of one graph are one graph. -/
theorem OneGraph.of_append {earlier later : List Term} (h : OneGraph (earlier ++ later)) :
    OneGraph earlier := by
  have hmore : ∀ t, Reached earlier t → Reached (earlier ++ later) t := by
    intro t ht
    obtain ⟨r, hr, hreach⟩ := ht
    exact ⟨r, List.mem_append_left later hr, hreach⟩
  exact ⟨fun t ht => h.known t (hmore t ht),
    fun t u ht hu => h.same t u (hmore t ht) (hmore u hu)⟩

end Term

end TermText
