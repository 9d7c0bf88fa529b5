import TermText.Proofs.Term.Preorder

/-!
# What counting the nodes of terms finds

The tally of terms counted one after another has one entry for every inner node reached, in the
order of their first visit, and the count of a node is one less than the number of places that hold
it: child slots of inner nodes and places among the terms counted. Each step of a visit preserves
how the terms on the stack, the nodes entered and the places counted add up (`Visiting`), whatever
the stack holds. Only terms of one graph are covered; what a failure leaves in the tally is not.
-/

namespace TermText

namespace Tally

/-- The nodes of a tally in their order. -/
def keys (tally : Tally) : List NodeId :=
  tally.map Prod.fst

/-- How often a node was met, its first visit included. -/
def met : Tally → NodeId → Nat
  | [], _ => 0
  | (n, count) :: rest, id => if n = id then count + 1 else met rest id

/-- A node is met if it is among the keys. -/
theorem contains_iff {tally : Tally} {id : NodeId} : tally.contains id = true ↔ id ∈ tally.keys := by
  simp [contains, keys]

/-- Counting a node again keeps the keys. -/
@[simp] theorem keys_bump (tally : Tally) (id : NodeId) : (tally.bump id).keys = tally.keys := by
  induction tally with
  | nil => rfl
  | cons entry rest ih =>
    obtain ⟨n, count⟩ := entry
    by_cases heq : n = id
    · simp [bump, heq, keys]
    · simpa [bump, heq, keys] using ih

/-- A node that is entered is the last key. -/
@[simp] theorem keys_enter (tally : Tally) (id : NodeId) :
    (tally.enter id).keys = tally.keys ++ [id] := by
  simp [enter, keys]

/-- Counting a node again counts one more for it and nothing for the others. -/
theorem met_bump {tally : Tally} {n : NodeId} (h : n ∈ tally.keys) (id : NodeId) :
    (tally.bump n).met id = tally.met id + if n = id then 1 else 0 := by
  induction tally with
  | nil => cases h
  | cons entry rest ih =>
    obtain ⟨m, count⟩ := entry
    by_cases heq : m = n
    · subst heq
      by_cases hid : m = id
      · simp [bump, met, hid]
      · simp [bump, met, hid]
    · have hrest : n ∈ keys rest := by
        obtain hhead | htail := List.mem_cons.1 h
        · exact absurd hhead.symm heq
        · exact htail
      have ih := ih hrest
      by_cases hid : m = id
      · have hne : n ≠ id := fun hn => heq (hid.trans hn.symm)
        rw [bump, if_neg heq, met, met, if_pos hid, if_pos hid, if_neg hne, Nat.add_zero]
      · simp [bump, met, heq, hid, ih]

/-- Entering a node counts one for it and nothing for the others. -/
theorem met_enter {tally : Tally} {n : NodeId} (h : n ∉ tally.keys) (id : NodeId) :
    (tally.enter n).met id = tally.met id + if n = id then 1 else 0 := by
  induction tally with
  | nil => simp [enter, met]
  | cons entry rest ih =>
    obtain ⟨m, count⟩ := entry
    have hhead : n ≠ m := fun heq => h (List.mem_cons.2 (.inl heq))
    have ih := ih fun hmem => h (List.mem_cons_of_mem m hmem)
    rw [enter] at ih ⊢
    by_cases hid : m = id
    · have hne : n ≠ id := fun hn => hhead (hn.trans hid.symm)
      simp [met, hid, hne]
    · simp [met, hid, ih]

/-- In a tally without repeated keys the count of an entry is one less than its node was met. -/
theorem met_of_mem {tally : Tally} (hkeys : tally.keys.Nodup) {id : NodeId} {count : Nat}
    (h : (id, count) ∈ tally) : tally.met id = count + 1 := by
  induction tally with
  | nil => cases h
  | cons entry rest ih =>
    obtain ⟨n, c⟩ := entry
    have hsplit : n ∉ keys rest ∧ (keys rest).Nodup := List.nodup_cons.1 hkeys
    obtain heq | hrest := List.mem_cons.1 h
    · cases heq
      simp [met]
    · have hmem : id ∈ keys rest := List.mem_map_of_mem hrest
      have hne : n ≠ id := fun heq => hsplit.1 (heq ▸ hmem)
      rw [met, if_neg hne]
      exact ih hsplit.2 hrest

/-- A tally has grown into another: no key is lost or comes to stand elsewhere, and no count has
become smaller. -/
structure Grows (before after : Tally) : Prop where
  keys : before.keys <+: after.keys
  counts : ∀ id n, (id, n) ∈ before → ∃ m, n ≤ m ∧ (id, m) ∈ after

/-- A tally has grown into itself. -/
theorem Grows.refl (tally : Tally) : tally.Grows tally :=
  ⟨List.prefix_refl _, fun _ n h => ⟨n, Nat.le_refl n, h⟩⟩

/-- A tally that grows twice has grown. -/
theorem Grows.trans {first second third : Tally} (h : first.Grows second)
    (h' : second.Grows third) : first.Grows third := by
  refine ⟨h.keys.trans h'.keys, ?_⟩
  intro id n hmem
  obtain ⟨m, hle, hmem'⟩ := h.counts id n hmem
  obtain ⟨k, hle', hmem''⟩ := h'.counts id m hmem'
  exact ⟨k, Nat.le_trans hle hle', hmem''⟩

/-- Counting a node again makes a tally grow. -/
theorem grows_bump (tally : Tally) (id : NodeId) : tally.Grows (tally.bump id) := by
  refine ⟨(keys_bump tally id).symm ▸ List.prefix_rfl, ?_⟩
  intro n count hmem
  induction tally with
  | nil => cases hmem
  | cons entry rest ih =>
    obtain ⟨k, c⟩ := entry
    by_cases heq : k = id
    · rw [bump, if_pos heq]
      obtain hhead | hrest := List.mem_cons.1 hmem
      · cases hhead
        exact ⟨count + 1, Nat.le_succ count, List.mem_cons_self⟩
      · exact ⟨count, Nat.le_refl count, List.mem_cons_of_mem _ hrest⟩
    · rw [bump, if_neg heq]
      obtain hhead | hrest := List.mem_cons.1 hmem
      · exact ⟨count, Nat.le_refl count, hhead ▸ List.mem_cons_self⟩
      · obtain ⟨m, hle, hm⟩ := ih hrest
        exact ⟨m, hle, List.mem_cons_of_mem _ hm⟩

/-- Entering a node makes a tally grow. -/
theorem grows_enter (tally : Tally) (id : NodeId) : tally.Grows (tally.enter id) :=
  ⟨by rw [keys_enter]; exact List.prefix_append _ _,
    fun _ n h => ⟨n, Nat.le_refl n, List.mem_append_left _ h⟩⟩

end Tally

namespace Term

/-- A node of the model can be looked up, and its children can be asked for. -/
theorem visit_cons {t : Term} (h : ∀ id f, t ≠ .foreign id f) (rest : List Term) (tally : Tally) :
    visit (t :: rest) tally =
      if tally.contains t.id then visit rest (tally.bump t.id)
      else if t.isLeaf then visit rest tally
      else visit (t.children ++ rest) (tally.enter t.id) := by
  cases t with
  | foreign id f => exact absurd rfl (h id f)
  | _ => rw [visit]; rfl

/-- Visiting terms and then further ones is visiting all of them, unless one fails. -/
theorem visit_append (earlier later : List Term) (tally : Tally) :
    visit (earlier ++ later) tally =
      match visit earlier tally with
      | (next, .ok _) => visit later next
      | (next, .error e) => (next, .error e) := by
  fun_induction visit earlier tally with
  | case1 tally => rfl
  | case2 tally t rest e hlookup => simp [visit, hlookup]
  | case3 tally t rest hlookup hmet ih => simpa [visit, hlookup, hmet] using ih
  | case4 tally t rest hlookup hmet hleaf ih => simpa [visit, hlookup, hmet, hleaf] using ih
  | case5 tally t rest hlookup hmet hleaf e hfailed =>
    rw [List.cons_append, visit]
    simp only [hlookup, hmet, hleaf, Bool.false_eq_true, if_false]
    split <;> simp_all
  | case6 tally t rest hlookup hmet hleaf children hgiven ih =>
    rw [← ih, List.cons_append, visit]
    simp only [hlookup, hmet, hleaf, Bool.false_eq_true, if_false]
    split <;> simp_all

/-- A visit makes a tally grow. -/
theorem grows_visit (stack : List Term) (tally : Tally) : tally.Grows (visit stack tally).1 := by
  fun_induction visit stack tally with
  | case1 tally => exact .refl tally
  | case2 tally t rest e hlookup => exact .refl tally
  | case3 tally t rest hlookup hmet ih => exact (tally.grows_bump t.id).trans ih
  | case4 tally t rest hlookup hmet hleaf ih => exact ih
  | case5 tally t rest hlookup hmet hleaf e hfailed => exact tally.grows_enter t.id
  | case6 tally t rest hlookup hmet hleaf children hgiven ih =>
    exact (tally.grows_enter t.id).trans ih

/-- How many child slots of some nodes hold a node. -/
def slots (nodes : List Term) (id : NodeId) : Nat :=
  ((nodes.flatMap children).map Term.id).count id

/-- A visit under way: the terms on the stack are those still to be visited, and the nodes entered
so far and what the stack will still enter are the inner nodes of the roots. Whatever is missing
below a node entered stands on the stack, below terms smaller than the node alone. -/
structure Visiting (roots entered stack : List Term) (tally : Tally) : Prop where
  reached : ∀ t, t ∈ entered ∨ t ∈ stack → Reached roots t
  keys : tally.keys = entered.map Term.id
  nodes : entered ++ fresh (entered.map Term.id) (visits stack) = innerNodes roots
  pending : ∀ t ∈ entered, ∀ c ∈ t.children, c.isLeaf = false → c.id ∉ entered.map Term.id →
    ∃ above below, stack = above ++ c :: below ∧ ∀ a ∈ above, a.size < t.size
  places : ∀ t, Reached roots t → t.isLeaf = false →
    tally.met t.id + (stack.map Term.id).count t.id =
      slots entered t.id + (roots.map Term.id).count t.id

namespace Visiting

variable {roots entered rest : List Term} {t : Term} {tally : Tally}

/-- Before a visit all is still on the stack. -/
theorem start (roots : List Term) : Visiting roots [] roots [] where
  reached := by
    intro t ht
    obtain h | h := ht
    · cases h
    · exact ⟨t, h, .refl⟩
  keys := rfl
  nodes := rfl
  pending := by
    intro t ht
    cases ht
  places := by
    intro t _ _
    simp [Tally.met, slots]

/-- A node that is waited for and is not the one on top of the stack still stands below it. -/
theorem pending_below (h : Visiting roots entered (t :: rest) tally) {u c : Term}
    (hu : u ∈ entered) (hc : c ∈ u.children) (hinner : c.isLeaf = false)
    (hnew : c.id ∉ entered.map Term.id) (hne : c ≠ t) :
    t.size < u.size ∧ ∃ above below, rest = above ++ c :: below ∧ ∀ a ∈ above, a.size < u.size := by
  obtain ⟨above, below, hstack, hsizes⟩ := h.pending u hu c hc hinner hnew
  cases above with
  | nil =>
    have htop : t = c := (List.cons.inj hstack).1
    exact absurd htop.symm hne
  | cons a above =>
    obtain ⟨htop, hrest⟩ := List.cons.inj hstack
    refine ⟨htop ▸ hsizes a List.mem_cons_self, above, below, hrest, ?_⟩
    intro b hb
    exact hsizes b (List.mem_cons_of_mem a hb)

/-- A node of which the identity was entered was entered itself. -/
theorem mem_entered (h : Visiting roots entered rest tally) (graph : OneGraph roots)
    (hreached : Reached roots t) (hid : t.id ∈ entered.map Term.id) : t ∈ entered := by
  obtain ⟨u, hu, heq⟩ := List.mem_map.1 hid
  have hsame : u = t := graph.same u t (h.reached u (.inl hu)) hreached heq
  exact hsame ▸ hu

/-- If the term on top of the stack was entered, so was every inner node below it: what is missing
below a node would stand above the smaller term, which is on top. -/
theorem closed (h : Visiting roots entered (t :: rest) tally) (graph : OneGraph roots)
    (hid : t.id ∈ entered.map Term.id) {u : Term} (hu : t.Reaches u) (hinner : u.isLeaf = false) :
    u.id ∈ entered.map Term.id := by
  have ht : Reached roots t := h.reached t (.inr List.mem_cons_self)
  induction hu with
  | refl => exact hid
  | @tail parent u hparent hchild ih =>
    have hparentInner : parent.isLeaf = false := by
      cases hleaf : parent.isLeaf with
      | false => rfl
      | true =>
        rw [children_of_isLeaf hleaf] at hchild
        cases hchild
    have hentered := h.mem_entered graph (ht.trans hparent) (ih hparentInner)
    by_cases hnew : u.id ∈ entered.map Term.id
    · exact hnew
    · have hne : u ≠ t := fun heq => hnew (heq ▸ hid)
      have hlt := (h.pending_below hentered hchild hinner hnew hne).1
      have hle := Reaches.size_le hparent
      omega

/-- An inner node is not counted where a leaf stands. -/
theorem count_leaf (graph : OneGraph roots) (ht : Reached roots t) (hleaf : t.isLeaf = true)
    {u : Term} (hu : Reached roots u) (hinner : u.isLeaf = false) :
    ((t :: rest).map Term.id).count u.id = (rest.map Term.id).count u.id := by
  have hne : t.id ≠ u.id := by
    intro heq
    rw [graph.same t u ht hu heq, hinner] at hleaf
    cases hleaf
  simp [hne]

/-- A leaf is left out. -/
theorem leaf (h : Visiting roots entered (t :: rest) tally) (graph : OneGraph roots)
    (hleaf : t.isLeaf = true) : Visiting roots entered rest tally where
  reached := fun u hu => h.reached u (hu.imp_right (List.mem_cons_of_mem t))
  keys := h.keys
  nodes := by
    have hnodes := h.nodes
    rwa [visits_leaf hleaf] at hnodes
  pending := by
    intro u hu c hc hinner hnew
    have hne : c ≠ t := by
      intro heq
      rw [heq, hleaf] at hinner
      cases hinner
    exact (h.pending_below hu hc hinner hnew hne).2
  places := by
    intro u hu hinner
    have hplaces := h.places u hu hinner
    rwa [count_leaf graph (h.reached t (.inr List.mem_cons_self)) hleaf hu hinner] at hplaces

/-- A node that is met again is counted, and nothing below it is visited. -/
theorem bump (h : Visiting roots entered (t :: rest) tally) (graph : OneGraph roots)
    (hmet : t.id ∈ tally.keys) : Visiting roots entered rest (tally.bump t.id) where
  reached := fun u hu => h.reached u (hu.imp_right (List.mem_cons_of_mem t))
  keys := by rw [Tally.keys_bump, h.keys]
  nodes := by
    rw [h.keys] at hmet
    have hseen : ∀ u ∈ visits [t], u.id ∈ entered.map Term.id := by
      intro u hu
      obtain ⟨⟨r, hr, hreach⟩, hinner⟩ := mem_visits_iff.1 hu
      rw [List.mem_singleton] at hr
      exact h.closed graph hmet (hr ▸ hreach) hinner
    have hnodes := h.nodes
    rwa [visits_cons, fresh_append_of_seen hseen] at hnodes
  pending := by
    rw [h.keys] at hmet
    intro u hu c hc hinner hnew
    have hne : c ≠ t := fun heq => hnew (heq ▸ hmet)
    exact (h.pending_below hu hc hinner hnew hne).2
  places := by
    intro u hu hinner
    have hplaces := h.places u hu hinner
    rw [List.map_cons, List.count_cons] at hplaces
    rw [Tally.met_bump hmet]
    simp only [beq_iff_eq] at hplaces
    omega

/-- A node that is met for the first time is entered and its children are visited next. -/
theorem enter (h : Visiting roots entered (t :: rest) tally) (hinner : t.isLeaf = false)
    (hnew : t.id ∉ tally.keys) :
    Visiting roots (entered ++ [t]) (t.children ++ rest) (tally.enter t.id) where
  reached := by
    have ht : Reached roots t := h.reached t (.inr List.mem_cons_self)
    intro u hu
    simp only [List.mem_append, List.mem_singleton] at hu
    obtain (hu | hu) | hu | hu := hu
    · exact h.reached u (.inl hu)
    · exact hu ▸ ht
    · exact ht.child hu
    · exact h.reached u (.inr (List.mem_cons_of_mem t hu))
  keys := by rw [Tally.keys_enter, h.keys, List.map_append]; rfl
  nodes := by
    rw [h.keys] at hnew
    have hnodes := h.nodes
    rw [visits_inner hinner, fresh, if_neg hnew] at hnodes
    rw [List.map_append, List.append_assoc]
    exact hnodes
  pending := by
    intro u hu c hc hcinner hcnew
    rw [List.map_append, List.mem_append, not_or] at hcnew
    have hne : c ≠ t := fun heq => hcnew.2 (List.mem_map_of_mem (List.mem_singleton.2 heq))
    obtain hu | hu := List.mem_append.1 hu
    · obtain ⟨hlt, above, below, hrest, hsizes⟩ := h.pending_below hu hc hcinner hcnew.1 hne
      refine ⟨t.children ++ above, below, by rw [hrest, List.append_assoc], ?_⟩
      intro a ha
      obtain ha | ha := List.mem_append.1 ha
      · have hlt' := size_lt_of_mem_children ha
        omega
      · exact hsizes a ha
    · rw [List.mem_singleton] at hu
      obtain ⟨left, right, hsplit⟩ := List.append_of_mem hc
      rw [hu] at hsplit
      refine ⟨left, right ++ rest, by rw [hsplit, List.append_assoc]; rfl, ?_⟩
      intro a ha
      rw [hu]
      exact size_lt_of_mem_children (hsplit ▸ List.mem_append_left _ ha)
  places := by
    intro u hu huinner
    have hplaces := h.places u hu huinner
    rw [List.map_cons, List.count_cons] at hplaces
    rw [Tally.met_enter hnew, List.map_append, List.count_append]
    simp only [beq_iff_eq, slots, List.flatMap_append, List.map_append, List.count_append,
      List.flatMap_singleton] at hplaces ⊢
    omega

/-- Run to its end, a visit has entered the inner nodes of the roots. -/
theorem run (graph : OneGraph roots) {stack : List Term}
    (h : Visiting roots entered stack tally) :
    ∃ final, visit stack tally = (final, .ok ()) ∧
      Visiting roots (innerNodes roots) [] final := by
  induction hsize : totalSize stack using Nat.strongRecOn generalizing entered stack tally with
  | ind n ih =>
    cases stack with
    | nil =>
      have hall : entered = innerNodes roots := by
        have hnodes := h.nodes
        simpa [visits, fresh] using hnodes
      exact ⟨tally, by rw [visit], hall ▸ h⟩
    | cons t rest =>
      have hchildren := totalSize_children_lt t
      rw [visit_cons (graph.known t (h.reached t (.inr List.mem_cons_self)))]
      by_cases hmet : tally.contains t.id = true
      · rw [if_pos hmet]
        have hbump := h.bump graph (Tally.contains_iff.1 hmet)
        exact ih (totalSize rest) (by simp only [totalSize] at hsize; omega) hbump rfl
      · rw [if_neg hmet]
        by_cases hleaf : t.isLeaf = true
        · rw [if_pos hleaf]
          have hleaf := h.leaf graph hleaf
          exact ih (totalSize rest) (by simp only [totalSize] at hsize; omega) hleaf rfl
        · rw [if_neg hleaf]
          have henter := h.enter (Bool.eq_false_iff.2 hleaf) (mt Tally.contains_iff.2 hmet)
          exact ih (totalSize (t.children ++ rest))
            (by simp only [totalSize] at hsize; rw [totalSize_append]; omega) henter rfl

end Visiting

end Term

namespace Tally

open Term

/-- A tally is the exact account of some terms: its keys are the inner nodes they reach, each once
and in the order of their first visit, and a count is one less than the number of places that hold
the node, child slots of keys and places among the terms. -/
structure Accounts (tally : Tally) (terms : List Term) : Prop where
  order : tally.keys = (innerNodes terms).map Term.id
  once : tally.keys.Nodup
  reached : ∀ id, id ∈ tally.keys ↔ ∃ t, Reached terms t ∧ t.isLeaf = false ∧ t.id = id
  counts : ∀ id n, (id, n) ∈ tally →
    n + 1 = slots (innerNodes terms) id + (terms.map Term.id).count id

/-- A visit that has come to its end leaves an exact account. -/
theorem accounts_of_visiting {terms : List Term} {tally : Tally}
    (h : Visiting terms (innerNodes terms) [] tally) : tally.Accounts terms := by
  have honce : tally.keys.Nodup := by
    rw [h.keys]
    exact nodup_ids_fresh [] (visits terms)
  have hreached : ∀ id, id ∈ tally.keys ↔ ∃ t, Reached terms t ∧ t.isLeaf = false ∧ t.id = id := by
    intro id
    rw [h.keys, innerNodes, mem_ids_fresh, List.mem_map]
    simp only [mem_visits_iff, List.not_mem_nil, not_false_eq_true, true_and, and_assoc]
  refine ⟨h.keys, honce, hreached, ?_⟩
  intro id n hentry
  obtain ⟨t, ht, hinner, rfl⟩ := (hreached id).1 (List.mem_map_of_mem hentry)
  have hplaces := h.places t ht hinner
  rwa [met_of_mem honce hentry, List.map_nil, List.count_nil, Nat.add_zero] at hplaces

end Tally

namespace SharingMetrics

open Term

/-- Terms that can be visited together are counted one after another with the same tally. -/
theorem countAll_of_visit {ts : List Term} {tally final : Tally}
    (h : visit ts tally = (final, .ok ())) : countAll tally ts = .ok final := by
  induction ts generalizing tally with
  | nil =>
    rw [visit] at h
    cases h
    rfl
  | cons t rest ih =>
    have hsplit := visit_append [t] rest tally
    rw [List.singleton_append, h] at hsplit
    rw [countAll, count]
    cases hfirst : visit [t] tally with
    | mk next result =>
      rw [hfirst] at hsplit
      cases result with
      | ok _ => exact ih hsplit.symm
      | error e => cases hsplit

/-- Counting the terms of one graph one after another, from an empty tally on, never fails and keeps
an exact account: after any number of the terms the tally accounts for those, and the tally after
all of them has grown out of it. -/
theorem countAll_accounts (earlier later : List Term) (graph : OneGraph (earlier ++ later)) :
    ∃ before after : Tally,
      countAll [] earlier = .ok before ∧ countAll before later = .ok after ∧
      before.Accounts earlier ∧ after.Accounts (earlier ++ later) ∧ before.Grows after := by
  obtain ⟨before, hbefore, hearlier⟩ := (Visiting.start earlier).run graph.of_append
  obtain ⟨after, hafter, hall⟩ := (Visiting.start (earlier ++ later)).run graph
  have hlater : visit later before = (after, .ok ()) := by
    rw [visit_append, hbefore] at hafter
    exact hafter
  have hgrows := grows_visit later before
  rw [hlater] at hgrows
  exact ⟨before, after, countAll_of_visit hbefore, countAll_of_visit hlater,
    Tally.accounts_of_visiting hearlier, Tally.accounts_of_visiting hall, hgrows⟩

/-- A pair of one leaf, an application of the pair to itself, and both of them once more: the pair
stands in two child slots and among the terms, its application in the slot of an annotation and
among the terms. -/
theorem countAll_accounts_for_shared_pair :
    let pair : Term := .app 1 (.boundVar 0 0) (.boundVar 0 0)
    let square : Term := .app 2 pair pair
    OneGraph ([square] ++ [pair, .annotated 3 square []]) ∧
      ∃ before after : Tally,
        countAll [] [square] = .ok before ∧
        countAll before [pair, .annotated 3 square []] = .ok after ∧
        before = [(2, 0), (1, 1)] ∧ after = [(2, 1), (1, 2), (3, 0)] ∧
        before.Accounts [square] ∧ after.Accounts [square, pair, .annotated 3 square []] ∧
        before.Grows after := by
  intro pair square
  have hnodes : ∀ t, Reached ([square] ++ [pair, .annotated 3 square []]) t →
      t = .boundVar 0 0 ∨ t = pair ∨ t = square ∨ t = .annotated 3 square [] := by
    intro t ht
    rw [reached_iff] at ht
    simp only [square, pair, preorder, List.cons_append, List.nil_append, List.flatMap_cons,
      List.flatMap_nil, List.mem_cons, List.not_mem_nil] at ht
    grind
  have graph : OneGraph ([square] ++ [pair, .annotated 3 square []]) := by
    constructor
    · intro t ht id f
      obtain rfl | rfl | rfl | rfl := hnodes t ht <;> simp [square, pair]
    · intro t u ht hu
      obtain rfl | rfl | rfl | rfl := hnodes t ht <;>
        obtain rfl | rfl | rfl | rfl := hnodes u hu <;> simp [square, pair, Term.id]
  refine ⟨graph, ?_⟩
  obtain ⟨before, after, hbefore, hafter, haccounts, hall, hgrows⟩ := countAll_accounts _ _ graph
  have hfirst : countAll [] [square] = .ok [(2, 0), (1, 1)] := by
    simp [countAll, count, visit_cons, square, pair, Tally.contains, Tally.enter, Tally.bump,
      children, isLeaf, Term.id, visit]
  have hlast : countAll [(2, 0), (1, 1)] [pair, .annotated 3 square []]
      = .ok [(2, 1), (1, 2), (3, 0)] := by
    simp [countAll, count, visit_cons, square, pair, Tally.contains, Tally.enter, Tally.bump,
      children, isLeaf, Term.id, visit]
  rw [hfirst] at hbefore
  cases hbefore
  rw [hlast] at hafter
  cases hafter
  exact ⟨_, _, hfirst, hlast, rfl, rfl, haccounts, hall, hgrows⟩

end SharingMetrics

end TermText
