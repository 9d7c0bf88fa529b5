import Mathlib.Algebra.BigOperators.Ring.Finset
import Mathlib.Data.List.Nodup
import TermText.Proofs.Sharing.Counting

/-!
# What the figures of sharing depend on

The figures of terms that are one graph are those of the numbers of places that hold its inner nodes, in
whatever order the nodes are listed. So neither the order in which terms are counted nor the tally that is
handed on between them can be seen in the figures, and declarations may be rearranged.
-/

namespace TermText

namespace SharingMetrics

/-- The figures of nodes of which it is known how many places hold each. -/
def ofPlaces (places : List Nat) : SharingMetrics where
  distinct := places.length
  shared := places.countP fun n => 2 ≤ n
  revisits := (places.map fun n => n - 1).sum

/-- The order of the nodes does not matter. -/
theorem ofPlaces_eq_of_perm {places places' : List Nat} (h : places.Perm places') :
    ofPlaces places = ofPlaces places' := by
  rw [ofPlaces, ofPlaces, h.length_eq, h.countP_eq, (h.map _).sum_eq]

/-- The figures of a tally, in which a node is counted once less than there are places that hold it. -/
theorem ofTally_eq_ofPlaces (tally : Tally) : ofTally tally = ofPlaces (tally.map (·.2 + 1)) := by
  have hrevisits : tally.shared.foldr (fun entry n => entry.2 + n) 0 =
      ((tally.map (·.2 + 1)).map fun n => n - 1).sum := by
    induction tally with
    | nil => rfl
    | cons entry rest ih =>
      obtain ⟨id, count⟩ := entry
      rw [List.map_cons, List.map_cons, List.sum_cons, ← ih, Tally.shared, List.filter_cons]
      split
      · rfl
      · next hzero =>
        have hcount : count = 0 := by simpa using hzero
        simp [hcount, Tally.shared]
  have hshared : tally.shared.length = (tally.map (·.2 + 1)).countP fun n => 2 ≤ n := by
    rw [Tally.shared, List.countP_map, List.countP_eq_length_filter]
    refine congrArg (fun p => (List.filter p tally).length) (funext fun entry => decide_eq_decide.mpr ?_)
    change 0 < entry.2 ↔ 2 ≤ entry.2 + 1
    omega
  rw [ofTally, ofPlaces, hshared, hrevisits, List.length_map]

end SharingMetrics

namespace Term

variable {roots roots' nodes nodes' : List Term}

/-- How many places hold a node: child slots of some nodes, and places among some terms. -/
def places (nodes roots : List Term) (t : Term) : Nat :=
  slots nodes t.id + (roots.map Term.id).count t.id

/-- The order of the nodes and of the terms does not matter. -/
theorem places_eq_of_perm (hnodes : nodes.Perm nodes') (hroots : roots.Perm roots') (t : Term) :
    places nodes roots t = places nodes' roots' t := by
  rw [places, places, slots, slots, ((hnodes.flatMap_right children).map Term.id).count_eq,
    (hroots.map Term.id).count_eq]

/-- What is fresh was given. -/
theorem mem_of_mem_fresh {seen : List NodeId} {ts : List Term} {t : Term} (h : t ∈ fresh seen ts) :
    t ∈ ts := by
  induction ts generalizing seen with
  | nil => cases h
  | cons u rest ih =>
    rw [fresh] at h
    split at h
    · exact List.mem_cons_of_mem u (ih h)
    · obtain rfl | hrest := List.mem_cons.mp h
      · exact List.mem_cons_self
      · exact List.mem_cons_of_mem u (ih hrest)

/-- No inner node is listed twice. -/
theorem nodup_innerNodes (roots : List Term) : (innerNodes roots).Nodup :=
  List.Nodup.of_map Term.id (nodup_ids_fresh [] (visits roots))

/-- In one graph the inner nodes are listed themselves, not only their identities. -/
theorem OneGraph.mem_innerNodes_iff (graph : OneGraph roots) {t : Term} :
    t ∈ innerNodes roots ↔ Reached roots t ∧ t.isLeaf = false := by
  constructor
  · exact fun h => mem_visits_iff.mp (mem_of_mem_fresh h)
  · intro h
    have hid : t.id ∈ (innerNodes roots).map Term.id :=
      mem_ids_fresh.mpr ⟨List.not_mem_nil, List.mem_map_of_mem (mem_visits_iff.mpr h)⟩
    obtain ⟨u, hu, hsame⟩ := List.mem_map.mp hid
    have hreached : Reached roots u := (mem_visits_iff.mp (mem_of_mem_fresh hu)).1
    exact graph.same u t hreached h.1 hsame ▸ hu

/-- Some place holds a node that is reached. -/
theorem places_pos (hnodes : ∀ u, Reached roots u → u.isLeaf = false → u ∈ nodes) {t : Term}
    (ht : Reached roots t) : 0 < places nodes roots t := by
  obtain ⟨root, hroot, hreach⟩ := ht
  cases hreach with
  | refl => exact Nat.add_pos_right _ (List.count_pos_iff.mpr (List.mem_map_of_mem hroot))
  | @tail parent _ hparent hchild =>
    have hinner : parent.isLeaf = false := by
      cases hleaf : parent.isLeaf with
      | false => rfl
      | true => exact absurd (children_of_isLeaf hleaf ▸ hchild) List.not_mem_nil
    have hslot : t ∈ nodes.flatMap children :=
      List.mem_flatMap.mpr ⟨parent, hnodes parent ⟨root, hroot, hparent⟩ hinner, hchild⟩
    exact Nat.add_pos_left (List.count_pos_iff.mpr (List.mem_map_of_mem hslot)) _

/-- The order of the terms does not matter for what is reached from them. -/
theorem reached_iff_of_perm (h : roots.Perm roots') {t : Term} : Reached roots t ↔ Reached roots' t :=
  exists_congr fun _ => and_congr_left' h.mem_iff

/-- The order of the terms does not matter for whether they are one graph. -/
theorem OneGraph.of_perm (graph : OneGraph roots) (h : roots.Perm roots') : OneGraph roots' where
  known t ht := graph.known t ((reached_iff_of_perm h).mpr ht)
  same t u ht hu := graph.same t u ((reached_iff_of_perm h).mpr ht) ((reached_iff_of_perm h).mpr hu)

end Term

namespace SharingMetrics

open Term

variable {roots roots' nodes : List Term}

/-- Terms of one graph have the figures of the numbers of places that hold its inner nodes, however these
are listed. -/
theorem exists_countAll_of_graph (graph : OneGraph roots) (hnodup : nodes.Nodup)
    (hnodes : ∀ t, t ∈ nodes ↔ Reached roots t ∧ t.isLeaf = false) :
    ∃ tally, countAll [] roots = .ok tally ∧
      ofTally tally = ofPlaces (nodes.map (places nodes roots)) := by
  obtain ⟨before, tally, hbefore, htally, -, haccounts, -⟩ := countAll_accounts [] roots graph
  cases hbefore
  refine ⟨tally, htally, ?_⟩
  have hperm : (innerNodes roots).Perm nodes :=
    (List.perm_ext_iff_of_nodup (nodup_innerNodes roots) hnodup).mpr fun t =>
      graph.mem_innerNodes_iff.trans (hnodes t).symm
  let held (id : NodeId) : Nat := slots (innerNodes roots) id + (roots.map Term.id).count id
  have hcounts : tally.map (·.2 + 1) = tally.keys.map held := by
    rw [Tally.keys, List.map_map]
    exact List.map_congr_left fun entry hentry => haccounts.counts entry.1 entry.2 hentry
  rw [ofTally_eq_ofPlaces, hcounts, haccounts.order, List.map_map]
  refine ofPlaces_eq_of_perm ((hperm.map _).trans (.of_eq ?_))
  exact List.map_congr_left fun t _ => places_eq_of_perm hperm (.refl roots) t

/-- The order in which terms of one graph are counted does not matter. -/
theorem ofTally_countAll_of_perm (graph : OneGraph roots) (h : roots.Perm roots') :
    ∃ tally tally', countAll [] roots = .ok tally ∧ countAll [] roots' = .ok tally' ∧
      ofTally tally = ofTally tally' := by
  obtain ⟨tally, htally, hfigures⟩ :=
    exists_countAll_of_graph graph (nodup_innerNodes roots) fun t => graph.mem_innerNodes_iff
  obtain ⟨tally', htally', hfigures'⟩ :=
    exists_countAll_of_graph (graph.of_perm h) (nodup_innerNodes roots) fun t =>
      graph.mem_innerNodes_iff.trans (and_congr_left' (reached_iff_of_perm h))
  refine ⟨tally, tally', htally, htally', ?_⟩
  rw [hfigures, hfigures', List.map_congr_left fun t _ => places_eq_of_perm (.refl _) h t]

end SharingMetrics

namespace Declaration

/-- Declarations that stand in another order, and families among them whose constructors do. -/
inductive Rearranged : List Declaration → List Declaration → Prop
  | perm {ds ds' : List Declaration} (h : ds.Perm ds') : Rearranged ds ds'
  | within {before after constructors constructors' : List Declaration} {name : Name} {type : Term}
      (h : Rearranged constructors constructors') :
      Rearranged (before ++ .mk name type (.family constructors) :: after)
        (before ++ .mk name type (.family constructors') :: after)
  | trans {ds ds' ds'' : List Declaration} (h : Rearranged ds ds') (h' : Rearranged ds' ds'') :
      Rearranged ds ds''

/-- The terms of several declarations are those of each, one after another. -/
theorem termsOfAll_eq_flatMap (ds : List Declaration) : termsOfAll ds = ds.flatMap terms := by
  induction ds with
  | nil => rfl
  | cons d rest ih => rw [termsOfAll, ih, List.flatMap_cons]

/-- Rearranged declarations have the same terms in another order. -/
theorem Rearranged.perm_terms {ds ds' : List Declaration} (h : Rearranged ds ds') :
    (ds.flatMap terms).Perm (ds'.flatMap terms) := by
  induction h with
  | perm h => exact h.flatMap_right terms
  | @within before after constructors constructors' name type _ ih =>
    simp only [List.flatMap_append, List.flatMap_cons, terms, payloadTerms, termsOfAll_eq_flatMap]
    exact ((ih.cons type).append_right _).append_left _
  | trans _ _ ih ih' => exact ih.trans ih'

end Declaration

/-- If the terms of declarations are one graph, their figures do not change when they are rearranged. -/
theorem SharingMetrics.ofDeclarations_of_rearranged {ds ds' : List Declaration}
    (graph : Term.OneGraph (ds.flatMap Declaration.terms)) (h : Declaration.Rearranged ds ds') :
    ofDeclarations ds' = ofDeclarations ds := by
  obtain ⟨tally, tally', htally, htally', hsame⟩ := ofTally_countAll_of_perm graph h.perm_terms
  rw [ofDeclarations, ofDeclarations, htally, htally']
  exact congrArg Except.ok hsame.symm

end TermText
