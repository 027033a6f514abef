import Mathlib
import RadixPool.Proofs.KeyMap
import RadixPool.Proofs.Tree.Map
import RadixPool.Sharing.Counts

/-!
What the node counts count.

A tally passes over a node that it has met before, with all below it. While an inner node is
visited it is met although its children are not yet; so what is said of a visit is that the nodes
which it newly meets have their children met in the end. At the end of a whole count this is true
of all nodes that were met.

* `Vec.kindIds`: the identities of the leaves, or of the inner nodes, of some vectors.
* `NodeCounts.Tally.Visits`: what a visit of some nodes does to a tally; `Tally.visits_node` for a
  tree, `Tally.visits_foldl` for a family of vectors.
* `nodeCounts_eq`: the counts are the numbers of the different inner nodes and leaves.
-/

namespace RadixPool

variable {α : Type} {H : Heap α}

/-- Whether an identity is that of a leaf. -/
def Heap.leafAt (H : Heap α) (i : NodeId) : Bool := (H i).any Node.isLeaf

lemma Heap.leafAt_of_eq_some {n : Node α} (hn : H n.id = some n) : H.leafAt n.id = n.isLeaf := by
  rw [leafAt, hn, Option.any_some]

/-! ### The nodes of a family -/

namespace Vec

variable {vs : List (Vec α)} {i : NodeId}

/-- The identities of the leaves of some vectors, or those of their inner nodes. -/
def kindIds (leaf : Bool) (vs : List (Vec α)) : Finset NodeId :=
  (((vs.flatMap nodes).filter fun n => n.isLeaf == leaf).map Node.id).toFinset

lemma mem_kindIds {leaf : Bool} :
    i ∈ kindIds leaf vs ↔ ∃ v ∈ vs, ∃ n ∈ v.nodes, n.isLeaf = leaf ∧ n.id = i := by
  simp only [kindIds, List.mem_toFinset, List.mem_map, List.mem_filter, List.mem_flatMap,
    beq_iff_eq]
  constructor
  · rintro ⟨n, ⟨⟨v, hv, hn⟩, hkind⟩, hid⟩
    exact ⟨v, hv, n, hn, hkind, hid⟩
  · rintro ⟨v, hv, n, hn, hkind, hid⟩
    exact ⟨n, ⟨⟨v, hv, hn⟩, hkind⟩, hid⟩

lemma kindIds_eq_filter (hvs : ∀ v ∈ vs, v.Known H) (leaf : Bool) :
    kindIds leaf vs = {i ∈ ids vs | H.leafAt i = leaf} := by
  ext i
  rw [mem_kindIds, Finset.mem_filter, mem_ids]
  constructor
  · rintro ⟨v, hv, n, hn, hkind, rfl⟩
    exact ⟨⟨v, hv, n, hn, rfl⟩, (Heap.leafAt_of_eq_some (hvs v hv n hn)).trans hkind⟩
  · rintro ⟨⟨v, hv, n, hn, rfl⟩, hkind⟩
    exact ⟨v, hv, n, hn, (Heap.leafAt_of_eq_some (hvs v hv n hn)).symm.trans hkind, rfl⟩

lemma ids_append (vs us : List (Vec α)) : ids (vs ++ us) = ids vs ∪ ids us := by
  rw [ids, List.flatMap_append, List.map_append, List.toFinset_append, ids, ids]

lemma kindIds_append (leaf : Bool) (vs us : List (Vec α)) :
    kindIds leaf (vs ++ us) = kindIds leaf vs ∪ kindIds leaf us := by
  rw [kindIds, List.flatMap_append, List.filter_append, List.map_append, List.toFinset_append,
    kindIds, kindIds]

/-- Together two families have the nodes of the one and those that only the other has. -/
lemma card_kindIds_append (leaf : Bool) (vs us : List (Vec α)) :
    (kindIds leaf (vs ++ us)).card =
      (kindIds leaf vs).card + (kindIds leaf us \ kindIds leaf vs).card := by
  rw [kindIds_append, ← Finset.union_sdiff_self_eq_union,
    Finset.card_union_of_disjoint Finset.disjoint_sdiff]

/-- A node that another family has not is none of its nodes of either kind. -/
lemma kindIds_sdiff {us : List (Vec α)} (hvs : ∀ v ∈ vs, v.Known H) (hus : ∀ u ∈ us, u.Known H)
    (leaf : Bool) : kindIds leaf us \ kindIds leaf vs = kindIds leaf us \ ids vs := by
  rw [kindIds_eq_filter hvs, kindIds_eq_filter hus]
  ext i
  simp only [Finset.mem_sdiff, Finset.mem_filter]
  tauto

/-- Every node is of one kind. -/
lemma card_kindIds (hvs : ∀ v ∈ vs, v.Known H) :
    (kindIds false vs).card + (kindIds true vs).card = (ids vs).card := by
  rw [kindIds_eq_filter hvs, kindIds_eq_filter hvs, add_comm,
    ← Finset.card_filter_add_card_filter_not (s := ids vs) fun i => H.leafAt i = true]
  simp only [Bool.not_eq_true]

end Vec

/-! ### Tallies -/

namespace NodeCounts.Tally

variable {t t' t'' : Tally} {ns ms : List (Node α)} {i : NodeId}

/-- The identities of the nodes met so far. -/
def ids (t : Tally) : Finset NodeId := t.met.keys.toFinset

lemma mem_ids : i ∈ t.ids ↔ t.met.contains i = true := by
  rw [ids, List.mem_toFinset, KeyMap.mem_keys_iff, KeyMap.contains_iff]

lemma ids_insert (t : Tally) (i : NodeId) (counts : NodeCounts) :
    (Tally.mk (t.met.insert i ()) counts).ids = insert i t.ids := by
  ext j
  rw [Finset.mem_insert, mem_ids, mem_ids, KeyMap.contains, KeyMap.contains, KeyMap.get?_insert]
  split
  · next heq => simp [heq]
  · next hne => simp [hne]

/-- The counts of a tally are those of the nodes that it has met. -/
structure Sound (H : Heap α) (t : Tally) : Prop where
  inner : t.counts.inner = {i ∈ t.ids | H.leafAt i = false}.card
  leaf : t.counts.leaf = {i ∈ t.ids | H.leafAt i = true}.card

/-- A tally after some trees were visited: they are met, the nodes that are newly met lie in them,
and the children of these are met as well. -/
structure Visits (H : Heap α) (ns : List (Node α)) (t t' : Tally) : Prop where
  sub : t.ids ⊆ t'.ids
  met : ∀ n ∈ ns, n.id ∈ t'.ids
  only : ∀ i ∈ t'.ids, i ∉ t.ids → ∃ n ∈ ns, ∃ m ∈ n.nodes, m.id = i
  closed : ∀ {i cs sizes}, (Node.inner i cs sizes).Known H → i ∈ t'.ids → i ∉ t.ids →
    ∀ c ∈ cs, c.id ∈ t'.ids
  sound : t.Sound H → t'.Sound H

lemma Visits.nil (t : Tally) : Visits H [] t t where
  sub := Finset.Subset.refl _
  met := fun _ hn => nomatch hn
  only := fun _ hi hnot => absurd hi hnot
  closed := fun _ hi hnot => absurd hi hnot
  sound := id

lemma Visits.append (h : Visits H ns t t') (h' : Visits H ms t' t'') :
    Visits H (ns ++ ms) t t'' where
  sub := h.sub.trans h'.sub
  met := fun n hn => (List.mem_append.mp hn).elim (fun hn => h'.sub (h.met n hn)) (h'.met n)
  only := fun i hi hnot => by
    by_cases hi' : i ∈ t'.ids
    · obtain ⟨n, hn, hm⟩ := h.only i hi' hnot
      exact ⟨n, List.mem_append_left ms hn, hm⟩
    · obtain ⟨n, hn, hm⟩ := h'.only i hi hi'
      exact ⟨n, List.mem_append_right ns hn, hm⟩
  closed := fun {i} _ _ hk hi hnot c hc => by
    by_cases hi' : i ∈ t'.ids
    · exact h'.sub (h.closed hk hi' hnot c hc)
    · exact h'.closed hk hi hi' c hc
  sound := fun hsound => h'.sound (h.sound hsound)

/-- A node that was met before is passed over. -/
lemma Visits.of_met {n : Node α} (hn : n.id ∈ t.ids) : Visits H [n] t t where
  sub := Finset.Subset.refl _
  met := fun _ hm => List.mem_singleton.mp hm ▸ hn
  only := fun _ hi hnot => absurd hi hnot
  closed := fun _ hi hnot => absurd hi hnot
  sound := id

/-- A new leaf is counted. -/
lemma Sound.addLeaf (ht : t.Sound H) {l : Leaf α} (hl : H l.id = some (.leaf l))
    (hnew : l.id ∉ t.ids) :
    (Tally.mk (t.met.insert l.id ()) ⟨t.counts.inner, t.counts.leaf + 1⟩).Sound H := by
  have hkind : H.leafAt l.id = true := Heap.leafAt_of_eq_some (n := .leaf l) hl
  constructor
  · rw [ids_insert, Finset.filter_insert, if_neg (by simp [hkind]), ht.inner]
  · rw [ids_insert, Finset.filter_insert, if_pos hkind,
      Finset.card_insert_of_notMem fun hmem => hnew (Finset.mem_of_mem_filter _ hmem), ht.leaf]

/-- A new inner node is counted. -/
lemma Sound.addInner (ht : t.Sound H) {cs : List (Node α)} {sizes : Option (List Nat)}
    (hi : H i = some (.inner i cs sizes)) (hnew : i ∉ t.ids) : (t.addInner i).Sound H := by
  have hkind : H.leafAt i = false := Heap.leafAt_of_eq_some (n := .inner i cs sizes) hi
  rw [Tally.addInner]
  constructor
  · rw [ids_insert, Finset.filter_insert, if_pos hkind,
      Finset.card_insert_of_notMem fun hmem => hnew (Finset.mem_of_mem_filter _ hmem), ht.inner]
  · rw [ids_insert, Finset.filter_insert, if_neg (by simp [hkind]), ht.leaf]

lemma visits_leaf {l : Leaf α} (hl : (Node.leaf l).Known H) (t : Tally) :
    Visits H [.leaf l] t (t.visitLeaf l) := by
  rw [visitLeaf]
  split
  · next hmet => exact .of_met (n := .leaf l) (mem_ids.mpr hmet)
  · next hnew =>
    have hnew : l.id ∉ t.ids := fun hmem => hnew (mem_ids.mp hmem)
    -- the leaf is all that is new
    have hold : ∀ {i}, i ∈ insert l.id t.ids → i ∉ t.ids → i = l.id :=
      fun hi hnot => (Finset.mem_insert.mp hi).resolve_right hnot
    refine ⟨?_, fun n hn => ?_, fun i hi hnot => ?_, fun {i cs sizes} hk hi hnot => ?_,
      fun hsound => hsound.addLeaf (Node.known_leaf_iff.mp hl) hnew⟩
    · rw [ids_insert]
      exact Finset.subset_insert _ _
    · rw [ids_insert, List.mem_singleton.mp hn]
      exact Finset.mem_insert_self _ _
    · rw [ids_insert] at hi
      exact ⟨_, List.mem_singleton_self _, _, Node.mem_nodes_self _, (hold hi hnot).symm⟩
    · rw [ids_insert] at hi
      cases hk.eq_of_id hl (hold hi hnot)

lemma visitAll_cons (t : Tally) (c : Node α) (cs : List (Node α)) :
    t.visitAll (c :: cs) = (t.visit c).visitAll cs := by
  rw [visitAll]

/-- Trees are visited one after the other. -/
lemma visits_all {cs : List (Node α)}
    (hvisit : ∀ c ∈ cs, ∀ t : Tally, Visits H [c] t (t.visit c)) (t : Tally) :
    Visits H cs t (t.visitAll cs) := by
  induction cs generalizing t with
  | nil => exact .nil t
  | cons c cs ih =>
      rw [visitAll_cons]
      exact (hvisit c List.mem_cons_self t).append
        (ih (fun d hd => hvisit d (List.mem_cons_of_mem c hd)) _)

/-- A tree is visited. -/
theorem visits_node {n : Node α} (hn : n.Known H) (t : Tally) : Visits H [n] t (t.visit n) := by
  induction n using Node.induct generalizing t with
  | leaf l => exact visits_leaf hn t
  | inner i cs sizes ih =>
      rw [visit]
      split
      · next hmet => exact .of_met (n := .inner i cs sizes) (mem_ids.mpr hmet)
      · next hnew =>
        have hnew : i ∉ t.ids := fun hmem => hnew (mem_ids.mp hmem)
        obtain ⟨hi, hcs⟩ := Node.known_inner_iff.mp hn
        have hids : (t.addInner i).ids = insert i t.ids := ids_insert t i _
        have hall := visits_all (fun c hc => ih c hc (hcs c hc)) (t.addInner i)
        -- the node itself is new, and its children are met by the visits below it
        refine ⟨?_, fun m hm => ?_, fun j hj hnot => ?_, fun {j cs' sizes'} hk hj hnot => ?_,
          fun hsound => hall.sound (hsound.addInner hi hnew)⟩
        · exact (hids ▸ Finset.subset_insert i t.ids).trans hall.sub
        · rw [List.mem_singleton.mp hm]
          exact hall.sub (hids ▸ Finset.mem_insert_self i t.ids)
        · refine ⟨_, List.mem_singleton_self _, ?_⟩
          by_cases hji : j = i
          · exact ⟨_, Node.mem_nodes_self _, hji.symm⟩
          · obtain ⟨c, hc, m, hm, hid⟩ :=
              hall.only j hj fun hmem => (Finset.mem_insert.mp (hids ▸ hmem)).elim hji hnot
            exact ⟨m, Node.mem_nodes_inner.mpr (.inr ⟨c, hc, hm⟩), hid⟩
        · by_cases hji : j = i
          · cases hk.eq_of_id hn hji
            exact hall.met
          · exact hall.closed hk hj fun hmem => (Finset.mem_insert.mp (hids ▸ hmem)).elim hji hnot

/-- The vectors of a family are visited one after the other. -/
theorem visits_foldl {vs : List (Vec α)} (hvs : ∀ v ∈ vs, v.Known H) (t : Tally) :
    Visits H (vs.flatMap Vec.tops) t (vs.foldl visitVec t) := by
  induction vs generalizing t with
  | nil => exact .nil t
  | cons v vs ih =>
      obtain ⟨hv, hvs⟩ := List.forall_mem_cons.mp hvs
      have hroot : v.root.node.Known H := hv.of_mem_tops (by simp [Vec.tops])
      have htail : (Node.leaf v.tail).Known H := hv.of_mem_tops (by simp [Vec.tops])
      exact ((visits_node hroot t).append (visits_leaf htail _)).append (ih hvs _)

end NodeCounts.Tally

/-- The nodes of a family are counted by kind, each of them once. -/
theorem nodeCounts_eq {vs : List (Vec α)} (hvs : ∀ v ∈ vs, v.Known H) :
    nodeCounts vs = ⟨(Vec.kindIds false vs).card, (Vec.kindIds true vs).card⟩ := by
  obtain ⟨-, hmet, honly, hclosed, hsound⟩ :=
    NodeCounts.Tally.visits_foldl hvs ⟨∅, ⟨0, 0⟩⟩
  have hstart : (⟨∅, ⟨0, 0⟩⟩ : NodeCounts.Tally).ids = ∅ := rfl
  have hids : (vs.foldl NodeCounts.Tally.visitVec ⟨∅, ⟨0, 0⟩⟩).ids = Vec.ids vs := by
    ext i
    rw [Vec.mem_ids]
    constructor
    · intro hi
      obtain ⟨n, hn, m, hm, hid⟩ := honly i hi (hstart ▸ Finset.notMem_empty i)
      obtain ⟨v, hv, hn⟩ := List.mem_flatMap.mp hn
      exact ⟨v, hv, m, Vec.mem_nodes_iff.mpr ⟨n, hn, hm⟩, hid⟩
    · rintro ⟨v, hv, m, hm, rfl⟩
      obtain ⟨n, hn, hm⟩ := Vec.mem_nodes_iff.mp hm
      exact Node.Known.id_mem_of_closed
        (fun hk hi => hclosed hk hi (hstart ▸ Finset.notMem_empty _))
        ((hvs v hv).of_mem_tops hn) (hmet n (List.mem_flatMap.mpr ⟨v, hv, hn⟩)) hm
  obtain ⟨hinner, hleaf⟩ := hsound ⟨rfl, rfl⟩
  rw [Vec.kindIds_eq_filter hvs, Vec.kindIds_eq_filter hvs, ← hids, ← hinner, ← hleaf]
  rfl

end RadixPool
