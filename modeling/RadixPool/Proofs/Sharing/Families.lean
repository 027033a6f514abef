import Mathlib
import RadixPool.Proofs.Sharing.Counts
import RadixPool.Proofs.Vec.Sound

/-!
Counting the nodes of several families.

The counts of a family are the sizes of two sets of identities, and the sets of two families
together are unions. So the counts depend on which vectors there are and not on their order, and
two families have together as many nodes as both of them apart only if they have none in common.

* `Vec.kindIds_mono`, `Vec.disjoint_ids_iff`: the identities of larger families, and of families
  that share no node.
* `NodeCounts.add_inner`, `NodeCounts.le_iff`: counts are added and compared kind by kind.
* `nodeCounts_append_eq_add_iff`: when two families have together as many nodes as apart.
* `nodeCounts_of_known`: what the counts say and how they follow the family.
-/

namespace RadixPool

variable {α : Type} {H : Heap α}

/-! ### Identities of several families -/

namespace Vec

variable {vs us : List (Vec α)}

lemma kindIds_mono (leaf : Bool) (hsub : vs ⊆ us) : kindIds leaf vs ⊆ kindIds leaf us := by
  intro i hi
  obtain ⟨v, hv, n, hn, hkind, hid⟩ := mem_kindIds.mp hi
  exact mem_kindIds.mpr ⟨v, hsub hv, n, hn, hkind, hid⟩

/-- Families share a node exactly if they share a leaf or an inner node. -/
lemma disjoint_ids_iff (hvs : ∀ v ∈ vs, v.Known H) (hus : ∀ u ∈ us, u.Known H) :
    Disjoint (ids vs) (ids us) ↔ ∀ leaf, Disjoint (kindIds leaf vs) (kindIds leaf us) := by
  simp only [kindIds_eq_filter hvs, kindIds_eq_filter hus]
  constructor
  · exact fun hdis leaf => hdis.mono (Finset.filter_subset _ _) (Finset.filter_subset _ _)
  · intro hdis
    refine Finset.disjoint_left.mpr fun i hi hi' => ?_
    exact Finset.disjoint_left.mp (hdis (H.leafAt i)) (Finset.mem_filter.mpr ⟨hi, rfl⟩)
      (Finset.mem_filter.mpr ⟨hi', rfl⟩)

end Vec

/-! ### Counts as numbers -/

namespace NodeCounts

/-- Counts are added kind by kind. -/
instance : Add NodeCounts := ⟨fun a b => ⟨a.inner + b.inner, a.leaf + b.leaf⟩⟩

/-- Counts are compared kind by kind. -/
instance : LE NodeCounts := ⟨fun a b => a.inner ≤ b.inner ∧ a.leaf ≤ b.leaf⟩

variable {a b : NodeCounts}

@[simp] lemma add_inner (a b : NodeCounts) : (a + b).inner = a.inner + b.inner := rfl

@[simp] lemma add_leaf (a b : NodeCounts) : (a + b).leaf = a.leaf + b.leaf := rfl

lemma le_iff : a ≤ b ↔ a.inner ≤ b.inner ∧ a.leaf ≤ b.leaf := Iff.rfl

lemma eq_iff : a = b ↔ a.inner = b.inner ∧ a.leaf = b.leaf := by
  cases a
  cases b
  simp

/-- Counts that are at most others have the total of the others only if they are the same. -/
lemma total_eq_iff_of_le (hle : a ≤ b) : a.total = b.total ↔ a = b := by
  obtain ⟨hinner, hleaf⟩ := le_iff.mp hle
  rw [eq_iff, total, total]
  omega

end NodeCounts

/-! ### Counts of several families -/

section Families

variable {vs us : List (Vec α)} (hvs : ∀ v ∈ vs, v.Known H) (hus : ∀ u ∈ us, u.Known H)

include hvs

/-- In all there are as many nodes as identities. -/
lemma total_nodeCounts : (nodeCounts vs).total = (Vec.ids vs).card := by
  rw [nodeCounts_eq hvs, NodeCounts.total, Vec.card_kindIds hvs]

include hus

lemma nodeCounts_le (hsub : vs ⊆ us) : nodeCounts vs ≤ nodeCounts us := by
  rw [nodeCounts_eq hvs, nodeCounts_eq hus]
  exact ⟨Finset.card_le_card (Vec.kindIds_mono false hsub),
    Finset.card_le_card (Vec.kindIds_mono true hsub)⟩

/-- Which vectors there are determines the counts. -/
lemma nodeCounts_congr (hmem : ∀ v, v ∈ vs ↔ v ∈ us) : nodeCounts vs = nodeCounts us := by
  have hkind : ∀ leaf, Vec.kindIds leaf vs = Vec.kindIds leaf us := fun leaf =>
    (Vec.kindIds_mono leaf fun _ hv => (hmem _).mp hv).antisymm
      (Vec.kindIds_mono leaf fun _ hu => (hmem _).mpr hu)
  rw [nodeCounts_eq hvs, nodeCounts_eq hus, hkind, hkind]

/-- The counts of two families together are the sizes of unions. -/
lemma nodeCounts_append : nodeCounts (vs ++ us) =
    ⟨(Vec.kindIds false vs ∪ Vec.kindIds false us).card,
      (Vec.kindIds true vs ∪ Vec.kindIds true us).card⟩ := by
  rw [nodeCounts_eq (List.forall_mem_append.mpr ⟨hvs, hus⟩), Vec.kindIds_append, Vec.kindIds_append]

lemma nodeCounts_append_le_add : nodeCounts (vs ++ us) ≤ nodeCounts vs + nodeCounts us := by
  rw [nodeCounts_append hvs hus, nodeCounts_eq hvs, nodeCounts_eq hus, NodeCounts.le_iff,
    NodeCounts.add_inner, NodeCounts.add_leaf]
  dsimp only
  exact ⟨Finset.card_union_le _ _, Finset.card_union_le _ _⟩

/-- Two families have together as many nodes as apart exactly if they share none. -/
lemma nodeCounts_append_eq_add_iff :
    nodeCounts (vs ++ us) = nodeCounts vs + nodeCounts us ↔ Disjoint (Vec.ids vs) (Vec.ids us) := by
  rw [NodeCounts.eq_iff, nodeCounts_append hvs hus, nodeCounts_eq hvs, nodeCounts_eq hus,
    NodeCounts.add_inner, NodeCounts.add_leaf, Vec.disjoint_ids_iff hvs hus, Bool.forall_bool]
  dsimp only
  exact and_congr Finset.card_union_eq_card_add_card Finset.card_union_eq_card_add_card

end Families

/-- The counts of a family are the numbers of different inner nodes and leaves that are reached
from its roots and tails. So order and repetition do not matter, more vectors never have fewer
nodes, and two families have together at most the nodes of both, and as many only if they share
none. -/
theorem nodeCounts_of_known {vs us : List (Vec α)} (hvs : ∀ v ∈ vs, v.Known H)
    (hus : ∀ u ∈ us, u.Known H) :
    nodeCounts vs = ⟨(Vec.kindIds false vs).card, (Vec.kindIds true vs).card⟩ ∧
      (nodeCounts vs).total = (Vec.ids vs).card ∧
      ((∀ v, v ∈ vs ↔ v ∈ us) → nodeCounts vs = nodeCounts us) ∧
      (vs ⊆ us → nodeCounts vs ≤ nodeCounts us) ∧
      nodeCounts (vs ++ us) ≤ nodeCounts vs + nodeCounts us ∧
      (nodeCounts (vs ++ us) = nodeCounts vs + nodeCounts us ↔
        Disjoint (Vec.ids vs) (Vec.ids us)) ∧
      ((nodeCounts (vs ++ us)).total = (nodeCounts vs).total + (nodeCounts us).total ↔
        Disjoint (Vec.ids vs) (Vec.ids us)) := by
  have hle := nodeCounts_append_le_add hvs hus
  have heq := nodeCounts_append_eq_add_iff hvs hus
  have htotal : (nodeCounts vs).total + (nodeCounts us).total =
      (nodeCounts vs + nodeCounts us).total := by
    simp only [NodeCounts.total, NodeCounts.add_inner, NodeCounts.add_leaf]
    omega
  refine ⟨nodeCounts_eq hvs, total_nodeCounts hvs, nodeCounts_congr hvs hus,
    nodeCounts_le hvs hus, hle, heq, ?_⟩
  rw [htotal, NodeCounts.total_eq_iff_of_le hle, heq]

/-- The full tail of one vector is a leaf in the tree of another. -/
theorem nodeCounts_of_known_sharedTail :
    ∃ (u v : Vec Bool) (H : Heap Bool), u.Known H ∧ v.Known H ∧
      v.root.children.map Node.id = [u.tail.id] ∧
      nodeCounts [u] = ⟨1, 1⟩ ∧ nodeCounts [v] = ⟨1, 2⟩ ∧
      nodeCounts [u, v] = ⟨2, 2⟩ ∧ nodeCounts [u, v] = nodeCounts [v, u, v] ∧
      nodeCounts [u] ≤ nodeCounts [u, v] ∧ ¬ Disjoint (Vec.ids [u]) (Vec.ids [v]) := by
  let u : Vec Bool := (Vec.ofList ⟨1, 1⟩ [true, false] 0).1
  let v : Vec Bool := (u.push ⟨1, 1⟩ true 4).1
  let H : Heap Bool := fun i =>
    [(0, .inner 0 [] none), (3, .leaf ⟨3, [true, false]⟩),
      (4, .inner 4 [.leaf ⟨3, [true, false]⟩] none), (5, .leaf ⟨5, [true]⟩)].lookup i
  have hleaf : (Node.leaf ⟨3, [true, false]⟩ : Node Bool).Known H := Node.known_leaf_iff.mpr rfl
  have hu : u.Known H :=
    Vec.known_iff.mpr ⟨Node.known_inner_iff.mpr ⟨rfl, fun _ hc => nomatch hc⟩, hleaf⟩
  have hv : v.Known H := Vec.known_iff.mpr
    ⟨Node.known_inner_iff.mpr ⟨rfl, fun c hc => List.mem_singleton.mp hc ▸ hleaf⟩,
      Node.known_leaf_iff.mpr rfl⟩
  have hu' : ∀ x ∈ [u], x.Known H := by simpa using hu
  have hv' : ∀ x ∈ [v], x.Known H := by simpa using hv
  have huv : ∀ x ∈ [u, v], x.Known H := by simp [hu, hv]
  have hvuv : ∀ x ∈ [v, u, v], x.Known H := by simp [hu, hv]
  obtain ⟨-, -, hsame, -⟩ := nodeCounts_of_known huv hvuv
  obtain ⟨-, -, -, hle, -⟩ := nodeCounts_of_known hu' huv
  obtain ⟨-, -, -, -, -, hadd, -⟩ := nodeCounts_of_known hu' hv'
  exact ⟨u, v, H, hu, hv, rfl, by decide, by decide, by decide, hsame (by simp),
    hle (by simp), fun hdis => absurd (hadd.mpr hdis) (by decide)⟩

end RadixPool
