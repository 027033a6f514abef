import Mathlib
import RadixPool.Proofs.Tree.Append
import RadixPool.Proofs.Tree.Lookup

/-!
The identities of the nodes of trees.

A heap says which node has which identity. Trees that are known to one heap agree on their nodes: an
identity that turns up in two of them, or twice in one, is one node. Whatever makes new nodes draws
their identities from the supply, so a larger heap knows the old trees and the new ones.

* `Node.nodes`, `Vec.nodes`: all nodes of a tree and of a vector, those at several positions listed
  for each of them.
* `Heap`, `Node.Known`, `Vec.Known`: heaps and the trees and vectors that they know.
* `Node.Known.id_mem_of_closed`: a set of identities that holds the children of its nodes holds all
  below them.
* `Heap.Grows`: a heap grown by some new nodes; `Heap.alloc_leaf`, `Heap.alloc_inner` and
  `Heap.alloc_concat` add one.
-/

namespace RadixPool

variable {α : Type} {s : Shape}

/-! ### The nodes of a tree -/

namespace Node

mutual

/-- All nodes of a tree, the root first. -/
def nodes : Node α → List (Node α)
  | .leaf l => [.leaf l]
  | .inner id cs sizes => .inner id cs sizes :: nodesAll cs

/-- All nodes of some trees. -/
def nodesAll : List (Node α) → List (Node α)
  | [] => []
  | c :: cs => nodes c ++ nodesAll cs

end

lemma nodesAll_eq (cs : List (Node α)) : nodesAll cs = cs.flatMap nodes := by
  induction cs with
  | nil => rfl
  | cons c cs ih => rw [nodesAll, ih, List.flatMap_cons]

lemma mem_nodes_self (n : Node α) : n ∈ n.nodes := by
  cases n <;> simp [nodes]

lemma mem_nodes_inner {id : NodeId} {cs : List (Node α)} {sizes : Option (List Nat)} {m : Node α} :
    m ∈ (Node.inner id cs sizes).nodes ↔ m = .inner id cs sizes ∨ ∃ c ∈ cs, m ∈ c.nodes := by
  rw [nodes, List.mem_cons, nodesAll_eq, List.mem_flatMap]

/-- The elements of the nodes of a tree are elements of the tree. -/
lemma elements_subset {n m : Node α} (hm : m ∈ n.nodes) : m.elements ⊆ n.elements := by
  induction n using Node.induct with
  | leaf l =>
      rw [nodes, List.mem_singleton] at hm
      rw [hm]
      exact List.Subset.refl _
  | inner id cs sizes ih =>
      rcases mem_nodes_inner.mp hm with rfl | ⟨c, hc, hmc⟩
      · exact List.Subset.refl _
      · intro x hx
        rw [elements, elementsAll_eq, List.mem_flatMap]
        exact ⟨c, hc, ih c hc hmc hx⟩

/-- The nodes below a sound node are sound, at most as high, and have at most as many elements. -/
lemma Sound.of_mem_nodes {h : Nat} {n m : Node α} (hn : Sound s h n) (hm : m ∈ n.nodes) :
    ∃ h' ≤ h, Sound s h' m ∧ m.count ≤ n.count := by
  induction hn with
  | @leaf l fits =>
      rw [nodes, List.mem_singleton] at hm
      exact ⟨0, le_rfl, hm ▸ .leaf fits, hm ▸ le_rfl⟩
  | @inner h id cs sizes width flat below tabled ih =>
      rcases mem_nodes_inner.mp hm with rfl | ⟨c, hc, hmc⟩
      · exact ⟨h + 1, le_rfl, .inner width flat below tabled, le_rfl⟩
      · obtain ⟨h', hle, hsound, hcount⟩ := ih c hc hmc
        refine ⟨h', hle.trans (Nat.le_succ h), hsound, hcount.trans ?_⟩
        rw [count_inner]
        exact count_le_of_mem hc

end Node

/-- All nodes of a vector: those of its tree and its tail. -/
def Vec.nodes (v : Vec α) : List (Node α) := v.root.node.nodes ++ [.leaf v.tail]

/-- The root and the tail of a vector. -/
def Vec.tops (v : Vec α) : List (Node α) := [v.root.node, .leaf v.tail]

lemma Vec.mem_nodes_iff {v : Vec α} {m : Node α} : m ∈ v.nodes ↔ ∃ n ∈ v.tops, m ∈ n.nodes := by
  simp [nodes, tops, Node.nodes]

/-- The elements of the nodes of a vector are elements of the vector. -/
lemma Vec.elements_subset {v : Vec α} {m : Node α} (hm : m ∈ v.nodes) : m.elements ⊆ v.toList := by
  intro x hx
  rw [Vec.nodes, List.mem_append, List.mem_singleton] at hm
  rw [Vec.toList, List.mem_append]
  rcases hm with hm | rfl
  · exact .inl (Node.elements_subset hm hx)
  · exact .inr hx

/-! ### Heaps -/

/-- The node of each identity in use. -/
abbrev Heap (α : Type) := NodeId → Option (Node α)

/-- All nodes of the tree have their identities in the heap. -/
def Node.Known (H : Heap α) (n : Node α) : Prop := ∀ m ∈ n.nodes, H m.id = some m

/-- All nodes of the vector have their identities in the heap. -/
def Vec.Known (H : Heap α) (v : Vec α) : Prop := ∀ m ∈ v.nodes, H m.id = some m

namespace Heap

/-- No identity from `next` on is in use. -/
def FreeFrom (H : Heap α) (next : NodeId) : Prop := ∀ i, next ≤ i → H i = none

/-- A heap that was free from `next` on has grown to one that is free from `next'` on. -/
structure Grows (H : Heap α) (next : NodeId) (H' : Heap α) (next' : NodeId) : Prop where
  keep : ∀ {i n}, H i = some n → H' i = some n
  le : next ≤ next'
  free : H'.FreeFrom next'

variable {H H' H'' : Heap α} {next next' next'' : NodeId}

lemma Grows.refl (hfree : H.FreeFrom next) : H.Grows next H next := ⟨id, le_rfl, hfree⟩

lemma Grows.trans (h : H.Grows next H' next') (h' : H'.Grows next' H'' next'') :
    H.Grows next H'' next'' :=
  ⟨fun hi => h'.keep (h.keep hi), h.le.trans h'.le, h'.free⟩

lemma Grows.known (h : H.Grows next H' next') {n : Node α} (hn : n.Known H) : n.Known H' :=
  fun m hm => h.keep (hn m hm)

lemma Grows.vecKnown (h : H.Grows next H' next') {v : Vec α} (hv : v.Known H) : v.Known H' :=
  fun m hm => h.keep (hv m hm)

lemma lt_of_eq_some (hfree : H.FreeFrom next) {i : NodeId} {n : Node α} (hi : H i = some n) :
    i < next := by
  by_contra hle
  rw [hfree i (Nat.le_of_not_lt hle)] at hi
  cases hi

end Heap

namespace Node

variable {H H' : Heap α} {next next' : NodeId}

lemma known_leaf_iff {l : Leaf α} : (Node.leaf l).Known H ↔ H l.id = some (.leaf l) := by
  simp [Known, nodes]

lemma known_inner_iff {id : NodeId} {cs : List (Node α)} {sizes : Option (List Nat)} :
    (Node.inner id cs sizes).Known H ↔
      H id = some (.inner id cs sizes) ∧ ∀ c ∈ cs, c.Known H := by
  constructor
  · intro hk
    refine ⟨hk _ (mem_nodes_self _), fun c hc m hm => hk m ?_⟩
    exact mem_nodes_inner.mpr (.inr ⟨c, hc, hm⟩)
  · rintro ⟨hid, hcs⟩ m hm
    rcases mem_nodes_inner.mp hm with rfl | ⟨c, hc, hmc⟩
    · exact hid
    · exact hcs c hc m hmc

/-- Known nodes of one identity are one node. -/
lemma Known.eq_of_id {m n : Node α} (hm : m.Known H) (hn : n.Known H) (hid : m.id = n.id) :
    m = n := by
  have h := hm m (mem_nodes_self m)
  rw [hid, hn n (mem_nodes_self n)] at h
  exact (Option.some.inj h).symm

lemma Known.of_mem_nodes {m n : Node α} (hn : n.Known H) (hm : m ∈ n.nodes) : m.Known H := by
  induction n using Node.induct with
  | leaf l =>
      rw [nodes, List.mem_singleton] at hm
      exact hm ▸ hn
  | inner id cs sizes ih =>
      rcases mem_nodes_inner.mp hm with rfl | ⟨c, hc, hmc⟩
      · exact hn
      · exact ih c hc ((known_inner_iff.mp hn).2 c hc) hmc

/-- A set of identities with the children of every known inner node in it has all nodes below the
known nodes in it. -/
lemma Known.id_mem_of_closed {S : Set NodeId}
    (hS : ∀ {i cs sizes}, (Node.inner i cs sizes).Known H → i ∈ S → ∀ c ∈ cs, c.id ∈ S)
    {n m : Node α} (hn : n.Known H) (hid : n.id ∈ S) (hm : m ∈ n.nodes) : m.id ∈ S := by
  induction n using Node.induct with
  | leaf l =>
      rw [nodes, List.mem_singleton] at hm
      exact hm ▸ hid
  | inner i cs sizes ih =>
      rcases mem_nodes_inner.mp hm with rfl | ⟨c, hc, hmc⟩
      · exact hid
      · exact ih c hc ((known_inner_iff.mp hn).2 c hc) (hS hn hid c hc) hmc

end Node

namespace Vec

variable {H : Heap α} {v : Vec α}

lemma Known.of_mem_tops (hv : v.Known H) {n : Node α} (hn : n ∈ v.tops) : n.Known H :=
  fun m hm => hv m (mem_nodes_iff.mpr ⟨n, hn, hm⟩)

/-- The nodes of a known vector are known. -/
lemma Known.of_mem_nodes (hv : v.Known H) {m : Node α} (hm : m ∈ v.nodes) : m.Known H := by
  obtain ⟨n, hn, hmn⟩ := mem_nodes_iff.mp hm
  exact (hv.of_mem_tops hn).of_mem_nodes hmn

end Vec

namespace Heap

variable {H : Heap α} {next : NodeId}

/-- The next identity can be given to any node. -/
lemma grows_update (hfree : H.FreeFrom next) (n : Node α) :
    H.Grows next (Function.update H next (some n)) (next + 1) := by
  refine ⟨?_, Nat.le_succ _, ?_⟩
  · intro i m hi
    rw [Function.update_of_ne (Nat.ne_of_lt (lt_of_eq_some hfree hi)), hi]
  · intro i hi
    rw [Function.update_of_ne (Nat.ne_of_gt hi), hfree i (Nat.le_of_succ_le hi)]

/-- A new leaf takes the next identity. -/
lemma alloc_leaf (hfree : H.FreeFrom next) (items : List α) :
    ∃ H', H.Grows next H' (next + 1) ∧ (Node.leaf ⟨next, items⟩).Known H' :=
  ⟨_, grows_update hfree (.leaf ⟨next, items⟩),
    Node.known_leaf_iff.mpr (Function.update_self _ _ _)⟩

/-- A new inner node over known children takes the next identity. -/
lemma alloc_inner (hfree : H.FreeFrom next) (cs : List (Node α)) (hcs : ∀ c ∈ cs, c.Known H)
    (sizes : Option (List Nat)) :
    ∃ H', H.Grows next H' (next + 1) ∧ (Node.inner next cs sizes).Known H' := by
  have hgrows := grows_update hfree (.inner next cs sizes)
  refine ⟨_, hgrows, Node.known_inner_iff.mpr ⟨Function.update_self _ _ _, fun c hc => ?_⟩⟩
  exact hgrows.known (hcs c hc)

/-- A new inner node over known children and a further one. -/
lemma alloc_concat (hfree : H.FreeFrom next) {cs : List (Node α)} (hcs : ∀ c ∈ cs, c.Known H)
    {c : Node α} (hc : c.Known H) (sizes : Option (List Nat)) :
    ∃ H', H.Grows next H' (next + 1) ∧ (Node.inner next (cs ++ [c]) sizes).Known H' := by
  refine alloc_inner hfree (cs ++ [c]) (fun d hd => ?_) sizes
  rcases List.mem_append.mp hd with hd | hd
  · exact hcs d hd
  · rwa [List.mem_singleton.mp hd]

end Heap

/-! ### New nodes of the operations -/

namespace Node

variable {H : Heap α} {next next' : NodeId}

lemma known_path {leaf : Leaf α} (hfree : H.FreeFrom next) (hleaf : (Node.leaf leaf).Known H)
    (above : Nat) :
    ∃ H', H.Grows next H' (Branch.path leaf above next).2 ∧
      (Branch.path leaf above next).1.node.Known H' := by
  induction above with
  | zero => exact Heap.alloc_inner hfree [.leaf leaf] (by simpa using hleaf) none
  | succ above ih =>
      obtain ⟨H₁, hg₁, hk₁⟩ := ih
      obtain ⟨H₂, hg₂, hk₂⟩ := Heap.alloc_inner hg₁.free
        [(Branch.path leaf above next).1.node] (by simpa using hk₁) none
      exact ⟨H₂, hg₁.trans hg₂, hk₂⟩

/-- A leaf that finds room in a known tree gives a known tree. -/
lemma known_appendLeaf? {leaf : Leaf α} (hfree : H.FreeFrom next)
    (hleaf : (Node.leaf leaf).Known H) {n : Node α} (hn : n.Known H) {shift : Nat} {b : Branch α}
    (happ : appendLeaf? s leaf next n shift = some (b, next')) :
    ∃ H', H.Grows next H' next' ∧ b.node.Known H' := by
  induction n using Node.induct generalizing shift b next' with
  | leaf l => simp [appendLeaf?] at happ
  | inner id cs sizes ih =>
      have hcs := (known_inner_iff.mp hn).2
      rw [appendLeaf?] at happ
      split at happ
      · split at happ
        · simp at happ
        · simp only [Option.some.injEq, Prod.mk.injEq] at happ
          obtain ⟨rfl, rfl⟩ := happ
          exact Heap.alloc_concat hfree hcs hleaf _
      · split at happ
        · next cs' next₁ hlast =>
          simp only [Option.some.injEq, Prod.mk.injEq] at happ
          obtain ⟨rfl, rfl⟩ := happ
          obtain rfl | ⟨init, last, rfl⟩ := cs.eq_nil_or_concat'
          · simp [appendToLast?] at hlast
          rw [appendToLast?_concat, Option.map_eq_some_iff] at hlast
          obtain ⟨⟨b', _⟩, hrec, heq⟩ := hlast
          simp only [Prod.mk.injEq] at heq
          obtain ⟨rfl, rfl⟩ := heq
          obtain ⟨H₁, hg₁, hk₁⟩ := ih last (by simp) (hcs last (by simp)) hrec
          have hinit : ∀ c ∈ init, c.Known H₁ := by
            intro c hc
            exact hg₁.known (hcs c (List.mem_append_left _ hc))
          obtain ⟨H₂, hg₂, hk₂⟩ := Heap.alloc_concat hg₁.free hinit hk₁ _
          exact ⟨H₂, hg₁.trans hg₂, hk₂⟩
        · split at happ
          · simp at happ
          · simp only [Option.some.injEq, Prod.mk.injEq] at happ
            obtain ⟨rfl, rfl⟩ := happ
            obtain ⟨H₁, hg₁, hk₁⟩ := known_path hfree hleaf (s.levelsBelow (shift - s.bits))
            obtain ⟨H₂, hg₂, hk₂⟩ :=
              Heap.alloc_concat hg₁.free (fun c hc => hg₁.known (hcs c hc)) hk₁ _
            exact ⟨H₂, hg₁.trans hg₂, hk₂⟩

/-- Replacing an element of a known tree gives a known tree. -/
lemma known_set? (hfree : H.FreeFrom next) {n n' : Node α} (hn : n.Known H) {x : α}
    {shift idx : Nat} (hset : n.set? s x next shift idx = some (n', next')) :
    ∃ H', H.Grows next H' next' ∧ n'.Known H' := by
  induction n using Node.induct generalizing shift idx n' next' with
  | leaf l =>
      rw [set?] at hset
      split at hset
      · simp only [Option.some.injEq, Prod.mk.injEq] at hset
        obtain ⟨rfl, rfl⟩ := hset
        exact Heap.alloc_leaf hfree _
      · simp at hset
  | inner id cs sizes ih =>
      rw [set?] at hset
      split at hset
      · next slot sub _ =>
        split at hset
        · next cs' next₁ hbelow =>
          simp only [Option.some.injEq, Prod.mk.injEq] at hset
          obtain ⟨rfl, rfl⟩ := hset
          rw [setBelow?_eq, Option.bind_eq_some_iff] at hbelow
          obtain ⟨c, hc, hbelow⟩ := hbelow
          obtain ⟨⟨c', _⟩, hrec, heq⟩ := Option.map_eq_some_iff.mp hbelow
          simp only [Prod.mk.injEq] at heq
          obtain ⟨rfl, rfl⟩ := heq
          have hcs := (known_inner_iff.mp hn).2
          have hmem := List.mem_of_getElem? hc
          obtain ⟨H₁, hg₁, hk₁⟩ := ih c hmem (hcs c hmem) hrec
          obtain ⟨H₂, hg₂, hk₂⟩ := Heap.alloc_inner hg₁.free (cs.set slot c') (fun d hd => by
            rcases List.mem_or_eq_of_mem_set hd with hd | rfl
            · exact hg₁.known (hcs d hd)
            · exact hk₁) sizes
          exact ⟨H₂, hg₁.trans hg₂, hk₂⟩
        · simp at hset
      · simp at hset

end Node

end RadixPool
