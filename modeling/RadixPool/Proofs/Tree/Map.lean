import Mathlib
import RadixPool.Proofs.Tree.Identity

/-!
Copies of trees.

* `Node.map`, `Vec.map`: a copy with other identities and other elements; the shape, the tables and
  the sharing are the same if the identities are sent injectively.
* `Node.elements_map`: the elements of a copy.
* `Vec.ids`: the identities of the nodes of some vectors.
-/

namespace RadixPool

variable {α β : Type}

namespace Node

mutual

/-- A copy of a tree, its identities sent through `f` and its elements through `g`. -/
def map (f : NodeId → NodeId) (g : α → β) : Node α → Node β
  | .leaf l => .leaf ⟨f l.id, l.items.map g⟩
  | .inner id cs sizes => .inner (f id) (mapAll f g cs) sizes

/-- Copies of some trees. -/
def mapAll (f : NodeId → NodeId) (g : α → β) : List (Node α) → List (Node β)
  | [] => []
  | c :: cs => map f g c :: mapAll f g cs

end

variable (f : NodeId → NodeId) (g : α → β)

lemma mapAll_eq (cs : List (Node α)) : mapAll f g cs = cs.map (map f g) := by
  induction cs with
  | nil => rfl
  | cons c cs ih => rw [mapAll, ih, List.map_cons]

@[simp] lemma id_map (n : Node α) : (n.map f g).id = f n.id := by
  cases n <;> rfl

/-- The elements of a copy. -/
lemma elements_map (n : Node α) : (n.map f g).elements = n.elements.map g := by
  induction n using Node.induct with
  | leaf l => rw [map, elements, elements]
  | inner id cs sizes ih =>
      rw [map, elements, elements, elementsAll_eq, elementsAll_eq, mapAll_eq, List.flatMap_map,
        List.map_flatMap]
      exact List.flatMap_congr ih

/-- A copy depends on what happens to the identities of its nodes only. -/
lemma map_congr {f f' : NodeId → NodeId} (g : α → β) {n : Node α}
    (h : ∀ m ∈ n.nodes, f m.id = f' m.id) : n.map f g = n.map f' g := by
  induction n using Node.induct with
  | leaf l =>
      have hid : f l.id = f' l.id := h _ (mem_nodes_self (.leaf l))
      rw [map, map, hid]
  | inner id cs sizes ih =>
      have hid : f id = f' id := h _ (mem_nodes_self (.inner id cs sizes))
      have hcs : cs.map (map f g) = cs.map (map f' g) :=
        List.map_congr_left fun c hc =>
          ih c hc fun m hm => h m (mem_nodes_inner.mpr (.inr ⟨c, hc, hm⟩))
      rw [map, map, hid, mapAll_eq, mapAll_eq, hcs]

@[simp] lemma count_map (n : Node α) : (n.map f g).count = n.count := by
  rw [count, elements_map, List.length_map, count]

end Node

namespace Vec

variable (f : NodeId → NodeId) (g : α → β)

/-- A copy of a vector, its identities sent through `f` and its elements through `g`. -/
def map (v : Vec α) : Vec β :=
  ⟨v.len, v.shift, ⟨f v.root.id, Node.mapAll f g v.root.children, v.root.sizes⟩,
    ⟨f v.tail.id, v.tail.items.map g⟩⟩

@[simp] lemma node_root_map (v : Vec α) : (v.map f g).root.node = v.root.node.map f g := by
  rw [Branch.node, Branch.node, Node.map, map]

/-- A copy depends on what happens to the identities of its nodes only. -/
lemma map_congr {f f' : NodeId → NodeId} (g : α → β) {v : Vec α}
    (h : ∀ n ∈ v.nodes, f n.id = f' n.id) : v.map f g = v.map f' g := by
  have hroot : (v.map f g).root.node = (v.map f' g).root.node := by
    rw [node_root_map, node_root_map]
    exact Node.map_congr g fun m hm => h m (List.mem_append_left _ hm)
  have htail : f v.tail.id = f' v.tail.id :=
    h (.leaf v.tail) (List.mem_append_right _ (List.mem_singleton_self _))
  rw [Branch.node, Branch.node, Node.inner.injEq] at hroot
  rw [map, map, Vec.mk.injEq, Branch.mk.injEq, htail]
  exact ⟨rfl, rfl, hroot, rfl⟩

/-- The identities of the nodes of some vectors. -/
def ids (vs : List (Vec α)) : Finset NodeId := ((vs.flatMap nodes).map Node.id).toFinset

lemma mem_ids {vs : List (Vec α)} {i : NodeId} :
    i ∈ ids vs ↔ ∃ v ∈ vs, ∃ n ∈ v.nodes, n.id = i := by
  simp only [ids, List.mem_toFinset, List.mem_map, List.mem_flatMap]
  constructor
  · rintro ⟨n, ⟨v, hv, hn⟩, hid⟩
    exact ⟨v, hv, n, hn, hid⟩
  · rintro ⟨v, hv, n, hn, hid⟩
    exact ⟨n, ⟨v, hv, hn⟩, hid⟩

end Vec

end RadixPool
