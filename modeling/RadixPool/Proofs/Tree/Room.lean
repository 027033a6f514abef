import Mathlib
import RadixPool.Proofs.Tree.Renewal

/-!
Room for a leaf.

Whether a tree has room for another leaf is a matter of its right edge, the inner nodes from the
root down along the last children: there is none exactly if each of them is as wide as it may be.
A single node does not tell, and the number of elements does not either, since a relaxed tree can
be wide and hold little.

* `Node.edge`: the inner nodes along the right edge; `Node.Sound.length_edge`: in a sound tree
  they go down to the leaves.
* `Node.edgeFull_iff`: trees without room, by the widths along the edge.
* `Node.isRelaxed_of_appendLeaf?`: a relaxed node stays relaxed when it takes a leaf.
* `Branch.appendLeaf?_outcome`: when a leaf finds room, and what the tree is then.
-/

namespace RadixPool

variable {α : Type} {s : Shape}

namespace Node

/-! ### The right edge -/

mutual

/-- The inner nodes along the right edge of a tree, from the root down. -/
def edge : Node α → List (Node α)
  | .leaf _ => []
  | .inner id cs sizes => .inner id cs sizes :: edgeOfLast cs

/-- The inner nodes along the right edge of the last of some trees. -/
def edgeOfLast : List (Node α) → List (Node α)
  | [] => []
  | [c] => edge c
  | _ :: c :: cs => edgeOfLast (c :: cs)

end

@[simp] lemma edge_leaf (l : Leaf α) : (Node.leaf l).edge = [] := by rw [edge]

@[simp] lemma edge_inner_nil (id : NodeId) (sizes : Option (List Nat)) :
    (Node.inner id [] sizes : Node α).edge = [.inner id [] sizes] := by
  rw [edge, edgeOfLast]

lemma edgeOfLast_concat (init : List (Node α)) (last : Node α) :
    edgeOfLast (init ++ [last]) = last.edge := by
  induction init with
  | nil => rw [List.nil_append, edgeOfLast]
  | cons c init ih =>
      obtain ⟨d, ds, hd⟩ := List.exists_cons_of_ne_nil (List.concat_ne_nil last init)
      rw [List.cons_append, hd, edgeOfLast, ← hd, ih]

@[simp] lemma edge_inner_concat (id : NodeId) (init : List (Node α)) (last : Node α)
    (sizes : Option (List Nat)) :
    (Node.inner id (init ++ [last]) sizes).edge =
      .inner id (init ++ [last]) sizes :: last.edge := by
  rw [edge, edgeOfLast_concat]

/-- In a sound tree the right edge has a node on each level down to the leaves. -/
lemma Sound.length_edge {h : Nat} {n : Node α} (hn : Sound s h n) : n.edge.length = h := by
  induction hn with
  | leaf => simp
  | @inner h id cs sizes _ flat _ _ ih =>
      obtain rfl | ⟨init, last, rfl⟩ := cs.eq_nil_or_concat'
      · simp [flat rfl]
      · simp [ih last (by simp)]

/-- There is no room in a tree exactly if all nodes along its right edge are as wide as they may
be. -/
theorem edgeFull_iff {n : Node α} :
    n.EdgeFull s ↔ ∀ m ∈ n.edge, m.children.length = 2 ^ s.bits := by
  induction n using Node.induct with
  | leaf l => exact ⟨fun _ _ hm => by simp at hm, fun _ => .leaf l⟩
  | inner id cs sizes ih =>
      obtain rfl | ⟨init, last, rfl⟩ := cs.eq_nil_or_concat'
      · have hpos : 2 ^ s.bits ≠ 0 := (Nat.two_pow_pos _).ne'
        simpa [not_edgeFull_nil] using hpos.symm
      · rw [edgeFull_concat_iff, edge_inner_concat, List.forall_mem_cons, children_inner,
          ih last (by simp)]

/-! ### Relaxed nodes -/

/-- A relaxed node stays relaxed when it takes a leaf. -/
lemma isRelaxed_of_appendLeaf? {leaf : Leaf α} {next next' : NodeId} {id : NodeId}
    {cs : List (Node α)} {table : List Nat} {shift : Nat} {b : Branch α}
    (happ : appendLeaf? s leaf next (.inner id cs (some table)) shift = some (b, next')) :
    b.isRelaxed = true := by
  rw [appendLeaf?] at happ
  split at happ
  · split at happ
    · cases happ
    · cases happ
      rfl
  · split at happ
    · cases happ
      rfl
    · split at happ
      · cases happ
      · cases happ
        rfl

end Node

/-! ### The outcome -/

/-- A full leaf finds no room in a sound tree exactly if all nodes along the right edge, down to
the one above the leaves, have as many children as they may have. Else the tree takes it: the new
tree is sound and of the same level, the leaf stands behind the leaves that were there before, the
nodes on the way to it are new and at all other places stand the nodes of the old tree, and a
relaxed root stays relaxed. -/
theorem Branch.appendLeaf?_outcome (hs : s.Valid) {h : Nat} {b : Branch α}
    (hb : b.node.Sound s (h + 1)) (hlev : s.level h < Word.width) {leaf : Leaf α}
    (hfull : leaf.items.length = 2 ^ s.leafBits)
    (hlt : b.node.count + leaf.items.length < Word.count) (next : NodeId) :
    b.node.edge.length = h + 1 ∧
      (Node.appendLeaf? s leaf next b.node (s.level h) = none ↔
        ∀ m ∈ b.node.edge, m.children.length = 2 ^ s.bits) ∧
      ∀ b' next', Node.appendLeaf? s leaf next b.node (s.level h) = some (b', next') →
        b'.node.Sound s (h + 1) ∧ b'.node.elements = b.node.elements ++ leaf.items ∧
          (∃ path, path.length = h + 1 ∧
            b'.node.Took leaf b.node.at? b.node.leaves path next) ∧
          (b.isRelaxed = true → b'.isRelaxed = true) := by
  rw [← Shape.level_succ_sub h]
  refine ⟨hb.length_edge, ?_, fun b' next' happ => ?_⟩
  · rw [hb.appendLeaf?_eq_none_iff hs, Node.edgeFull_iff]
  · obtain ⟨hsound, helements, -⟩ := hb.appendLeaf?_eq_some hs hfull hlev hlt happ
    obtain ⟨path, hlength, -, htook⟩ := hb.exists_took hs happ
    refine ⟨hsound, by rw [Branch.elements_node, helements], ⟨path, hlength, htook⟩,
      fun hrelaxed => ?_⟩
    obtain ⟨table, htable⟩ := Option.isSome_iff_exists.mp hrelaxed
    rw [Branch.node, htable] at happ
    exact Node.isRelaxed_of_appendLeaf? happ

/-- The last child of a regular root has no room for a child of its own, but its last leaf is not
full: the root takes the leaf under a new path, and gets a table. -/
theorem Branch.appendLeaf?_outcome_partial :
    ∃ (b b' : Branch Bool) (leaf : Leaf Bool), b.node.Sound ⟨1, 1⟩ 2 ∧ b.isRelaxed = false ∧
      b.node.edge.map (fun m => m.children.length) = [1, 2] ∧ b.node.count = 3 ∧
      Node.appendLeaf? ⟨1, 1⟩ leaf 5 b.node 2 = some (b', 7) ∧ b'.sizes = some [3, 5] ∧
      b'.node.Sound ⟨1, 1⟩ 2 ∧ b'.node.elements = b.node.elements ++ leaf.items ∧
      ∃ path, path.length = 2 ∧ b'.node.Took leaf b.node.at? b.node.leaves path 5 := by
  let last : Node Bool := .inner 1 [.leaf ⟨2, [true, true]⟩, .leaf ⟨3, [true]⟩] none
  let b : Branch Bool := ⟨0, [last], none⟩
  let leaf : Leaf Bool := ⟨4, [false, false]⟩
  have hlast : last.Sound ⟨1, 1⟩ 1 := by
    refine .inner (by decide) (fun he => nomatch he) (fun c hc => ?_) ⟨by decide, by decide⟩
    simp only [List.mem_cons, List.not_mem_nil, or_false] at hc
    rcases hc with rfl | rfl
    · exact .leaf (by decide)
    · exact .leaf (by decide)
  have hb : b.node.Sound ⟨1, 1⟩ 2 := hlast.single (by decide) 0
  obtain ⟨b', happ, htable⟩ : ∃ b', Node.appendLeaf? ⟨1, 1⟩ leaf 5 b.node 2 = some (b', 7) ∧
      b'.sizes = some [3, 5] := ⟨_, rfl, rfl⟩
  have hfull : leaf.items.length = 2 ^ 1 := rfl
  obtain ⟨-, -, houtcome⟩ :=
    Branch.appendLeaf?_outcome (by decide) hb (by decide) hfull (by decide) 5
  obtain ⟨hsound, helements, htook, -⟩ := houtcome b' 7 happ
  exact ⟨b, b', leaf, hb, rfl, by decide, by decide, happ, htable, hsound, helements, htook⟩

end RadixPool
