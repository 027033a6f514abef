import Mathlib
import RadixPool.Proofs.Tree.Sound

/-!
Nodes by the way to them.

A node of a tree has a place: the child numbers on the way from the root. One node can have several
places, and the place, not the node, has a depth.

* `Node.children`, `Node.at?`: the children of a node, and the node that a path of child numbers
  leads to.
* `Node.Sound.at?`, `Node.Sound.isLeaf_iff`: at depth `d` a sound tree of height `h` has sound
  nodes of height `h - d`.
* `Node.row`: the nodes at a depth, from left to right.
-/

namespace RadixPool

variable {α : Type} {s : Shape}

namespace Node

/-- The children of a node. A leaf has none. -/
def children : Node α → List (Node α)
  | .leaf _ => []
  | .inner _ cs _ => cs

@[simp] lemma children_leaf (l : Leaf α) : (Node.leaf l).children = [] := rfl

@[simp] lemma children_inner (id : NodeId) (cs : List (Node α)) (sizes : Option (List Nat)) :
    (Node.inner id cs sizes).children = cs := rfl

/-- The node that child numbers lead to. -/
def at? (n : Node α) : List Nat → Option (Node α)
  | [] => some n
  | i :: path => n.children[i]?.bind fun c => c.at? path

@[simp] lemma at?_nil (n : Node α) : n.at? [] = some n := rfl

lemma at?_cons_eq_some_iff {n m : Node α} {i : Nat} {path : List Nat} :
    n.at? (i :: path) = some m ↔ ∃ c, n.children[i]? = some c ∧ c.at? path = some m := by
  rw [at?, Option.bind_eq_some_iff]

/-- In a sound tree of height `h` the nodes at depth `d` are sound and have height `h - d`. -/
theorem Sound.at? {h : Nat} {n m : Node α} (hn : Sound s h n) {path : List Nat}
    (hat : n.at? path = some m) : path.length ≤ h ∧ Sound s (h - path.length) m := by
  induction path generalizing n h with
  | nil =>
      rw [at?_nil, Option.some_inj] at hat
      exact ⟨Nat.zero_le h, hat ▸ hn⟩
  | cons i path ih =>
      obtain ⟨c, hc, hm⟩ := at?_cons_eq_some_iff.mp hat
      cases hn with
      | leaf => simp at hc
      | @inner h id cs sizes _ _ below _ =>
          obtain ⟨hle, hsound⟩ := ih (below c (List.mem_of_getElem? hc)) hm
          rw [List.length_cons, Nat.add_sub_add_right]
          exact ⟨Nat.succ_le_succ hle, hsound⟩

/-- In a sound tree the leaves stand as deep as the tree is high, and the inner nodes above them. -/
lemma Sound.isLeaf_iff {h : Nat} {n m : Node α} (hn : Sound s h n) {path : List Nat}
    (hat : n.at? path = some m) : m.isLeaf = true ↔ path.length = h := by
  obtain ⟨hle, hm⟩ := hn.at? hat
  generalize hk : h - path.length = k at hm
  cases hm with
  | leaf => exact ⟨fun _ => by omega, fun _ => rfl⟩
  | inner => exact ⟨(fun h => nomatch h), fun heq => by omega⟩

/-- The nodes at a depth, from left to right. -/
def row (n : Node α) : Nat → List (Node α)
  | 0 => [n]
  | d + 1 => n.children.flatMap fun c => c.row d

@[simp] lemma row_zero (n : Node α) : n.row 0 = [n] := rfl

lemma row_succ (n : Node α) (d : Nat) : n.row (d + 1) = n.children.flatMap fun c => c.row d := rfl

end Node

end RadixPool
