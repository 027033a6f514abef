import Mathlib
import RadixPool.Proofs.Tree.Identity
import RadixPool.Proofs.Tree.Path

/-!
Trees with new nodes along a path.

A tree is never changed: when an element is replaced or a leaf appended, the nodes on one way down
from the root are made anew, and at all other places the nodes of the tree before stand.

* `Node.mem_nodes_iff_exists_at?`: the nodes of a tree are those at its places.
* `Node.leaves`: the leaves of a tree from left to right.
* `Node.Renewed`: a tree whose first nodes along a path are new and which elsewhere holds what was
  there before; `Node.Renewed.parent` adds a new node on top.
* `Node.Sound.exists_renewed`: replacing an element of a sound tree renews it down to a leaf.
* `Node.Took`: a tree renewed down to a leaf that it has taken; `Node.Sound.exists_took` finds it in
  what appending gives.
-/

namespace RadixPool

variable {α : Type} {s : Shape}

namespace Node

/-! ### Nodes and places -/

/-- The nodes of a tree are those at its places. -/
lemma mem_nodes_iff_exists_at? {n m : Node α} : m ∈ n.nodes ↔ ∃ path, n.at? path = some m := by
  induction n using Node.induct with
  | leaf l =>
      rw [nodes, List.mem_singleton]
      constructor
      · rintro rfl
        exact ⟨[], rfl⟩
      · rintro ⟨path, hat⟩
        cases path with
        | nil => exact (Option.some.inj hat).symm
        | cons i path => cases hat
  | inner id cs sizes ih =>
      rw [mem_nodes_inner]
      constructor
      · rintro (rfl | ⟨c, hc, hm⟩)
        · exact ⟨[], rfl⟩
        · obtain ⟨path, hat⟩ := (ih c hc).mp hm
          obtain ⟨i, hi⟩ := List.mem_iff_getElem?.mp hc
          exact ⟨i :: path, at?_cons_eq_some_iff.mpr ⟨c, hi, hat⟩⟩
      · rintro ⟨path, hat⟩
        cases path with
        | nil => exact .inl (Option.some.inj hat).symm
        | cons i path =>
            obtain ⟨c, hc, hm⟩ := at?_cons_eq_some_iff.mp hat
            have hmem : c ∈ cs := List.mem_of_getElem? hc
            exact .inr ⟨c, hmem, (ih c hmem).mpr ⟨path, hm⟩⟩

/-- The leaves of a tree from left to right. -/
def leaves (n : Node α) : List (Node α) := n.nodes.filter Node.isLeaf

@[simp] lemma leaves_leaf (l : Leaf α) : (Node.leaf l).leaves = [.leaf l] := rfl

@[simp] lemma leaves_inner (id : NodeId) (cs : List (Node α)) (sizes : Option (List Nat)) :
    (Node.inner id cs sizes).leaves = cs.flatMap leaves := by
  rw [leaves, nodes, nodesAll_eq, List.filter_cons_of_neg (by simp [isLeaf]), List.filter_flatMap]
  rfl

/-! ### Renewed trees -/

/-- The first `k` nodes of a tree along `path` are new: they took the identities from `next` on, the
deepest one first. At the places off the path stands what `old` says. -/
structure Renewed (old : List Nat → Option (Node α)) (path : List Nat) (next : NodeId) (k : Nat)
    (n : Node α) : Prop where
  on_path : ∀ j < k, ∃ m, n.at? (path.take (k - 1 - j)) = some m ∧ m.id = next + j
  off_path : ∀ q, ¬ q <+: path → n.at? q = old q

namespace Renewed

variable {old old' : List Nat → Option (Node α)} {path : List Nat} {next : NodeId} {k : Nat}
  {c : Node α} {cs : List (Node α)}

/-- A new parent of a renewed child, the other children being those that were there before. -/
theorem parent {i : Nat} (hc : c.Renewed old' path next k) (hi : cs[i]? = some c)
    (below : ∀ q, old (i :: q) = old' q)
    (beside : ∀ j, j ≠ i → ∀ q, (cs[j]?.bind fun c => c.at? q) = old (j :: q))
    (sizes : Option (List Nat)) :
    (Node.inner (next + k) cs sizes).Renewed old (i :: path) next (k + 1) where
  on_path := by
    intro j hj
    rw [Nat.add_sub_cancel]
    rcases Nat.lt_or_eq_of_le (Nat.le_of_lt_succ hj) with hlt | rfl
    · obtain ⟨m, hm, hid⟩ := hc.on_path j hlt
      obtain ⟨d, hd⟩ : ∃ d, k - j = d + 1 := ⟨k - j - 1, by omega⟩
      obtain rfl : k - 1 - j = d := by omega
      exact ⟨m, by rw [hd]; exact at?_cons_eq_some_iff.mpr ⟨c, hi, hm⟩, hid⟩
    · exact ⟨_, by rw [Nat.sub_self]; rfl, rfl⟩
  off_path := by
    intro q hq
    cases q with
    | nil => exact absurd List.nil_prefix hq
    | cons j q =>
        by_cases hj : j = i
        · subst hj
          rw [at?, children_inner, hi, Option.bind_some, below]
          exact hc.off_path q fun hp => hq (List.cons_prefix_cons.mpr ⟨rfl, hp⟩)
        · exact beside j hj q

/-- A new parent whose child in one slot is renewed. -/
lemma setChild {i : Nat} {c' : Node α} (hc' : c'.Renewed c.at? path next k) (hi : cs[i]? = some c)
    (id : NodeId) (sizes sizes' : Option (List Nat)) :
    (Node.inner (next + k) (cs.set i c') sizes').Renewed (Node.inner id cs sizes).at? (i :: path)
      next (k + 1) := by
  obtain ⟨hlt, -⟩ := List.getElem?_eq_some_iff.mp hi
  refine hc'.parent (List.getElem?_set_self hlt) (fun q => ?_) (fun j hj q => ?_) sizes'
  · rw [at?, children_inner, hi, Option.bind_some]
  · rw [at?, children_inner, List.getElem?_set_ne (Ne.symm hj)]

/-- A new parent with a further child, in a slot where nothing was before. -/
lemma appendChild (hc : c.Renewed (fun _ => none) path next k) (id : NodeId)
    (sizes sizes' : Option (List Nat)) :
    (Node.inner (next + k) (cs ++ [c]) sizes').Renewed (Node.inner id cs sizes).at?
      (cs.length :: path) next (k + 1) := by
  refine hc.parent List.getElem?_concat_length (fun q => ?_) (fun j hj q => ?_) sizes'
  · rw [at?, children_inner, List.getElem?_eq_none le_rfl, Option.bind_none]
  · rw [at?, children_inner]
    rcases Nat.lt_or_gt_of_ne hj with hlt | hgt
    · rw [List.getElem?_append_left hlt]
    · rw [List.getElem?_eq_none (by simpa using hgt), List.getElem?_eq_none hgt.le]

/-- At a place on the path among the first `k` is a new node. -/
lemma exists_new {n : Node α} (hn : n.Renewed old path next k) {q : List Nat} (hq : q <+: path)
    (hlt : q.length < k) : ∃ m, n.at? q = some m ∧ m.id = next + (k - 1 - q.length) := by
  obtain ⟨m, hm, hid⟩ := hn.on_path (k - 1 - q.length) (by omega)
  have hdepth : k - 1 - (k - 1 - q.length) = q.length := by omega
  rw [hdepth, ← List.prefix_iff_eq_take.mp hq] at hm
  exact ⟨m, hm, hid⟩

/-- Above the end of the path the new nodes have a run of identities. If the node at its end is
new as well, then that one has the identity before these. -/
lemma exists_mem_Ico {n : Node α} {e : Nat} (hn : n.Renewed old path next (path.length + e))
    {q : List Nat} (hq : q <+: path) (hlt : q.length < path.length) :
    ∃ m, n.at? q = some m ∧ m.id ∈ Finset.Ico (next + e) (next + e + path.length) := by
  obtain ⟨m, hm, hid⟩ := hn.exists_new hq (Nat.lt_add_right e hlt)
  have hsum : path.length + e - 1 - q.length = e + (path.length - 1 - q.length) := by omega
  rw [hsum, ← Nat.add_assoc] at hid
  refine ⟨m, hm, Finset.mem_Ico.mpr ?_⟩
  rw [hid]
  exact ⟨Nat.le_add_right _ _, Nat.add_lt_add_left (by omega) _⟩

end Renewed

/-! ### Replacing an element -/

/-- Replacing an element of a sound tree renews all nodes on the way down to a leaf. -/
theorem Sound.exists_renewed {h : Nat} {n n' : Node α} (hn : Sound s h n) {x : α}
    {next next' : NodeId} {shift idx : Nat}
    (hset : n.set? s x next shift idx = some (n', next')) :
    ∃ path, path.length = h ∧ next' = next + (h + 1) ∧
      n'.Renewed n.at? path next (h + 1) := by
  induction hn generalizing shift idx n' next' with
  | @leaf l fits =>
      rw [set?] at hset
      split at hset
      · cases hset
        refine ⟨[], rfl, rfl, fun j hj => ?_, fun q hq => ?_⟩
        · obtain rfl : j = 0 := by omega
          exact ⟨_, rfl, rfl⟩
        · cases q with
          | nil => exact absurd List.nil_prefix hq
          | cons i q => rfl
      · cases hset
  | @inner h id cs sizes width flat below tabled ih =>
      rw [set?] at hset
      split at hset
      case h_2 => cases hset
      next slot sub _ =>
      split at hset
      case h_2 => cases hset
      next cs' next₁ hbelow =>
      cases hset
      rw [setBelow?_eq, Option.bind_eq_some_iff] at hbelow
      obtain ⟨c, hc, hbelow⟩ := hbelow
      obtain ⟨⟨c', next₂⟩, hrec, heq⟩ := Option.map_eq_some_iff.mp hbelow
      cases heq
      obtain ⟨path, hlength, rfl, hrenewed⟩ := ih c (List.mem_of_getElem? hc) hrec
      exact ⟨slot :: path, by rw [List.length_cons, hlength], rfl,
        hrenewed.setChild hc id sizes sizes⟩

/-! ### Appending a leaf -/

/-- A tree has taken a leaf at the end of a path: all nodes on the way there are new, and the leaf
stands to the right of all leaves that were there before. -/
structure Took (leaf : Leaf α) (old : List Nat → Option (Node α)) (leaves : List (Node α))
    (path : List Nat) (next : NodeId) (n : Node α) : Prop where
  renewed : n.Renewed old path next path.length
  stands : n.at? path = some (.leaf leaf)
  leaves_eq : n.leaves = leaves ++ [.leaf leaf]

namespace Took

variable {leaf : Leaf α} {path : List Nat} {next : NodeId} {c : Node α}

/-- The leaf itself needs no new nodes. -/
lemma self (leaf : Leaf α) (next : NodeId) :
    (Node.leaf leaf).Took leaf (fun _ => none) [] [] next where
  renewed := by
    refine ⟨fun j hj => absurd hj (Nat.not_lt_zero j), fun q hq => ?_⟩
    cases q with
    | nil => exact absurd List.nil_prefix hq
    | cons i q => rfl
  stands := rfl
  leaves_eq := rfl

/-- A new node with a single child takes the leaf where nothing was before. -/
lemma single (hc : c.Took leaf (fun _ => none) [] path next) :
    (Node.inner (next + path.length) [c] none).Took leaf (fun _ => none) [] (0 :: path) next where
  renewed := by
    refine hc.renewed.parent (i := 0) rfl (fun _ => rfl) (fun j hj q => ?_) none
    rw [List.getElem?_eq_none (Nat.pos_of_ne_zero hj), Option.bind_none]
  stands := hc.stands
  leaves_eq := by rw [leaves_inner, List.flatMap_singleton, hc.leaves_eq]

/-- A new node that takes the leaf with a further child. -/
lemma appendChild (hc : c.Took leaf (fun _ => none) [] path next) (cs : List (Node α)) (id : NodeId)
    (sizes sizes' : Option (List Nat)) :
    (Node.inner (next + path.length) (cs ++ [c]) sizes').Took leaf (Node.inner id cs sizes).at?
      (cs.flatMap leaves) (cs.length :: path) next where
  renewed := hc.renewed.appendChild id sizes sizes'
  stands := at?_cons_eq_some_iff.mpr ⟨c, List.getElem?_concat_length, hc.stands⟩
  leaves_eq := by
    rw [leaves_inner, List.flatMap_append, List.flatMap_singleton, hc.leaves_eq, List.nil_append]

/-- A new node whose last child takes the leaf. -/
lemma growLast {init : List (Node α)} {last : Node α}
    (hc : c.Took leaf last.at? last.leaves path next) (id : NodeId)
    (sizes sizes' : Option (List Nat)) :
    (Node.inner (next + path.length) (init ++ [c]) sizes').Took leaf
      (Node.inner id (init ++ [last]) sizes).at? ((init ++ [last]).flatMap leaves)
      (init.length :: path) next where
  renewed := by
    have hset : init ++ [c] = (init ++ [last]).set init.length c := by
      rw [List.set_append_right _ _ le_rfl, Nat.sub_self, List.set_cons_zero]
    rw [hset]
    exact hc.renewed.setChild List.getElem?_concat_length id sizes sizes'
  stands := at?_cons_eq_some_iff.mpr ⟨c, List.getElem?_concat_length, hc.stands⟩
  leaves_eq := by
    rw [leaves_inner, List.flatMap_append, List.flatMap_append, List.flatMap_singleton,
      List.flatMap_singleton, hc.leaves_eq, List.append_assoc]

/-- In a sound tree the way to the leaf is as long as the tree is high. -/
lemma length_eq {old : List Nat → Option (Node α)} {ls : List (Node α)} {n : Node α} {h : Nat}
    (ht : n.Took leaf old ls path next) (hn : Sound s h n) : path.length = h := by
  obtain ⟨hle, hleaf⟩ := hn.at? ht.stands
  have hzero : h - path.length = 0 := (sound_leaf_iff.mp hleaf).1
  omega

end Took

/-- A new path takes its leaf. -/
lemma took_path (leaf : Leaf α) (above : Nat) (next : NodeId) :
    ∃ path, path.length = above + 1 ∧ (Branch.path leaf above next).2 = next + (above + 1) ∧
      (Branch.path leaf above next).1.node.Took leaf (fun _ => none) [] path next := by
  induction above with
  | zero => exact ⟨[0], rfl, rfl, (Took.self leaf next).single⟩
  | succ above ih =>
      obtain ⟨path, hlength, hnext, htook⟩ := ih
      have hsingle := htook.single
      rw [Branch.node_path_succ, hnext, ← hlength]
      refine ⟨0 :: path, rfl, ?_, hsingle⟩
      rw [hlength]
      exact congrArg Nat.succ hnext

/-- A leaf that finds room in a sound tree is taken by it. -/
theorem Sound.exists_took (hs : s.Valid) {leaf : Leaf α} {h : Nat} {n : Node α} (hn : Sound s h n)
    {next next' : NodeId} {b : Branch α}
    (happ : appendLeaf? s leaf next n (s.level h - s.bits) = some (b, next')) :
    ∃ path, path.length = h ∧ next' = next + h ∧
      b.node.Took leaf n.at? n.leaves path next := by
  induction hn generalizing b next' with
  | leaf => cases happ
  | @inner h id cs sizes width flat below tabled ih =>
      rw [Shape.level_succ_sub] at happ
      rw [leaves_inner]
      cases h with
      | zero =>
          rw [appendLeaf?_level_zero hs] at happ
          split at happ
          · cases happ
          · cases happ
            exact ⟨_, rfl, rfl, (Took.self leaf next).appendChild cs id sizes _⟩
      | succ h =>
          obtain rfl | ⟨init, last, rfl⟩ := cs.eq_nil_or_concat'
          · exact absurd (flat rfl) (Nat.succ_ne_zero h)
          rw [appendLeaf?_level_succ hs] at happ
          cases hrec : appendLeaf? s leaf next last (s.level (h + 1) - s.bits) with
          | some r =>
              obtain ⟨path, hlength, hnext, htook⟩ := ih last (by simp) hrec
              simp only [hrec, Option.some.injEq, Prod.mk.injEq] at happ
              obtain ⟨rfl, rfl⟩ := happ
              refine ⟨init.length :: path, by rw [List.length_cons, hlength],
                by rw [hnext]; rfl, ?_⟩
              rw [hnext, ← hlength]
              exact htook.growLast id sizes _
          | none =>
              simp only [hrec] at happ
              split at happ
              · cases happ
              · obtain ⟨path, hlength, hnext, htook⟩ := took_path leaf h next
                simp only [Option.some.injEq, Prod.mk.injEq] at happ
                obtain ⟨rfl, rfl⟩ := happ
                refine ⟨(init ++ [last]).length :: path, by rw [List.length_cons, hlength],
                  by rw [hnext]; rfl, ?_⟩
                rw [hnext, ← hlength]
                exact htook.appendChild (init ++ [last]) id sizes _

end Node

end RadixPool
