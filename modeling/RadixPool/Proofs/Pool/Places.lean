import Mathlib
import RadixPool.Proofs.Pool.Load
import RadixPool.Proofs.Tree.Path

/-!
The places of a loaded vector.

A place of a vector is its tail or the way from its root to a node. The entries of a pool say
which key stands at a place, and in a vector that was loaded there is the node that was built for
this key.

* `Pool.keyBelow?`, `Pool.Built.at?`: the key at the end of a path, and the node built for it.
* `Pool.Built.exists_of_reaches`: all nodes on the way down from a built node are built.
* `Place`, `Vec.at?`, `Pool.keyAt?`: places, and the node and the key at a place.
* `Loader.Loads.at?`: at each place of a loaded vector is the node of the key there.
-/

namespace RadixPool

variable {α : Type} {s : Shape}

namespace Pool

variable {p : Pool α}

/-- The keys of the children of a key, if it names an inner node. -/
def childrenOf (p : Pool α) (k : Key) : List Key :=
  match p.inners.get? k with
  | some e => e.children
  | none => []

/-- The key that child numbers lead to. -/
def keyBelow? (p : Pool α) (k : Key) : List Nat → Option Key
  | [] => some k
  | i :: path => (p.childrenOf k)[i]?.bind fun c => p.keyBelow? c path

namespace Built

variable {plan : Plan} {H : Heap α} {built : KeyMap (Node α)} {k : Key} {n : Node α}

/-- The children of a built node are the nodes built for the children of its key. -/
lemma children (hb : p.Built plan H built) (hd : p.Disjoint)
    (hk : built.get? k = some n) (i : Nat) :
    Option.Rel (fun c m => built.get? c = some m) (p.childrenOf k)[i]? n.children[i]? := by
  have hmade := hb.made hk
  cases n with
  | leaf l =>
      have hinner : p.inners.get? k = none := hd hmade
      rw [childrenOf, hinner]
      exact .none
  | inner id cs sizes =>
      obtain ⟨-, e, he, hcs, -⟩ := hmade
      have hi : (e.children[i]?).map built.get? = (cs[i]?).map some := by
        rw [← List.getElem?_map, hcs, List.getElem?_map]
      rw [childrenOf, he, Node.children_inner]
      dsimp only
      cases hc : e.children[i]? with
      | none =>
          rw [hc, Option.map_none] at hi
          rw [Option.map_eq_none_iff.mp hi.symm]
          exact .none
      | some c =>
          rw [hc, Option.map_some] at hi
          obtain ⟨m, hm, hget⟩ := Option.map_eq_some_iff.mp hi.symm
          rw [hm]
          exact .some hget.symm

/-- At the end of a path down from a built node is the node built for the key there. -/
theorem at? (hb : p.Built plan H built) (hd : p.Disjoint) (hk : built.get? k = some n)
    (path : List Nat) :
    Option.Rel (fun c m => built.get? c = some m) (p.keyBelow? k path) (n.at? path) := by
  induction path generalizing k n with
  | nil => exact .some hk
  | cons i path ih =>
      have hi := hb.children hd hk i
      rw [keyBelow?, Node.at?]
      generalize (p.childrenOf k)[i]? = c at hi ⊢
      generalize n.children[i]? = m at hi ⊢
      cases hi with
      | none => exact .none
      | some hc => exact ih hc

/-- All nodes on the way down from a built node are built. -/
lemma exists_of_reaches (hb : p.Built plan H built) (hk : built.get? k = some n) {q : Key}
    (hq : p.Reaches k q) : ∃ m, built.get? q = some m := by
  induction hq generalizing n with
  | refl k => exact ⟨n, hk⟩
  | @step k c q e leaf entry child _ ih =>
      have hmade := hb.made hk
      cases n with
      | leaf l =>
          have hsome : p.leaves.get? k = some l.items := hmade
          rw [leaf] at hsome
          cases hsome
      | inner id cs sizes =>
          obtain ⟨-, e', he', hcs, -⟩ := hmade
          obtain rfl := Option.some.inj (entry.symm.trans he')
          have hmem : built.get? c ∈ cs.map some := hcs ▸ List.mem_map_of_mem child
          obtain ⟨m, -, hm⟩ := List.mem_map.mp hmem
          exact ih hm.symm

end Built

end Pool

/-! ### Places -/

/-- A place of a vector. -/
inductive Place where
  | tree (path : List Nat)
  | tail

/-- The node at a place. -/
def Vec.at? (v : Vec α) : Place → Option (Node α)
  | .tree path => v.root.node.at? path
  | .tail => some (.leaf v.tail)

/-- The key at a place of the vector of two keys. -/
def Pool.keyAt? (p : Pool α) (e : PooledVec) : Place → Option Key
  | .tree path => p.keyBelow? e.root path
  | .tail => some e.tail

/-- At each place of a loaded vector is the node built for the key there. -/
theorem Loader.Loads.at? {p : Pool α} {plan : Plan} {H : Heap α} {built : KeyMap (Node α)}
    {e : PooledVec} {h : Nat} {v : Vec α} (hv : Loads s built e h v) (hd : p.Disjoint)
    (hb : p.Built plan H built) (w : Place) :
    Option.Rel (fun c m => built.get? c = some m) (p.keyAt? e w) (v.at? w) := by
  cases w with
  | tree path => exact hb.at? hd hv.root path
  | tail => exact .some hv.tail

end RadixPool
