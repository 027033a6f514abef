import RadixPool.KeyMap
import RadixPool.Vec.Basic

/-!
How many nodes a family of vectors has.

* `NodeCounts`: the numbers of inner nodes and of leaves.
* `nodeCounts`: the nodes reached from the roots and tails of some vectors, each counted once.
-/

namespace RadixPool

variable {α : Type}

/-- Numbers of nodes of the two kinds. -/
structure NodeCounts where
  inner : Nat
  leaf : Nat
deriving DecidableEq

/-- The number of nodes of both kinds. -/
def NodeCounts.total (s : NodeCounts) : Nat := s.inner + s.leaf

namespace NodeCounts

/-- A count under way: the nodes met so far and their numbers. -/
structure Tally where
  met : KeyMap Unit
  counts : NodeCounts

/-- Notes an inner node. -/
def Tally.addInner (t : Tally) (id : NodeId) : Tally :=
  ⟨t.met.insert id (), ⟨t.counts.inner + 1, t.counts.leaf⟩⟩

/-- Notes a leaf unless it was met before. -/
def Tally.visitLeaf (t : Tally) (l : Leaf α) : Tally :=
  if t.met.contains l.id then t
  else ⟨t.met.insert l.id (), ⟨t.counts.inner, t.counts.leaf + 1⟩⟩

mutual

/-- Visits a node and all below it; a node met before is passed over with all below it. -/
def Tally.visit (t : Tally) : Node α → Tally
  | .leaf l => t.visitLeaf l
  | .inner id cs _ => if t.met.contains id then t else visitAll (t.addInner id) cs

/-- Visits a list of nodes in turn. -/
def Tally.visitAll (t : Tally) : List (Node α) → Tally
  | [] => t
  | c :: cs => visitAll (visit t c) cs

end

/-- Visits a vector, first its tree and then its tail. -/
def Tally.visitVec (t : Tally) (v : Vec α) : Tally := (t.visit v.root.node).visitLeaf v.tail

end NodeCounts

/-- The nodes reached from the roots and tails of some vectors, each counted once. -/
def nodeCounts (vs : List (Vec α)) : NodeCounts :=
  (vs.foldl NodeCounts.Tally.visitVec ⟨∅, ⟨0, 0⟩⟩).counts

end RadixPool
