import RadixPool.Error
import RadixPool.KeyMap

/-!
Pools.

A pool holds the nodes of some vectors of one type, each node once and under a key of its own, and
lists the vectors by the keys of their roots and tails.

* `PooledBranch`, `PooledVec`, `Pool`: the entries of a pool and the pool.
* `Pool.check`: leaves and inner nodes stay within the limits of the shape, and every key that is
  referred to is in use.
-/

namespace RadixPool

/-- An inner node of a pool. -/
structure PooledBranch where
  children : List Key
  /-- Whether the node carries a size table when it is loaded. -/
  relaxed : Bool
deriving DecidableEq

/-- A vector of a pool. -/
structure PooledVec where
  root : Key
  tail : Key
deriving DecidableEq

/-- The nodes and vectors of one container type. -/
structure Pool (α : Type) where
  shape : Shape
  inners : KeyMap PooledBranch
  leaves : KeyMap (List α)
  /-- The vectors; a saved vector is named by its position in this list. -/
  vectors : List PooledVec

namespace Pool

variable {α : Type}

/-- The pool without nodes. -/
def empty (shape : Shape) : Pool α := ⟨shape, ∅, ∅, []⟩

/-- The number of nodes. -/
def nodeCount (p : Pool α) : Nat := p.inners.size + p.leaves.size

/-- Whether a key is in use. -/
def contains (p : Pool α) (k : Key) : Bool := p.inners.contains k || p.leaves.contains k

/-- Whether there are neither nodes nor vectors. -/
def isEmpty (p : Pool α) : Bool := p.inners.isEmpty && p.leaves.isEmpty && p.vectors.isEmpty

/-- Equality of pools, elements compared by `same`. -/
def sameBy (same : α → α → Bool) (p q : Pool α) : Bool :=
  p.shape == q.shape && p.inners == q.inners
    && p.leaves.entries.isEqv q.leaves.entries
      (fun a b => a.1 == b.1 && a.2.isEqv b.2 same)
    && p.vectors == q.vectors

/-- Refuses a key that is not in use. -/
def checkKey (name : String) (p : Pool α) (k : Key) : Except Error Unit :=
  if p.contains k then .ok () else .error (.dangling name (.node k))

/-- Refuses a leaf with too many elements. -/
def checkLeaf (name : String) (p : Pool α) (k : Key) (items : List α) : Except Error Unit :=
  if p.shape.leafCapacity < items.length then
    .error (.invariant name (.oversizedLeaf k items.length p.shape.leafCapacity))
  else .ok ()

/-- Refuses an inner node with too many children or with a child that does not exist. -/
def checkInner (name : String) (p : Pool α) (k : Key) (e : PooledBranch) : Except Error Unit :=
  if p.shape.fanout < e.children.length then
    .error (.invariant name (.tooManyChildren k e.children.length p.shape.fanout))
  else e.children.forM (p.checkKey name)

/-- Checks the leaves, then the inner nodes, both from the least key on, then the vectors in order.
The first fault is reported. -/
def check (name : String) (p : Pool α) : Except Error Unit := do
  p.leaves.entries.forM fun (k, items) => p.checkLeaf name k items
  p.inners.entries.forM fun (k, e) => p.checkInner name k e
  p.vectors.forM fun v => do
    p.checkKey name v.root
    p.checkKey name v.tail

end Pool

end RadixPool
