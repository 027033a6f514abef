import RadixPool.Pool.Basic
import RadixPool.Vec.Basic

/-!
Building pools.

Vectors are added one after the other. A node gets the next key when it is met for the first time:
the root of a vector first, then its tail, and all children of an inner node before any of them is
entered. A node that has its entry is not entered again.

* `Builder`: a pool in the making, with the key of every node met.
* `Builder.add`: adds a vector and gives its position; a vector with the root and the tail of an
  earlier one is that vector.
* `Builder.key?`, `Builder.ends?`, `Builder.position?`: what is known of nodes and vectors.
-/

namespace RadixPool

/-- A pool in the making. -/
structure Builder (α : Type) where
  pool : Pool α
  /-- The keys of the nodes met so far, by identity. -/
  keys : KeyMap Key

namespace Builder

variable {α : Type}

/-- The builder that has met no node. -/
def empty (shape : Shape) : Builder α := ⟨.empty shape, ∅⟩

/-- The key of a node, if it was met. -/
def key? (b : Builder α) (id : NodeId) : Option Key := b.keys.get? id

/-- The key of a node; a node not met before gets the next key. -/
def assign (b : Builder α) (id : NodeId) : Key × Builder α :=
  match b.key? id with
  | some k => (k, b)
  | none => (b.keys.size, { b with keys := b.keys.insert id b.keys.size })

/-- The keys of some nodes in turn. -/
def assignAll (b : Builder α) : List (Node α) → List Key × Builder α
  | [] => ([], b)
  | c :: cs =>
    let (k, b) := b.assign c.id
    let (ks, b) := b.assignAll cs
    (k :: ks, b)

/-- Enters a leaf under its key unless it is there. -/
def enterLeaf (b : Builder α) (k : Key) (items : List α) : Builder α :=
  if b.pool.leaves.contains k then b
  else { b with pool := { b.pool with leaves := b.pool.leaves.insert k items } }

/-- Enters an inner node under its key. -/
def enterInner (b : Builder α) (k : Key) (e : PooledBranch) : Builder α :=
  { b with pool := { b.pool with inners := b.pool.inners.insert k e } }

mutual

/-- Enters a node and all below it unless it is there. -/
def enter (b : Builder α) (k : Key) : Node α → Builder α
  | .leaf l => b.enterLeaf k l.items
  | .inner _ cs sizes =>
    if b.pool.inners.contains k then b
    else
      let (ks, b) := b.assignAll cs
      enterAll (b.enterInner k ⟨ks, sizes.isSome⟩) ks cs

/-- Enters some nodes under their keys in turn. -/
def enterAll (b : Builder α) : List Key → List (Node α) → Builder α
  | k :: ks, c :: cs => enterAll (enter b k c) ks cs
  | _, _ => b

end

/-- The position of the vector with these keys. -/
def find? (b : Builder α) (e : PooledVec) : Option Nat := b.pool.vectors.idxOf? e

/-- Adds a vector and gives its position. -/
def add (b : Builder α) (v : Vec α) : Nat × Builder α :=
  let (root, b) := b.assign v.root.id
  let (tail, b) := b.assign v.tail.id
  match b.find? ⟨root, tail⟩ with
  | some i => (i, b)
  | none =>
    let b := (b.enter root v.root.node).enterLeaf tail v.tail.items
    (b.pool.vectors.length,
      { b with pool := { b.pool with vectors := b.pool.vectors ++ [⟨root, tail⟩] } })

/-- Adds vectors in turn and gives their positions. -/
def addAll (b : Builder α) : List (Vec α) → List Nat × Builder α
  | [] => ([], b)
  | v :: vs =>
    let (i, b) := b.add v
    let (is, b) := b.addAll vs
    (i :: is, b)

/-- The keys of the root and the tail of a vector, if both were met. -/
def ends? (b : Builder α) (v : Vec α) : Option PooledVec :=
  match b.key? v.root.id, b.key? v.tail.id with
  | some root, some tail => some ⟨root, tail⟩
  | _, _ => none

/-- The position of a vector, if it was added. -/
def position? (b : Builder α) (v : Vec α) : Option Nat := (b.ends? v).bind b.find?

end Builder

end RadixPool
