import RadixPool.Pool.Plan
import RadixPool.Text.Quoted
import RadixPool.Vec.Basic

/-!
Loading vectors from a pool.

A pool is checked as a whole before anything is loaded from it. A node is built when it is needed
for the first time and kept, so a key gives one node for all vectors that are loaded.

* `Loader`: a checked pool with its plan and the nodes built so far.
* `Loader.ofPool`: checks a pool.
* `Loader.node`: the node of a key.
* `Loader.vecOf`, `Loader.load`: the vector of two keys, and the vector at a position.
-/

namespace RadixPool

/-- A checked pool and the nodes built from it. -/
structure Loader (α : Type) where
  /-- The name of the pool in messages. -/
  name : String
  pool : Pool α
  plan : Plan
  /-- The nodes built so far, by their keys. -/
  built : KeyMap (Node α)

/-- A computation that builds nodes: it keeps them even if it fails. Its state holds the nodes built
so far and the next unused identity. -/
abbrev Build (α : Type) := ExceptT Error (StateM (KeyMap (Node α) × NodeId))

namespace Loader

variable {α : Type}

/-- The loader of a pool, whose shape must be the expected one. -/
def ofPool (expected : Shape) (name : String) (p : Pool α) : Except Error (Loader α) :=
  if p.shape ≠ expected then
    .error (.shapeMismatch name expected (some p.shape.bits) (some p.shape.leafBits))
  else do
    p.check name
    let plan ← p.plan name
    p.vectors.forM (p.checkKinds name)
    return ⟨name, p, plan, ∅⟩

/-- The number of vectors in the pool. -/
def len (l : Loader α) : Nat := l.pool.vectors.length

/-- Whether the pool has no vectors. -/
def isEmpty (l : Loader α) : Bool := l.pool.vectors.isEmpty

/-- The number of nodes built so far. -/
def builtCount (l : Loader α) : Nat := l.built.size

/-- A loader for display. -/
def display (l : Loader α) : String :=
  "PoolLoader \x7b name: " ++ Quoted.text l.name ++ ", nodes: " ++ toString l.pool.nodeCount
    ++ ", vectors: " ++ toString l.len ++ ", materialized: " ++ toString l.builtCount ++ " \x7d"

/-- Builds a node under a key; `make` is given its identity. -/
def build (k : Key) (make : NodeId → Node α) : Build α (Node α) := do
  let (built, next) ← get
  let n := make next
  set (built.insert k n, next + 1)
  return n

/-- What the plan says of a key. -/
def info (l : Loader α) (k : Key) : Except Error NodeInfo :=
  match l.plan.get? k with
  | some info => .ok info
  | none => .error (.dangling l.name (.node k))

/-- The cumulative element counts of some nodes. -/
def sizeTable (l : Loader α) : (before : Nat) → List Key → Except Error (List Nat)
  | _, [] => .ok []
  | before, k :: ks => do
    let info ← l.info k
    let total := Word.add before info.size
    return total :: (← sizeTable l total ks)

/-- The size table of an inner node, if it has one. -/
def sizesOf (l : Loader α) (e : PooledBranch) : Except Error (Option (List Nat)) :=
  if e.relaxed then (l.sizeTable 0 e.children).map some else .ok none

/-- How many levels a tree has at most, its leaves counted: an inner node one level up shifts by at
least one bit more, and a shift is less than the width of a word. -/
def maxLevels : Nat := Word.width + 1

/-- The node of a key in a tree of at most `levels` levels. A node built before is handed out again;
otherwise its children come first. -/
def node (l : Loader α) : (levels : Nat) → Key → Build α (Node α)
  | 0, k => throw (.invariant l.name (.cycle k))
  | levels + 1, k => do
    match (← get).1.get? k with
    | some n => return n
    | none =>
      match l.pool.leaves.get? k with
      | some items => build k fun id => .leaf ⟨id, items⟩
      | none =>
        match l.pool.inners.get? k with
        | none => throw (.dangling l.name (.node k))
        | some e =>
          let children ← e.children.mapM (node l levels)
          let sizes ← ExceptT.mk (pure (l.sizesOf e))
          build k fun id => .inner id children sizes

/-- The vector of a root and a tail, given by their keys. -/
def vecOfM (l : Loader α) (v : PooledVec) : Build α (Vec α) := do
  match ← l.node maxLevels v.root with
  | .leaf _ => throw (.invariant l.name (.rootIsLeaf v.root))
  | .inner id cs sizes =>
    match ← l.node maxLevels v.tail with
    | .inner _ _ _ => throw (.invariant l.name (.tailIsInner v.tail))
    | .leaf tail =>
      let info ← ExceptT.mk (pure (l.info v.root))
      return ⟨Word.add info.size tail.items.length, l.pool.shape.shiftAt info.height,
        ⟨id, cs, sizes⟩, tail⟩

/-- The vector of a root and a tail. What was built stays built, even if there is no such vector. -/
def vecOf (l : Loader α) (v : PooledVec) : Fresh (Except Error (Vec α) × Loader α) :=
  fun next =>
    let (r, built, next) := (l.vecOfM v).run.run (l.built, next)
    ((r, { l with built }), next)

/-- The vector at a position of the pool. -/
def load (l : Loader α) (i : Nat) : Fresh (Except Error (Vec α) × Loader α) :=
  match l.pool.vectors[i]? with
  | some v => l.vecOf v
  | none => return (.error (.dangling l.name (.vector i)), l)

end Loader

end RadixPool
