import RadixPool.KeyMap
import RadixPool.Vec.Basic

/-!
The nodes of a family of vectors, listed.

Vectors are walked one after the other, the tree before the tail and a node before its children. A
node gets the next number when it is met for the first time, and is not entered again. Two vectors
share a node exactly if they name it by one number.

* `Census`: the numbers given out and the listing so far.
* `Census.visitVec`: lists a vector; its elements are written by a function, so vectors of different
  types can stand in one listing.
* `Census.nodes`: the listing.
-/

namespace RadixPool

variable {α ε : Type}

/-- A listed node. Children are named by their numbers. -/
inductive NodeEntry (ε : Type) where
  | leaf (items : List ε)
  | inner (children : List Nat) (sizes : Option (List Nat))

/-- A vector in a listing. -/
structure VecEntry where
  /-- The number of the root. -/
  root : Nat
  /-- The number of the tail. -/
  tail : Nat
  len : Nat
  shift : Nat

/-- The nodes listed so far. -/
structure Census (ε : Type) where
  /-- The number of each node met, by its identity. -/
  numbers : KeyMap Nat
  /-- The numbers given out so far. -/
  count : Nat
  /-- The entry of each node that has been walked, by its number. -/
  entries : KeyMap (NodeEntry ε)

namespace Census

/-- The listing without nodes. -/
def empty : Census ε := ⟨∅, 0, ∅⟩

/-- The number of a leaf, which is listed if it is new. -/
def visitLeaf (write : α → ε) (l : Leaf α) (c : Census ε) : Nat × Census ε :=
  match c.numbers.get? l.id with
  | some n => (n, c)
  | none =>
    (c.count, ⟨c.numbers.insert l.id c.count, c.count + 1,
      c.entries.insert c.count (.leaf (l.items.map write))⟩)

mutual

/-- The number of a node, which is listed with all below it if it is new. -/
def visit (write : α → ε) : Node α → Census ε → Nat × Census ε
  | .leaf l, c => visitLeaf write l c
  | .inner id cs sizes, c =>
    match c.numbers.get? id with
    | some n => (n, c)
    | none =>
      let n := c.count
      let (children, c) := visitAll write cs ⟨c.numbers.insert id n, n + 1, c.entries⟩
      (n, { c with entries := c.entries.insert n (.inner children sizes) })

/-- The numbers of a list of nodes, walked in turn. -/
def visitAll (write : α → ε) : List (Node α) → Census ε → List Nat × Census ε
  | [], c => ([], c)
  | d :: ds, c =>
    let (n, c) := visit write d c
    let (ns, c) := visitAll write ds c
    (n :: ns, c)

end

/-- Lists a vector. -/
def visitVec (write : α → ε) (v : Vec α) (c : Census ε) : VecEntry × Census ε :=
  let (root, c) := visit write v.root.node c
  let (tail, c) := visitLeaf write v.tail c
  (⟨root, tail, v.len, v.shift⟩, c)

/-- The listed nodes in the order of their numbers. -/
def nodes (c : Census ε) : List (NodeEntry ε) := c.entries.entries.map Prod.snd

end Census

end RadixPool
