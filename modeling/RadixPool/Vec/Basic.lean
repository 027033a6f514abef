import RadixPool.Node
import RadixPool.Shape

/-!
Persistent vectors.

A vector is a tree of elements together with a tail: the first elements lie in the tree, the last
ones in the tail leaf. At level `shift` of the tree a node without a size table finds position `i`
in its child number `i / 2^shift`; a relaxed node looks the child up in its table.

* `Vec`, `Vec.empty`, `Vec.toList`: vectors and the list of their elements.
* `Node.route`: the child that holds a position.
* `Vec.get?`: the element at a position.
* `Vec.set?`: the vector with the element at a position replaced; only the nodes on the way to it
  are made anew.
-/

namespace RadixPool

/-- A persistent vector. -/
structure Vec (α : Type) where
  /-- The number of elements. -/
  len : Nat
  /-- The level of the root. -/
  shift : Nat
  root : Branch α
  tail : Leaf α

variable {α : Type}

namespace Node

/-- The child that holds position `idx` of a node at level `shift`, and the position below that
child. -/
def route (s : Shape) (sizes : Option (List Nat)) (shift idx : Nat) : Option (Nat × Nat) :=
  match sizes with
  | some table =>
    let passed := table.takeWhile (· ≤ idx)
    if passed.length < table.length then some (passed.length, idx - passed.getLastD 0) else none
  | none => some (Word.shiftRight idx shift % s.fanout, idx % Word.pow2 shift)

mutual

/-- The element at a position below a node at level `shift`. -/
def get? (s : Shape) : Node α → (shift idx : Nat) → Option α
  | .leaf l, _, idx => l.items[idx]?
  | .inner _ cs sizes, shift, idx =>
    match route s sizes shift idx with
    | some (slot, sub) => getBelow? s cs slot (shift - s.bits) sub
    | none => none

/-- The element at a position below the child with number `slot`. -/
def getBelow? (s : Shape) : List (Node α) → (slot shift idx : Nat) → Option α
  | [], _, _, _ => none
  | c :: _, 0, shift, idx => get? s c shift idx
  | _ :: cs, slot + 1, shift, idx => getBelow? s cs slot shift idx

end

mutual

/-- A copy of a node at level `shift` with the element at a position replaced. The copies on the way
draw their identities from `next` on. -/
def set? (s : Shape) (x : α) (next : NodeId) :
    Node α → (shift idx : Nat) → Option (Node α × NodeId)
  | .leaf l, _, idx =>
    if idx < l.items.length then some (.leaf ⟨next, l.items.set idx x⟩, next + 1) else none
  | .inner _ cs sizes, shift, idx =>
    match route s sizes shift idx with
    | some (slot, sub) =>
      match setBelow? s x next cs slot (shift - s.bits) sub with
      | some (cs, next) => some (.inner next cs sizes, next + 1)
      | none => none
    | none => none

/-- The children with the one numbered `slot` replaced by a copy. -/
def setBelow? (s : Shape) (x : α) (next : NodeId) :
    List (Node α) → (slot shift idx : Nat) → Option (List (Node α) × NodeId)
  | [], _, _, _ => none
  | c :: cs, 0, shift, idx => (set? s x next c shift idx).map fun (c, next) => (c :: cs, next)
  | c :: cs, slot + 1, shift, idx =>
    (setBelow? s x next cs slot shift idx).map fun (cs, next) => (c :: cs, next)

end

end Node

namespace Vec

/-- The vector without elements; its root and its tail are new. -/
def empty (s : Shape) : Fresh (Vec α) := do
  let root ← Fresh.draw
  let tail ← Fresh.draw
  return ⟨0, s.leafBits, ⟨root, [], none⟩, ⟨tail, []⟩⟩

/-- Whether there are no elements. -/
def isEmpty (v : Vec α) : Bool := v.len == 0

/-- The elements in order: those of the tree, then those of the tail. -/
def toList (v : Vec α) : List α := v.root.elements ++ v.tail.items

/-- The position of the first element of the tail. -/
def tailStart (v : Vec α) : Nat := Word.sub v.len v.tail.items.length

/-- The element at a position. -/
def get? (s : Shape) (v : Vec α) (i : Nat) : Option α :=
  if v.len ≤ i then none
  else if v.tailStart ≤ i then v.tail.items[i - v.tailStart]?
  else v.root.node.get? s v.shift i

/-- The vector with the element at a position replaced, if there is one. -/
def set? (s : Shape) (v : Vec α) (i : Nat) (x : α) : Fresh (Option (Vec α)) := fun next =>
  if v.len ≤ i then (none, next)
  else if v.tailStart ≤ i then
    (some { v with tail := ⟨next, v.tail.items.set (i - v.tailStart) x⟩ }, next + 1)
  else
    match Node.route s v.root.sizes v.shift i with
    | some (slot, sub) =>
      match Node.setBelow? s x next v.root.children slot (v.shift - s.bits) sub with
      | some (cs, next) => (some { v with root := ⟨next, cs, v.root.sizes⟩ }, next + 1)
      | none => (none, next)
    | none => (none, next)

end Vec

end RadixPool
