import RadixPool.Vec.Basic

/-!
Appending to a vector.

An element goes into the tail as long as the tail has room. A full tail moves into the tree as it
is, to the right of all leaves: below the last child if there is room, else as the leaf of a new
path. If the whole right edge of the tree is full, the tree gets a new root.

* `Node.countBelow`: the number of elements below a node, read off its right edge.
* `Node.tableFor`: the size table of a node that is about to get another child.
* `Branch.path`: a chain of new nodes down to a leaf.
* `Node.appendLeaf?`: a copy of a node with a leaf appended, unless there is no room.
* `Vec.push`, `Vec.ofList`: a vector with one more element, and the vector of a list.
-/

namespace RadixPool

variable {α : Type}

namespace Node

/-! ### Counting along the right edge -/

mutual

/-- The number of elements below a child of a node at level `shift`: the length of a leaf, the last
entry of a size table, or what the level makes of full children before the last one. -/
def countBelow (s : Shape) : Node α → (shift : Nat) → Nat
  | .leaf l, _ => l.items.length
  | .inner _ _ (some table), _ => table.getLastD 0
  | .inner _ cs none, shift => countFull s cs (shift - s.bits)

/-- The number of elements below the children of a node at level `shift` if all but the last are
full. -/
def countFull (s : Shape) : List (Node α) → (shift : Nat) → Nat
  | [], _ => 0
  | [c], shift => countBelow s c shift
  | _ :: c :: cs, shift => Word.add (Word.pow2 shift) (countFull s (c :: cs) shift)

end

/-- The cumulative sums of a list of counts. -/
def cumulative (before : Nat) : List Nat → List Nat
  | [] => []
  | n :: ns => Word.add before n :: cumulative (Word.add before n) ns

/-- The size table of a node at level `shift` that is about to get another child. A node without one
gets one exactly if its last child is not full, since then the level no longer tells where the next
child begins. -/
def tableFor (s : Shape) (shift : Nat) (cs : List (Node α)) :
    Option (List Nat) → Option (List Nat)
  | some table => some table
  | none =>
    match cs.getLast? with
    | none => none
    | some c =>
      if countBelow s c shift = Word.pow2 shift then none
      else some (cumulative 0 (cs.map fun c => countBelow s c shift))

/-- A size table with an entry for a further child of `n` elements. -/
def extendTable (n : Nat) (table : List Nat) : List Nat :=
  table ++ [Word.add (table.getLastD 0) n]

/-- A size table whose last child has grown by `n` elements. -/
def growTable (n : Nat) : List Nat → List Nat
  | [] => []
  | [m] => [Word.add m n]
  | m :: ms => m :: growTable n ms

end Node

/-! ### Appending a leaf -/

/-- A copy of an inner node at level `shift` with another child of `n` elements. -/
def Branch.appendChild (s : Shape) (shift : Nat) (cs : List (Node α))
    (sizes : Option (List Nat)) (c : Node α) (n : Nat) (id : NodeId) : Branch α :=
  ⟨id, cs ++ [c], (Node.tableFor s shift cs sizes).map (Node.extendTable n)⟩

/-- A chain of `above + 1` inner nodes, each with one child, down to a leaf. -/
def Branch.path (leaf : Leaf α) : (above : Nat) → NodeId → Branch α × NodeId
  | 0, next => (⟨next, [.leaf leaf], none⟩, next + 1)
  | above + 1, next =>
    let (b, next) := path leaf above next
    (⟨next, [b.node], none⟩, next + 1)

/-- The number of levels from `shift` down to the one above the leaves. -/
def Shape.levelsBelow (s : Shape) (shift : Nat) : Nat :=
  (shift - s.leafBits + s.bits - 1) / s.bits

namespace Node

mutual

/-- A copy of an inner node at level `shift` with a leaf appended on the right, or nothing if there
is no room. The last child is tried first; a node whose last child has no room takes a new path. -/
def appendLeaf? (s : Shape) (leaf : Leaf α) (next : NodeId) :
    Node α → (shift : Nat) → Option (Branch α × NodeId)
  | .leaf _, _ => none
  | .inner _ cs sizes, shift =>
    if shift = s.leafBits then
      if s.fanout ≤ cs.length then none
      else some (.appendChild s shift cs sizes (.leaf leaf) leaf.items.length next, next + 1)
    else
      match appendToLast? s leaf next cs (shift - s.bits) with
      | some (cs, next) => some (⟨next, cs, sizes.map (growTable leaf.items.length)⟩, next + 1)
      | none =>
        if s.fanout ≤ cs.length then none
        else
          let (b, next) := Branch.path leaf (s.levelsBelow (shift - s.bits)) next
          some (.appendChild s shift cs sizes b.node leaf.items.length next, next + 1)

/-- The children with the leaf appended below the last one, if it is an inner node with room. -/
def appendToLast? (s : Shape) (leaf : Leaf α) (next : NodeId) :
    List (Node α) → (shift : Nat) → Option (List (Node α) × NodeId)
  | [], _ => none
  | [c], shift => (appendLeaf? s leaf next c shift).map fun (b, next) => ([b.node], next)
  | c :: d :: cs, shift =>
    (appendToLast? s leaf next (d :: cs) shift).map fun (cs, next) => (c :: cs, next)

end

end Node

namespace Vec

/-- The tree with a full tail moved into it, and the level of its root. A new root needs no table if
the old tree was regular and exactly full. -/
def growTree (s : Shape) (v : Vec α) (next : NodeId) : (Branch α × Nat) × NodeId :=
  match Node.appendLeaf? s v.tail next v.root.node v.shift with
  | some (root, next) => ((root, v.shift), next)
  | none =>
    let (b, next) := Branch.path v.tail (s.levelsBelow v.shift) next
    let count := v.tailStart
    let isDense := Word.pow2? (v.shift + s.bits) = some count
    let sizes :=
      if v.root.isRelaxed ∨ ¬ isDense then some [count, Word.add count v.tail.items.length]
      else none
    ((⟨next, [v.root.node, b.node], sizes⟩, v.shift + s.bits), next + 1)

/-- The vector with an element appended. -/
def push (s : Shape) (v : Vec α) (x : α) : Fresh (Vec α) := fun next =>
  if v.tail.items.length < s.leafCapacity then
    ({ v with len := Word.add v.len 1, tail := ⟨next, v.tail.items ++ [x]⟩ }, next + 1)
  else
    let ((root, shift), next) := v.growTree s next
    (⟨Word.add v.len 1, shift, root, ⟨next, [x]⟩⟩, next + 1)

/-- The vector with the elements of a list appended one after the other. -/
def pushAll (s : Shape) (v : Vec α) (xs : List α) : Fresh (Vec α) := xs.foldlM (push s) v

/-- The vector of a list. -/
def ofList (s : Shape) (xs : List α) : Fresh (Vec α) := do pushAll s (← empty s) xs

end Vec

end RadixPool
