/-!
The nodes of a tree.

A node has an identity of its own: two nodes are the same node exactly if they have the same
identity, whatever they hold. Trees share a node by holding a node of one identity. New nodes take
their identity from a supply of numbers not used before.

* `Node`: a leaf with its elements, or an inner node with its children and, if it is relaxed, the
  cumulative element counts of its children.
* `Leaf`, `Branch`: the two kinds of node on their own.
* `Fresh`: a computation that draws identities.
* `Node.elements`: the elements below a node, in order.
* `Node.induct`: induction over a node and the list of its children.
-/

namespace RadixPool

/-- The identity of a node. -/
abbrev NodeId := Nat

/-- A computation that draws identities from the supply; its state is the next unused one. -/
abbrev Fresh (σ : Type) := StateM NodeId σ

/-- Draws the next identity. -/
def Fresh.draw : Fresh NodeId := fun next => (next, next + 1)

/-- A leaf: a run of elements. -/
structure Leaf (α : Type) where
  id : NodeId
  items : List α

/-- A node of either kind. -/
inductive Node (α : Type) where
  | leaf (l : Leaf α)
  /-- An inner node. `sizes` holds for each child the number of elements up to its end; without it
  all children but the last are full. -/
  | inner (id : NodeId) (children : List (Node α)) (sizes : Option (List Nat))

/-- An inner node on its own. -/
structure Branch (α : Type) where
  id : NodeId
  children : List (Node α)
  sizes : Option (List Nat)

variable {α β : Type}

/-- An inner node as a node. -/
def Branch.node (b : Branch α) : Node α := .inner b.id b.children b.sizes

/-- Whether an inner node carries a size table. -/
def Branch.isRelaxed (b : Branch α) : Bool := b.sizes.isSome

namespace Node

/-- The identity of a node. -/
def id : Node α → NodeId
  | .leaf l => l.id
  | .inner id _ _ => id

/-- Whether a node is a leaf. -/
def isLeaf : Node α → Bool
  | .leaf _ => true
  | .inner _ _ _ => false

@[simp] theorem id_leaf (l : Leaf α) : (Node.leaf l).id = l.id := rfl

@[simp] theorem id_inner (i : NodeId) (cs : List (Node α)) (sizes : Option (List Nat)) :
    (Node.inner i cs sizes).id = i := rfl

/-- Induction over a node: the children of an inner node come with the hypothesis for each. -/
theorem induct {motive : Node α → Prop} (leaf : ∀ l, motive (.leaf l))
    (inner : ∀ id cs sizes, (∀ c ∈ cs, motive c) → motive (.inner id cs sizes)) (n : Node α) :
    motive n :=
  Node.rec (motive_1 := motive) (motive_2 := fun cs => ∀ c ∈ cs, motive c) leaf inner
    (fun _ h => nomatch h)
    (fun _ _ hc hcs _ h => (List.mem_cons.1 h).elim (fun e => e ▸ hc) (hcs _)) n

/-! ### The elements below a node -/

mutual

/-- The elements below a node, in order. -/
def elements : Node α → List α
  | .leaf l => l.items
  | .inner _ cs _ => elementsAll cs

/-- The elements below a list of nodes, in order. -/
def elementsAll : List (Node α) → List α
  | [] => []
  | c :: cs => elements c ++ elementsAll cs

end

theorem elementsAll_eq (cs : List (Node α)) : elementsAll cs = cs.flatMap elements := by
  induction cs with
  | nil => simp [elementsAll]
  | cons c cs ih => simp [elementsAll, ih]

end Node

/-- The elements below an inner node, in order. -/
def Branch.elements (b : Branch α) : List α := Node.elementsAll b.children

@[simp] theorem Branch.elements_node (b : Branch α) : b.node.elements = b.elements := by
  simp [Branch.node, Node.elements, Branch.elements]

end RadixPool
