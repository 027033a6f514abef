import RadixPool.Pool.Basic

/-!
The plan of a pool.

Before any node of a pool is built, the height and the element count of every node are worked out,
the children of a node before the node itself. This fails if a node lies below itself, if the
children of a node differ in height, if a regular node has a child before its last one that is not
full, or if a count or a level is no word.

* `NodeInfo`, `Plan`: height and count of a node, and those of all nodes.
* `Pool.measure`: height and count of an inner node from those of its children.
* `Pool.visit`: plans a node and all below it.
* `Pool.plan`: the plan of a pool.
-/

namespace RadixPool

/-- Height and element count of a node. -/
structure NodeInfo where
  /-- The number of inner levels; a leaf has none. -/
  height : Nat
  /-- The number of elements below the node. -/
  size : Nat
deriving DecidableEq

/-- The nodes that are done. -/
abbrev Plan := KeyMap NodeInfo

namespace Shape

/-- The level of an inner node of a height. -/
def shiftAt (s : Shape) (height : Nat) : Nat := s.leafBits + s.bits * (height - 1)

/-- The element count of a full node of a height, if it is a word. -/
def fullSize? (s : Shape) (height : Nat) : Option Nat :=
  Word.pow2? (s.bits * height + s.leafBits)

end Shape

namespace Pool

variable {α : Type}

/-- Adds up the children of an inner node. `height` is the height of the children before; each child
but the last of a regular node must be full. -/
def sumChildren (name : String) (p : Pool α) (plan : Plan) (k : Key) (relaxed : Bool) :
    (height : Option Nat) → (size : Nat) → List Key → Except Error NodeInfo
  | height, size, [] => .ok ⟨(height.map (· + 1)).getD 1, size⟩
  | height, size, c :: cs =>
    match plan.get? c with
    | none => .error (.dangling name (.node c))
    | some info =>
      if (height.getD info.height) ≠ info.height then .error (.invariant name (.unevenChildren k))
      else if !relaxed ∧ cs ≠ [] ∧ p.shape.fullSize? info.height ≠ some info.size then
        .error (.invariant name (.partialChild k c))
      else match Word.add? size info.size with
        | none => .error (.invariant name (.sizeOverflow k))
        | some size => sumChildren name p plan k relaxed (some info.height) size cs

/-- Height and count of an inner node whose children are done. -/
def measure (name : String) (p : Pool α) (plan : Plan) (k : Key) (e : PooledBranch) :
    Except Error NodeInfo := do
  let info ← p.sumChildren name plan k e.relaxed none 0 e.children
  if p.shape.shiftAt info.height < Word.width then return info
  else throw (.invariant name (.tooDeep k info.height))

/-- Plans a node and all below it, children in order. `path` lists the nodes under way; to meet one
of them again is to have found a cycle. So is to run out of `fuel`, which bounds the length of a
path without repetition. -/
def visit (name : String) (p : Pool α) :
    (fuel : Nat) → (path : List Key) → Plan → Key → Except Error Plan
  | 0, _, _, k => .error (.invariant name (.cycle k))
  | fuel + 1, path, plan, k =>
    if path.contains k then .error (.invariant name (.cycle k))
    else if plan.contains k then .ok plan
    else match p.inners.get? k with
      | none => .error (.dangling name (.node k))
      | some e => do
        let plan ← e.children.foldlM (visit name p fuel (k :: path)) plan
        let info ← p.measure name plan k e
        return plan.insert k info

/-- The plan of a pool: leaves first, then the inner nodes from the least key on. -/
def plan (name : String) (p : Pool α) : Except Error Plan :=
  p.inners.keys.foldlM (visit name p (p.inners.size + 1) [])
    (p.leaves.mapValues fun items => ⟨0, items.length⟩)

/-- Refuses a vector whose root is no inner node or whose tail is no leaf. -/
def checkKinds (name : String) (p : Pool α) (v : PooledVec) : Except Error Unit :=
  if !p.inners.contains v.root then .error (.invariant name (.rootIsLeaf v.root))
  else if !p.leaves.contains v.tail then .error (.invariant name (.tailIsInner v.tail))
  else .ok ()

end Pool

end RadixPool
