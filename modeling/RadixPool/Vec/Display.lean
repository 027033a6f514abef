import RadixPool.DataType
import RadixPool.Vec.Cursor

/-!
Vectors and nodes for display.

* `Vec.display`, `Branch.display`, `Leaf.display`.
-/

namespace RadixPool

variable {α : Type}

/-- The elements of a vector for display. -/
def Vec.display (write : α → String) (v : Vec α) : String := DataType.displayList write v.walk

/-- An inner node for display: how many children it has and whether it has a size table. -/
def Branch.display (b : Branch α) : String :=
  "InnerNode \x7b children: " ++ toString b.children.length ++ ", relaxed: "
    ++ (if b.isRelaxed then "true" else "false") ++ " \x7d"

/-- A leaf for display. -/
def Leaf.display (write : α → String) (l : Leaf α) : String :=
  "LeafNode(" ++ DataType.displayList write l.items ++ ")"

end RadixPool
