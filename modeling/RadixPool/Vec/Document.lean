import RadixPool.Json.Reader
import RadixPool.Vec.Cursor
import RadixPool.Vec.Push

/-!
Vectors as documents.

On its own a vector is written as the array of its elements. Nothing of its tree is kept: when it is
read back, the elements are appended one after the other.

* `Vec.toJson`: the document of a vector.
* `Vec.ofText?`: the vector that a JSON text spells.
-/

namespace RadixPool.Vec

variable {α : Type}

/-- The array of the elements. -/
def toJson (write : α → Json) (v : Vec α) : Json := .arr (v.walk.map write)

/-- The vector of an array, if every item can be read. -/
def ofJson? (s : Shape) (read? : Json → Option α) (j : Json) : Fresh (Option (Vec α)) :=
  match j.listOf? read? with
  | some xs => some <$> ofList s xs
  | none => return none

/-- The vector that a JSON text spells. -/
def ofText? (s : Shape) (read? : Json → Option α) (text : String) : Fresh (Option (Vec α)) :=
  match Json.ofText? text with
  | some j => ofJson? s read? j
  | none => return none

end RadixPool.Vec
