import RadixPool.Shape
import RadixPool.Text.Quoted
import RadixPool.TypeFamily

/-!
Container types.

* `ContainerType`: vectors of one element type and one shape, with the text that names the type in
  messages.
-/

namespace RadixPool

/-- A type of vectors. -/
structure ContainerType [TypeFamily] where
  /-- The text that names the type in messages. -/
  label : String
  elem : TypeFamily.Kind
  shape : Shape
  valid : shape.Valid
deriving DecidableEq

namespace ContainerType

variable [TypeFamily]

/-- The elements of the vectors. -/
abbrev Elem (C : ContainerType) : Type := C.elem.Value

/-- A container type for display. -/
def display (C : ContainerType) : String :=
  "PoolType \x7b type_name: " ++ Quoted.text C.label ++ ", shape: TreeShape \x7b bits: "
    ++ toString C.shape.bits ++ ", leaf_bits: " ++ toString C.shape.leafBits ++ " \x7d \x7d"

end ContainerType

end RadixPool
