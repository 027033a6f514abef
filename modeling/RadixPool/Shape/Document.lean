import RadixPool.Json.Reader
import RadixPool.Shape

/-!
Shapes as documents.

* `Shape.toJson`: the object with the two parts.
* `Shape.ofText?`: reads a shape from JSON text. Members that are not known are skipped as they
  stand; a part that is repeated or missing is a fault.
-/

namespace RadixPool.Shape

/-- The document of a shape. -/
def toJson (s : Shape) : Json := .obj [("B", .nat s.bits), ("BL", .nat s.leafBits)]

/-- A part of a shape: a number below `2^32`. -/
def part? : Written → Option Nat
  | .number n => n.toJson?.bind fun j => j.natBelow? partLimit
  | _ => none

/-- Reads members in turn. -/
def ofMembers? : (bits leafBits : Option Nat) → List (Option String × Written) → Option Shape
  | some bits, some leafBits, [] => some ⟨bits, leafBits⟩
  | _, _, [] => none
  | _, _, (none, _) :: _ => none
  | bits, leafBits, (some name, w) :: ms =>
    if name = "B" then
      match bits, part? w with
      | none, some n => ofMembers? (some n) leafBits ms
      | _, _ => none
    else if name = "BL" then
      match leafBits, part? w with
      | none, some n => ofMembers? bits (some n) ms
      | _, _ => none
    else ofMembers? bits leafBits ms

/-- The shape of a tree of what is written. -/
def ofWritten? : Written → Option Shape
  | .obj members => ofMembers? none none members
  | .arr [b, l] => do return ⟨← part? b, ← part? l⟩
  | _ => none

/-- The shape that a text spells. -/
def ofText? (s : String) : Option Shape := (Written.ofText? s).bind ofWritten?

end RadixPool.Shape
