/-!
The fields of a double.

The bits of a double are a sign, a field of eleven bits for its exponent and a fraction of 52 bits.

* `Double.isNegative`, `Double.exponentField`, `Double.fraction`: the fields.
* `Double.isFinite`, `Double.isZero`: the kinds of value that they tell apart.
-/

namespace RadixPool.Double

/-- Whether the sign is set. -/
def isNegative (bits : UInt64) : Bool := 0x8000000000000000 ≤ bits.toNat

/-- The field for the exponent. -/
def exponentField (bits : UInt64) : Nat := (bits.toNat >>> 52) % 0x800

/-- The fraction. -/
def fraction (bits : UInt64) : Nat := bits.toNat % 0x10000000000000

/-- Whether the value is a number; the greatest exponent stands for all that is none. -/
def isFinite (bits : UInt64) : Bool := exponentField bits ≠ 0x7ff

/-- Whether the value is one of the two zeros. -/
def isZero (bits : UInt64) : Bool := exponentField bits = 0 ∧ fraction bits = 0

end RadixPool.Double
