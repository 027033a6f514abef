import RadixPool.Decimal.Double

/-!
The fewest decimal digits that read back.

A double stands for all reals that round to it. Its short decimal is the one with the fewest digits
in that interval, and of two with that many digits the nearer one; of two equally near ones the one
with the even last digit.

* `Decimal`: digits with an exponent.
* `Decimal.Binary`: a positive double with the ends of its interval.
* `Decimal.shortest`: the short decimal of a double.
-/

namespace RadixPool

/-- A decimal number `digits * 10^exponent`. -/
structure Decimal where
  digits : Nat
  exponent : Int
deriving DecidableEq

namespace Decimal

/-- A positive finite double, in quarters of its last place: the value is `4 * m * 2^exponent`, and
the reals that round to it lie between `low * 2^exponent` and `high * 2^exponent`. -/
structure Binary where
  /-- Four times the significand. -/
  mid : Nat
  low : Nat
  high : Nat
  /-- Whether the two ends round to the value themselves. -/
  closed : Bool
  exponent : Int

/-- The double with these bits, its sign left out. Below a power of two the neighbours stand twice
as close, so the interval reaches half as far down there. -/
def Binary.ofBits (bits : UInt64) : Binary :=
  let field := Double.exponentField bits
  let fraction := Double.fraction bits
  let m := if field = 0 then fraction else fraction + 0x10000000000000
  let below := if fraction = 0 ∧ 1 < field then 1 else 2
  { mid := 4 * m, low := 4 * m - below, high := 4 * m + 2, closed := m % 2 = 0
    exponent := (max field 1 : Nat) - 1077 }

/-- A power; it is one for a negative exponent. -/
def power (base : Nat) (exponent : Int) : Nat := Nat.pow base exponent.toNat

/-- Compares `a * 2^p` with `b * 10^k`. -/
def compareScaled (a : Nat) (p : Int) (b : Nat) (k : Int) : Ordering :=
  compare (a * power 2 p * power 10 (-k)) (b * power 2 (-p) * power 10 k)

/-- Whether `c * 10^k` rounds to the value. -/
def Binary.admits (x : Binary) (c : Nat) (k : Int) : Bool :=
  let low := compareScaled x.low x.exponent c k
  let high := compareScaled x.high x.exponent c k
  if x.closed then low != .gt && high != .lt else low == .lt && high == .gt

/-- The greatest `c` for which `c * 10^k` does not exceed the value. -/
def Binary.floorAt (x : Binary) (k : Int) : Nat :=
  (x.mid * power 2 x.exponent * power 10 (-k)) / (power 2 (-x.exponent) * power 10 k)

/-- The decimal exponent of the leading digit. -/
def Binary.magnitude (x : Binary) : Int :=
  let num := x.mid * power 2 x.exponent
  let den := power 2 (-x.exponent)
  let guess : Int := (Nat.toDigits 10 num).length - (Nat.toDigits 10 den).length
  if x.floorAt guess = 0 then guess - 1 else guess

/-- The decimal on the grid of `10^k` that rounds to the value, the nearer one if both neighbours
do. -/
def Binary.onGrid? (x : Binary) (k : Int) : Option Nat :=
  let c := x.floorAt k
  match x.admits c k && 0 < c, x.admits (c + 1) k with
  | true, true =>
    match compareScaled (2 * x.mid) x.exponent (2 * c + 1) k with
    | .lt => some c
    | .gt => some (c + 1)
    | .eq => some (if c % 2 = 0 then c else c + 1)
  | true, false => some c
  | false, true => some (c + 1)
  | false, false => none

/-- Drops zeros at the end of the digits. -/
def trim : Nat → Decimal → Decimal
  | 0, d => d
  | n + 1, d =>
    if d.digits ≠ 0 ∧ d.digits % 10 = 0 then trim n ⟨d.digits / 10, d.exponent + 1⟩ else d

/-- The decimal with the fewest digits that rounds to the value; seventeen always suffice. -/
def shortest (bits : UInt64) : Decimal :=
  let x := Binary.ofBits bits
  let top := x.magnitude
  let grids : List Int := (List.range 17).map fun (n : Nat) => top - n
  match grids.findSome? fun k => (x.onGrid? k).map fun c => (⟨c, k⟩ : Decimal) with
  | some d => d.trim 20
  | none => ⟨0, 0⟩

end Decimal

end RadixPool
