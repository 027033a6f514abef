import RadixPool.Decimal.Shortest
import RadixPool.Json.Basic
import RadixPool.Word

/-!
Numbers in JSON text.

* `Numeral`: a number as it is written, in digits.
* `Numeral.toJson?`: the number it stands for. An integer in `-2^63 .. 2^64-1` stays one; all else
  is a double, and a double out of range is refused.
* `Json.floatText`: the text of a double, in the fewest digits that read back.
-/

namespace RadixPool

/-- A number as it is written. -/
structure Numeral where
  negative : Bool
  whole : List Nat
  /-- The digits after the point, if there is one. -/
  fraction : Option (List Nat)
  /-- Whether the exponent is negative, and its digits. -/
  exponent : Option (Bool × List Nat)

namespace Numeral

/-- Takes digits into a significand as long as it stays below `limit`, and gives it with the digits
that are left. -/
def gather (limit : Nat) : Nat → List Nat → Nat × List Nat
  | sig, [] => (sig, [])
  | sig, d :: ds => if sig * 10 + d < limit then gather limit (sig * 10 + d) ds else (sig, d :: ds)

/-- The double `sig * 10^exponent`: one product or quotient with a power of ten up to `10^308`,
after quotients by `10^308` for smaller exponents. A word is zero after three of those. -/
def scale (sig : Nat) (exponent : Int) : Option Float :=
  let f := sig.toUInt64.toFloat
  if 0 ≤ exponent then
    if exponent ≤ 308 then
      let g := f * Float.ofScientific 1 false exponent.toNat
      if g.isInf then none else some g
    else if sig = 0 then some f
    else none
  else
    let steps := ((-exponent).toNat - 1) / 308
    let g := Nat.repeat (· / 1e308) (min steps 3) f
    some (if 3 ≤ steps then g else g / Float.ofScientific 1 false ((-exponent).toNat - 308 * steps))

/-- The double of a significand with its exponent and sign. -/
def toFloat? (negative : Bool) (sig : Nat) (exponent : Int) : Option Json :=
  (scale sig exponent).map fun f => .float (if negative then -f else f).toBits

/-- The greatest exponent that is read digit by digit. -/
def exponentLimit : Nat := 2147483647

/-- The number that is written. Digits that no longer fit into a 64-bit significand are dropped,
those before the point with a count in the exponent; an exponent beyond 32 bits gives zero, or
nothing. -/
def toJson? (n : Numeral) : Option Json :=
  let (sig, left) := gather Word.count 0 n.whole
  match n.fraction, n.exponent with
  | none, none =>
    if left = [] then
      if !n.negative then some (.int sig)
      else if sig ≠ 0 ∧ sig ≤ 9223372036854775808 then some (.int (-sig))
      else toFloat? true sig 0
    else toFloat? n.negative sig left.length
  | fraction, exponent =>
    let digits := fraction.getD []
    let (sig, rest) := gather Word.count sig digits
    let shift : Int := left.length - (digits.length - rest.length : Nat)
    match exponent with
    | none => toFloat? n.negative sig shift
    | some (down, ds) =>
      match gather (exponentLimit + 1) 0 ds with
      | (e, []) => toFloat? n.negative sig (if down then shift - e else shift + e)
      | _ => if sig = 0 ∨ down then toFloat? n.negative 0 0 else none

end Numeral

namespace Json

/-- The text of an exponent, which always has its sign. -/
def exponentText (e : Int) : String := if e < 0 then toString e else "+" ++ toString e

/-- The text of a positive decimal: positional below `10^16` and from `10^-5` on, with an exponent
otherwise; a whole number ends in `.0` unless it has an exponent. -/
def decimalText (d : Decimal) : String :=
  let ds := Nat.toDigits 10 d.digits
  let point : Int := ds.length + d.exponent
  if 0 ≤ d.exponent ∧ point ≤ 16 then
    String.ofList (ds ++ List.replicate d.exponent.toNat '0') ++ ".0"
  else if 0 < point ∧ point ≤ 16 then
    String.ofList (ds.take point.toNat) ++ "." ++ String.ofList (ds.drop point.toNat)
  else if -5 < point ∧ point ≤ 0 then
    "0." ++ String.ofList (List.replicate (-point).toNat '0' ++ ds)
  else
    let mantissa := match ds with
      | [c] => String.ofList [c]
      | c :: cs => String.ofList (c :: '.' :: cs)
      | [] => ""
    mantissa ++ "e" ++ exponentText (point - 1)

/-- The text of a double. -/
def floatText (bits : UInt64) : String :=
  let sign := if Double.isNegative bits then "-" else ""
  if Double.isZero bits then sign ++ "0.0"
  else sign ++ decimalText (Decimal.shortest bits)

end Json

end RadixPool
