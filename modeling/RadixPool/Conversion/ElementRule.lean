import RadixPool.Conversion.Basic
import RadixPool.DataType
import RadixPool.Json.Printer

/-!
Element rules.

An element rule is a function on documents. Between two container types it makes an element
function: the element is written, the rule is applied, and the result is read as an element of the
target.

* `ElementRule`, `ElementRule.apply`: the rules.
* `ElementRule.convert`: the element function between two types.
-/

namespace RadixPool

/-- A function on documents. -/
inductive ElementRule where
  /-- The element itself. -/
  | keep
  /-- An integer plus a number. -/
  | add (k : Int)
  /-- An integer times a number. -/
  | multiply (k : Int)
  /-- The element unless it is a negative integer. -/
  | notNegative
  /-- The text of the element. -/
  | text
  /-- The length of a string in bytes or of an array in items. -/
  | length
  /-- A string in upper-case ASCII letters. -/
  | upper
  /-- The integer that a string spells. -/
  | integer
  /-- The array of the element alone. -/
  | wrap
  | null
  /-- A rule that nobody knows; it always fails. -/
  | unknown

namespace ElementRule

/-- An integer between `-2^63` and `2^64-1`. -/
def bounded (n : Int) : Except String Json :=
  if -9223372036854775808 ≤ n ∧ n < Word.count then .ok (.int n) else .error "out of range"

/-- Applies a function to an integer. -/
def onInteger (f : Int → Except String Json) (j : Json) : Except String Json :=
  match j.int? with
  | some n => f n
  | none => .error "not an integer"

/-- The number that ASCII digits spell; there is at least one. -/
def digitsValue? : List Char → Option Nat
  | [] => none
  | cs =>
    if cs.all Char.isDigit then some (cs.foldl (fun n c => n * 10 + (c.toNat - 48)) 0) else none

/-- The integer that a string spells: digits after at most one sign, between `-2^63` and
`2^63-1`. -/
def integerOf? (s : String) : Option Int :=
  let spelled : Option Int := match s.toList with
    | '-' :: cs => (digitsValue? cs).map fun n => -(n : Int)
    | '+' :: cs => (digitsValue? cs).map Int.ofNat
    | cs => (digitsValue? cs).map Int.ofNat
  spelled.filter fun n => -9223372036854775808 ≤ n ∧ n < 9223372036854775808

/-- Applies a rule to a document. -/
def apply : ElementRule → Json → Except String Json
  | .keep, j => .ok j
  | .add k, j => onInteger (fun n => bounded (n + k)) j
  | .multiply k, j => onInteger (fun n => bounded (n * k)) j
  | .notNegative, .int n =>
    if n < 0 then .error ("negative element " ++ toString n) else .ok (.int n)
  | .notNegative, j => .ok j
  | .text, .str s => .ok (.str s)
  | .text, j => .ok (.str j.compact)
  | .length, .str s => .ok (.nat s.utf8ByteSize)
  | .length, .arr items => .ok (.nat items.length)
  | .length, _ => .error "no length"
  | .upper, .str s => .ok (.str (s.map Char.toUpper))
  | .upper, j => .ok j
  | .integer, .str s =>
    match integerOf? s with
    | some n => .ok (.int n)
    | none => .error "not a number"
  | .integer, _ => .error "not a number"
  | .wrap, j => .ok (.arr [j])
  | .null, _ => .ok .null
  | .unknown, _ => .error "unknown function"

/-- Applies a rule to an element and reads the result as an element of another type. -/
def convert (r : ElementRule) (s t : DataType) (x : s.Value) : Except String t.Value :=
  match r.apply (s.toJson x) with
  | .error reason => .error reason
  | .ok j =>
    match t.ofJson? j with
    | some y => .ok y
    | none => .error "element does not fit"

end ElementRule

end RadixPool
