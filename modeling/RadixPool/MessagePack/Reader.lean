import RadixPool.Decimal.Double
import RadixPool.Json.Basic

/-!
Reading documents from MessagePack.

Bytes after the document are left alone. Binary and extension items are no documents; a number that
is not finite is read as null.

* `MessagePack.decode?`: the document at the head of the bytes.
-/

namespace RadixPool.MessagePack

/-- The number written in the next `n` bytes, the highest first. -/
def number? : Nat → Nat → List UInt8 → Option (Nat × List UInt8)
  | 0, acc, bs => some (acc, bs)
  | _ + 1, _, [] => none
  | n + 1, acc, b :: bs => number? n (acc * 256 + b.toNat) bs

/-- A signed number of `n` bytes in two's complement. -/
def signed? (n : Nat) (bs : List UInt8) : Option (Json × List UInt8) :=
  (number? n 0 bs).map fun (v, rest) =>
    (.int (if v < 1 <<< (8 * n - 1) then (v : Int) else v - (1 <<< (8 * n) : Nat)), rest)

/-- An unsigned number of `n` bytes. -/
def unsigned? (n : Nat) (bs : List UInt8) : Option (Json × List UInt8) :=
  (number? n 0 bs).map fun (v, rest) => (.int v, rest)

/-- A double as a document; infinities and what is no number become null. -/
def ofDouble (bits : UInt64) : Json :=
  if Double.isFinite bits then .float bits else .null

/-- A double from eight bytes, or from the four bytes of a single. -/
def float? (n : Nat) (bs : List UInt8) : Option (Json × List UInt8) :=
  (number? n 0 bs).map fun (v, rest) =>
    (ofDouble (if n = 4 then (Float32.ofBits (UInt32.ofNat v)).toFloat.toBits else UInt64.ofNat v),
      rest)

/-- The next `n` bytes as text. -/
def text? (n : Nat) (bs : List UInt8) : Option (String × List UInt8) :=
  let (taken, rest) := bs.splitAt n
  if taken.length = n then
    (String.fromUTF8? (taken.foldl ByteArray.push .empty)).map fun s => (s, rest)
  else none

/-- A number of `n` bytes handed on as a size. -/
def sized? {α : Type} (n : Nat) (k : Nat → List UInt8 → Option α) (bs : List UInt8) : Option α :=
  match number? n 0 bs with
  | some (size, rest) => k size rest
  | none => none

/-- The name of a member. All but the first may also be written as binary items. -/
def name? (first : Bool) : List UInt8 → Option (String × List UInt8)
  | [] => none
  | b :: bs =>
    let v := b.toNat
    if 0xa0 ≤ v ∧ v < 0xc0 then text? (v - 0xa0) bs
    else if v = 0xd9 then sized? 1 text? bs
    else if v = 0xda then sized? 2 text? bs
    else if v = 0xdb then sized? 4 text? bs
    else if first then none
    else if v = 0xc4 then sized? 1 text? bs
    else if v = 0xc5 then sized? 2 text? bs
    else if v = 0xc6 then sized? 4 text? bs
    else none

/-- Reads `n` items, most recent first. -/
def items? (item? : List UInt8 → Option (Json × List UInt8)) :
    Nat → List Json → List UInt8 → Option (List Json × List UInt8)
  | 0, acc, bs => some (acc, bs)
  | n + 1, acc, bs =>
    match item? bs with
    | some (j, rest) => items? item? n (j :: acc) rest
    | none => none

/-- Reads `n` members, most recent first. -/
def members? (item? : List UInt8 → Option (Json × List UInt8)) :
    Nat → List (String × Json) → List UInt8 → Option (List (String × Json) × List UInt8)
  | 0, acc, bs => some (acc, bs)
  | n + 1, acc, bs =>
    match name? acc.isEmpty bs with
    | some (name, rest) =>
      match item? rest with
      | some (j, rest) => members? item? n ((name, j) :: acc) rest
      | none => none
    | none => none

/-- The document at the head of the bytes, if its arrays and objects nest at most `depth` deep. -/
def document? : (depth : Nat) → List UInt8 → Option (Json × List UInt8)
  | _, [] => none
  | depth, b :: bs =>
    let v := b.toNat
    let text (n : Nat) (bs : List UInt8) : Option (Json × List UInt8) :=
      (text? n bs).map fun (s, rest) => (.str s, rest)
    let array (n : Nat) (bs : List UInt8) : Option (Json × List UInt8) :=
      match depth with
      | 0 => none
      | depth + 1 =>
        (items? (document? depth) n [] bs).map fun (js, rest) => (.arr js.reverse, rest)
    let object (n : Nat) (bs : List UInt8) : Option (Json × List UInt8) :=
      match depth with
      | 0 => none
      | depth + 1 =>
        (members? (document? depth) n [] bs).map fun (ms, rest) => (Json.ofMembers ms.reverse, rest)
    if v < 0x80 then some (.int v, bs)
    else if v < 0x90 then object (v - 0x80) bs
    else if v < 0xa0 then array (v - 0x90) bs
    else if v < 0xc0 then text (v - 0xa0) bs
    else if 0xe0 ≤ v then some (.int ((v : Int) - 256), bs)
    else match b with
      | 0xc0 => some (.null, bs)
      | 0xc2 => some (.bool false, bs)
      | 0xc3 => some (.bool true, bs)
      | 0xca => float? 4 bs
      | 0xcb => float? 8 bs
      | 0xcc => unsigned? 1 bs
      | 0xcd => unsigned? 2 bs
      | 0xce => unsigned? 4 bs
      | 0xcf => unsigned? 8 bs
      | 0xd0 => signed? 1 bs
      | 0xd1 => signed? 2 bs
      | 0xd2 => signed? 4 bs
      | 0xd3 => signed? 8 bs
      | 0xd9 => sized? 1 text bs
      | 0xda => sized? 2 text bs
      | 0xdb => sized? 4 text bs
      | 0xdc => sized? 2 array bs
      | 0xdd => sized? 4 array bs
      | 0xde => sized? 2 object bs
      | 0xdf => sized? 4 object bs
      | _ => none

/-- How deep arrays and objects may nest in bytes. -/
def maxDepth : Nat := 1023

/-- The document at the head of the bytes. -/
def decode? (bytes : ByteArray) : Option Json :=
  (document? maxDepth bytes.toList).map Prod.fst

end RadixPool.MessagePack
