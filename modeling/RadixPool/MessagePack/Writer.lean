import RadixPool.Json.Basic

/-!
Writing documents as MessagePack.

Every length and every integer takes its shortest form: an integer that is not negative an unsigned
one, a negative one a signed one. Numbers that are no integers take eight bytes.

* `MessagePack.bigEndian`: the bytes of a number, the highest first.
* `MessagePack.encode`: the bytes of a document.
-/

namespace RadixPool.MessagePack

/-- The lowest `n` bytes of a number, the highest of them first. -/
def bigEndian : Nat → Nat → List UInt8
  | 0, _ => []
  | n + 1, v => bigEndian n (v / 256) ++ [UInt8.ofNat v]

/-- The head of an item of `size` with its forms for short, one-, two- and four-byte sizes; an
absent one-byte form is passed over. -/
def header (short : Nat) (base : UInt8) (one? : Option UInt8) (two four : UInt8) (size : Nat) :
    List UInt8 :=
  if size < short then [base + UInt8.ofNat size]
  else match one? with
    | some one =>
      if size < 0x100 then one :: bigEndian 1 size
      else if size < 0x10000 then two :: bigEndian 2 size
      else four :: bigEndian 4 size
    | none => if size < 0x10000 then two :: bigEndian 2 size else four :: bigEndian 4 size

/-- The bytes of an integer. -/
def integer : Int → List UInt8
  | .ofNat n =>
    if n < 0x80 then [UInt8.ofNat n]
    else if n < 0x100 then 0xcc :: bigEndian 1 n
    else if n < 0x10000 then 0xcd :: bigEndian 2 n
    else if n < 0x100000000 then 0xce :: bigEndian 4 n
    else 0xcf :: bigEndian 8 n
  | .negSucc n =>
    if n < 0x20 then [UInt8.ofNat (0xff - n)]
    else if n < 0x80 then 0xd0 :: bigEndian 1 (0xff - n)
    else if n < 0x8000 then 0xd1 :: bigEndian 2 (0xffff - n)
    else if n < 0x80000000 then 0xd2 :: bigEndian 4 (0xffffffff - n)
    else 0xd3 :: bigEndian 8 (0xffffffffffffffff - n)

/-- Appends bytes to a buffer. -/
def append (out : ByteArray) (bytes : List UInt8) : ByteArray := bytes.foldl ByteArray.push out

/-- Appends a string. -/
def stringInto (out : ByteArray) (s : String) : ByteArray :=
  append out (header 32 0xa0 (some 0xd9) 0xda 0xdb s.utf8ByteSize) ++ s.toUTF8

mutual

/-- Appends a document. -/
def encodeInto (out : ByteArray) : Json → ByteArray
  | .null => out.push 0xc0
  | .bool b => out.push (if b then 0xc3 else 0xc2)
  | .int n => append out (integer n)
  | .float bits => append (out.push 0xcb) (bigEndian 8 bits.toNat)
  | .str s => stringInto out s
  | .arr items => encodeItems (append out (header 16 0x90 none 0xdc 0xdd items.length)) items
  | .obj members =>
    encodeMembers (append out (header 16 0x80 none 0xde 0xdf members.length)) members

/-- Appends the items of an array. -/
def encodeItems (out : ByteArray) : List Json → ByteArray
  | [] => out
  | j :: js => encodeItems (encodeInto out j) js

/-- Appends the members of an object. -/
def encodeMembers (out : ByteArray) : List (String × Json) → ByteArray
  | [] => out
  | (n, j) :: ms => encodeMembers (encodeInto (stringInto out n) j) ms

end

/-- The bytes of a document. -/
def encode (j : Json) : ByteArray := encodeInto .empty j

end RadixPool.MessagePack
