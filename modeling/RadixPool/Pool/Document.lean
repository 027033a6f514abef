import RadixPool.Json.Basic
import RadixPool.Pool.Basic

/-!
Pools as documents.

A pool is written as an object with its shape (`B` and `BL`), its inner nodes and its leaves with
their keys in ascending order, and its vectors. Every object may be given as the array of its fields
when it is read.

* `Pool.toJson`: the document of a pool.
* `PoolDraft`, `PoolDraft.ofJson?`: what a document says, entry by entry in its own order.
* `PoolDraft.toPool`: the pool of a draft; shape, keys and structure are checked in this order.
* `Pool.ofJson`: the pool of a document.
-/

namespace RadixPool

variable {α : Type}

/-! ### Writing -/

/-- An entry with its key. -/
def keyedJson (k : Key) (value : Json) : Json := .obj [("key", .nat k), ("value", value)]

/-- The document of an inner node. -/
def PooledBranch.toJson (e : PooledBranch) : Json :=
  .obj [("children", .arr (e.children.map .nat)), ("relaxed", .bool e.relaxed)]

/-- The document of a vector. -/
def PooledVec.toJson (v : PooledVec) : Json :=
  .obj [("root", .nat v.root), ("tail", .nat v.tail)]

/-- The document of a pool, its elements written by `write`. -/
def Pool.toJson (write : α → Json) (p : Pool α) : Json :=
  .obj [
    ("B", .nat p.shape.bits),
    ("BL", .nat p.shape.leafBits),
    ("inners", .arr (p.inners.entries.map fun (k, e) => keyedJson k e.toJson)),
    ("leaves", .arr (p.leaves.entries.map fun (k, items) => keyedJson k (.arr (items.map write)))),
    ("vectors", .arr (p.vectors.map PooledVec.toJson))]

/-! ### Reading -/

/-- What the document of a pool says. -/
structure PoolDraft (α : Type) where
  bits : Option Nat
  leafBits : Option Nat
  inners : List (Key × PooledBranch)
  leaves : List (Key × List α)
  vectors : List PooledVec

/-- A key: a number below `2^64`. -/
def keyOfJson? (j : Json) : Option Key := j.natBelow? Word.count

/-- A part of a shape: a number below `2^32`, or null for none. -/
def bitsOfJson? : Option Json → Option (Option Nat)
  | none | some .null => some none
  | some j => (j.natBelow? Shape.partLimit).map some

/-- An entry with its key. -/
def keyedOfJson? {β : Type} (value? : Json → Option β) (j : Json) : Option (Key × β) := do
  match ← j.fields? ["key", "value"] with
  | [some k, some v] => return (← keyOfJson? k, ← value? v)
  | _ => none

/-- The inner node that a document stands for. -/
def PooledBranch.ofJson? (j : Json) : Option PooledBranch := do
  match ← j.fields? ["children", "relaxed"] with
  | [some cs, some r] => return ⟨← cs.listOf? keyOfJson?, ← r.bool?⟩
  | _ => none

/-- The vector that a document stands for. -/
def PooledVec.ofJson? (j : Json) : Option PooledVec := do
  match ← j.fields? ["root", "tail"] with
  | [some r, some t] => return ⟨← keyOfJson? r, ← keyOfJson? t⟩
  | _ => none

/-- What a document says, its elements read by `read?`; members that are not known are passed
over. -/
def PoolDraft.ofJson? (read? : Json → Option α) (j : Json) : Option (PoolDraft α) := do
  match ← j.fields? ["B", "BL", "inners", "leaves", "vectors"] with
  | [bits, leafBits, some inners, some leaves, some vectors] =>
    return {
      bits := ← bitsOfJson? bits
      leafBits := ← bitsOfJson? leafBits
      inners := ← inners.listOf? (keyedOfJson? PooledBranch.ofJson?)
      leaves := ← leaves.listOf? (keyedOfJson? fun j => j.listOf? read?)
      vectors := ← vectors.listOf? PooledVec.ofJson? }
  | _ => none

/-- Enters keyed values in turn; a key in use here or according to `taken` is refused. -/
def insertNew {β : Type} (name : String) (taken : Key → Bool) (m : KeyMap β) :
    List (Key × β) → Except Error (KeyMap β)
  | [] => .ok m
  | (k, b) :: l =>
    if taken k || m.contains k then .error (.duplicateKey name k)
    else insertNew name taken (m.insert k b) l

/-- The pool of a draft, whose shape must be the expected one. -/
def PoolDraft.toPool (name : String) (expected : Shape) (d : PoolDraft α) :
    Except Error (Pool α) :=
  if d.bits = some expected.bits ∧ d.leafBits = some expected.leafBits then do
    let inners ← insertNew name (fun _ => false) ∅ d.inners
    let leaves ← insertNew name inners.contains ∅ d.leaves
    let pool : Pool α := ⟨expected, inners, leaves, d.vectors⟩
    pool.check name
    return pool
  else .error (.shapeMismatch name expected d.bits d.leafBits)

/-- The pool of a document. -/
def Pool.ofJson (read? : Json → Option α) (name : String) (expected : Shape) (j : Json) :
    Except Error (Pool α) :=
  match PoolDraft.ofJson? read? j with
  | some d => d.toPool name expected
  | none => .error (.document .malformed)

end RadixPool
