import RadixPool.Word

/-!
Tree shapes.

* `Shape`: the fanout and the leaf capacity of a family of trees, as powers of two.
* `Shape.Valid`: the shapes that a vector can have.
-/

namespace RadixPool

/-- The shape of a tree: inner nodes have at most `2^bits` children, leaves at most `2^leafBits`
elements. -/
structure Shape where
  bits : Nat
  leafBits : Nat
deriving DecidableEq

namespace Shape

/-- The limit for the parts of a shape in a document, `2^32`. -/
def partLimit : Nat := 4294967296

/-- The greatest number of children of an inner node. -/
def fanout (s : Shape) : Nat := Word.pow2 s.bits

/-- The greatest number of elements of a leaf. -/
def leafCapacity (s : Shape) : Nat := Word.pow2 s.leafBits

/-- Both powers are proper and words. -/
structure Valid (s : Shape) : Prop where
  bits_pos : 0 < s.bits
  bits_lt : s.bits < Word.width
  leafBits_pos : 0 < s.leafBits
  leafBits_lt : s.leafBits < Word.width

instance (s : Shape) : Decidable s.Valid :=
  decidable_of_iff (0 < s.bits ∧ s.bits < Word.width ∧ 0 < s.leafBits ∧ s.leafBits < Word.width)
    ⟨fun h => ⟨h.1, h.2.1, h.2.2.1, h.2.2.2⟩, fun h => ⟨h.1, h.2, h.3, h.4⟩⟩

/-- The text of a shape whose parts may be unknown. -/
def describe (bits leafBits : Option Nat) : String :=
  let part : Option Nat → String
    | some n => toString n
    | none => "missing"
  "B=" ++ part bits ++ ", BL=" ++ part leafBits

/-- The text of a shape. -/
def text (s : Shape) : String := describe s.bits s.leafBits

end Shape

end RadixPool
