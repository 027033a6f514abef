import RadixPool.Vec.Basic

/-!
Walking through a vector.

A cursor stands before an element. It keeps the children still to visit for each inner node on the
way to it, the rest of the leaf it stands in, and the tail as long as that has not been reached.

* `Cursor`, `Vec.cursor`: cursors, and the one at the start of a vector.
* `Cursor.next`: the next element and the cursor behind it.
* `Cursor.sizeHint`: how many elements are announced.
* `Cursor.take`: several elements at once.
* `Vec.walk`: the elements met on the way from one end to the other.
* `Vec.sameBy`: equality of vectors, element by element.
-/

namespace RadixPool

variable {α : Type}

/-- A position in a walk through a vector. -/
structure Cursor (α : Type) where
  /-- The nodes still to visit, the innermost level first. -/
  stack : List (List (Node α))
  /-- The rest of the leaf that is being read. -/
  current : List α
  /-- The tail, until it is reached. -/
  tail : Option (List α)
  /-- The number of elements still to come. -/
  remaining : Nat

/-- The cursor at the start of a vector. -/
def Vec.cursor (v : Vec α) : Cursor α := ⟨[v.root.children], [], some v.tail.items, v.len⟩

namespace Cursor

mutual

/-- The number of steps that a node takes at most, the elements of its leaves not counted. -/
def stepsBelow : Node α → Nat
  | .leaf _ => 1
  | .inner _ cs _ => stepsOf cs + 2

/-- The number of steps for a list of nodes. -/
def stepsOf : List (Node α) → Nat
  | [] => 0
  | c :: cs => stepsBelow c + stepsOf cs

end

/-- The number of steps until the next leaf is found, at most. -/
def pending (c : Cursor α) : Nat :=
  c.stack.foldr (fun level n => stepsOf level + 1 + n) (if c.tail.isSome then 1 else 0)

/-- The next element, if there is one, and the cursor behind it. Finished levels are left, inner
nodes entered and empty leaves passed over on the way. -/
def next (c : Cursor α) : Option α × Cursor α :=
  match c with
  | ⟨stack, x :: xs, tail, remaining⟩ => (some x, ⟨stack, xs, tail, remaining - 1⟩)
  | ⟨[], [], none, remaining⟩ => (none, ⟨[], [], none, remaining⟩)
  | ⟨[], [], some items, remaining⟩ => next ⟨[], items, none, remaining⟩
  | ⟨[] :: levels, [], tail, remaining⟩ => next ⟨levels, [], tail, remaining⟩
  | ⟨(.leaf l :: nodes) :: levels, [], tail, remaining⟩ =>
    next ⟨nodes :: levels, l.items, tail, remaining⟩
  | ⟨(.inner _ cs _ :: nodes) :: levels, [], tail, remaining⟩ =>
    next ⟨cs :: nodes :: levels, [], tail, remaining⟩
termination_by c.pending
decreasing_by all_goals simp [pending, stepsOf, stepsBelow] <;> omega

/-- The least and the greatest number of elements that are announced. -/
def sizeHint (c : Cursor α) : Nat × Option Nat := (c.remaining, some c.remaining)

/-- At most `n` elements, and the cursor behind them. -/
def take : Nat → Cursor α → List α × Cursor α
  | 0, c => ([], c)
  | n + 1, c =>
    match c.next with
    | (none, c) => ([], c)
    | (some x, c) =>
      let (xs, c) := take n c
      (x :: xs, c)

end Cursor

/-- The elements met on the way through a vector. -/
def Vec.walk (v : Vec α) : List α := (v.cursor.take v.len).1

/-- Whether walks through two vectors meet the same elements, whatever their trees look like. -/
def Vec.sameBy (same : α → α → Bool) (v w : Vec α) : Bool :=
  v.len == w.len && v.walk.isEqv w.walk same

end RadixPool
