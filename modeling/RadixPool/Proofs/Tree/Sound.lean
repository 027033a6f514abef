import Mathlib
import RadixPool.Pool.Plan
import RadixPool.Vec.Push

/-!
Sound trees.

A tree of a shape is sound at a height if all its leaves lie at that depth, its nodes keep within
the fanout and the leaf capacity, the children of a regular node are full up to the last one, and
every size table says exactly where the children end.

* `Shape.level`: the level of an inner node whose children have a height; a full node of height `h`
  has `2 ^ level h` elements.
* `ends`: where consecutive runs of elements end.
* `Tabled`: what the table of an inner node, or its absence, says of the counts of its children.
* `Node.Sound`: sound trees, and `Node.Sound.count_le`, the number of elements that they hold at
  most.
* `Node.Packed`: regular trees that are full up to their right edge, as a new path is.
-/

namespace RadixPool

variable {α : Type}

/-! ### Levels -/

/-- The level of an inner node whose children have height `h`. -/
def Shape.level (s : Shape) (h : Nat) : Nat := s.leafBits + s.bits * h

namespace Shape

variable {s : Shape}

@[simp] lemma level_zero : s.level 0 = s.leafBits := by simp [level]

lemma level_succ (h : Nat) : s.level (h + 1) = s.level h + s.bits := by
  simp only [level, Nat.mul_add, Nat.mul_one]
  omega

lemma level_succ_sub (h : Nat) : s.level (h + 1) - s.bits = s.level h := by
  rw [level_succ, Nat.add_sub_cancel]

lemma level_mono {h h' : Nat} (hle : h ≤ h') : s.level h ≤ s.level h' :=
  Nat.add_le_add_left (Nat.mul_le_mul_left _ hle) _

@[simp] lemma shiftAt_succ (h : Nat) : s.shiftAt (h + 1) = s.level h := rfl

/-- Only the nodes above the leaves have the level of the leaves' capacity. -/
lemma level_eq_leafBits_iff (hs : s.Valid) (h : Nat) : s.level h = s.leafBits ↔ h = 0 := by
  have hb := hs.bits_pos
  constructor
  · intro he
    have h0 : s.bits * h = 0 := by simp only [level] at he; omega
    exact (Nat.mul_eq_zero.mp h0).resolve_left (by omega)
  · rintro rfl
    exact level_zero

/-- Every height adds at least one to the level. -/
lemma lt_level (hs : s.Valid) (h : Nat) : h < s.level h := by
  have hb := Nat.le_mul_of_pos_left h hs.bits_pos
  have hl := hs.leafBits_pos
  simp only [level]
  omega

lemma fanout_eq (hs : s.Valid) : s.fanout = 2 ^ s.bits := by
  rw [fanout, Word.pow2_eq hs.bits_lt, Nat.one_shiftLeft]

lemma leafCapacity_eq (hs : s.Valid) : s.leafCapacity = 2 ^ s.leafBits := by
  rw [leafCapacity, Word.pow2_eq hs.leafBits_lt, Nat.one_shiftLeft]

/-- From level `level h` there are `h` levels down to the one above the leaves. -/
lemma levelsBelow_level (hs : s.Valid) (h : Nat) : s.levelsBelow (s.level h) = h := by
  have hb := hs.bits_pos
  have he : s.level h - s.leafBits + s.bits - 1 = s.bits * h + (s.bits - 1) := by
    simp only [level]
    omega
  rw [levelsBelow, he, Nat.mul_add_div hb, Nat.div_eq_of_lt (by omega), Nat.add_zero]

lemma fullSize?_eq_some_iff {h n : Nat} :
    s.fullSize? h = some n ↔ s.level h < Word.width ∧ n = 2 ^ s.level h := by
  rw [fullSize?, Word.pow2?_eq_some_iff, Nat.one_shiftLeft, Nat.add_comm, level]

/-- A full node of a height is made of as many full children as a node has at most. -/
lemma two_pow_level_succ (h : Nat) : 2 ^ s.level (h + 1) = 2 ^ s.bits * 2 ^ s.level h := by
  rw [level_succ, Nat.pow_add, Nat.mul_comm]

end Shape

/-! ### Counts of consecutive runs -/

/-- Where consecutive runs end that start behind `before` elements. -/
def ends (before : Nat) : List Nat → List Nat
  | [] => []
  | n :: ns => (before + n) :: ends (before + n) ns

@[simp] lemma length_ends (before : Nat) (ns : List Nat) : (ends before ns).length = ns.length := by
  induction ns generalizing before with
  | nil => rfl
  | cons n ns ih => simp [ends, ih]

/-- The last run ends behind all elements. -/
lemma getLastD_ends (before : Nat) (ns : List Nat) :
    (ends before ns).getLastD before = before + ns.sum := by
  induction ns generalizing before with
  | nil => simp [ends]
  | cons n ns ih => rw [ends, List.getLastD_cons, ih, List.sum_cons, Nat.add_assoc]

lemma ends_append (before : Nat) (ms ns : List Nat) :
    ends before (ms ++ ns) = ends before ms ++ ends (before + ms.sum) ns := by
  induction ms generalizing before with
  | nil => simp [ends]
  | cons m ms ih => simp [ends, ih, Nat.add_assoc]

/-- The run with number `i` ends behind the first `i + 1` runs. -/
lemma getElem?_ends (before : Nat) {ns : List Nat} {i : Nat} (hi : i < ns.length) :
    (ends before ns)[i]? = some (before + (ns.take (i + 1)).sum) := by
  induction ns generalizing before i with
  | nil => exact absurd hi (Nat.not_lt_zero i)
  | cons n ns ih =>
      cases i with
      | zero => simp [ends]
      | succ i =>
          rw [ends, List.getElem?_cons_succ, ih (before + n) (Nat.lt_of_succ_lt_succ hi),
            List.take_succ_cons, List.sum_cons, Nat.add_assoc]

/-- What an inner node whose children have height `h` and these counts says of them: its table gives
the ends of the children; without one its level is small enough to address elements by, and all
children but the last are full. -/
def Tabled (s : Shape) (h : Nat) (counts : List Nat) : Option (List Nat) → Prop
  | some table => table = ends 0 counts
  | none => s.level h < Word.width ∧ ∀ n ∈ counts.dropLast, n = 2 ^ s.level h

/-- The counts of the children of a regular node: full ones and a last one. -/
lemma Tabled.sum_append {s : Shape} {h : Nat} {ns : List Nat} {n : Nat}
    (ht : Tabled s h (ns ++ [n]) none) : (ns ++ [n]).sum = ns.length * 2 ^ s.level h + n := by
  have hfull : ns = List.replicate ns.length (2 ^ s.level h) :=
    List.eq_replicate_of_mem fun m hm => ht.2 m (by simpa using hm)
  rw [List.sum_append, List.sum_singleton]
  conv_lhs => rw [hfull]
  rw [List.sum_replicate, smul_eq_mul]

/-! ### The number of elements below a node -/

namespace Node

/-- The number of elements below a node. -/
def count (n : Node α) : Nat := n.elements.length

@[simp] lemma count_leaf (l : Leaf α) : (Node.leaf l).count = l.items.length := by
  simp [count, elements]

lemma length_elementsAll (cs : List (Node α)) :
    (elementsAll cs).length = (cs.map count).sum := by
  rw [elementsAll_eq, List.length_flatMap]
  rfl

@[simp] lemma count_inner (id : NodeId) (cs : List (Node α)) (sizes : Option (List Nat)) :
    (Node.inner id cs sizes).count = (cs.map count).sum := by
  rw [count, elements, length_elementsAll]

@[simp] lemma elementsAll_append (cs ds : List (Node α)) :
    elementsAll (cs ++ ds) = elementsAll cs ++ elementsAll ds := by
  simp [elementsAll_eq]

@[simp] lemma elementsAll_singleton (c : Node α) : elementsAll [c] = c.elements := by
  simp [elementsAll_eq]

/-- A child has no more elements than its parent. -/
lemma count_le_of_mem {cs : List (Node α)} {c : Node α} (hc : c ∈ cs) :
    c.count ≤ (cs.map count).sum :=
  List.le_sum_of_mem (List.mem_map_of_mem hc)

end Node

/-- A right table says for each child how many elements there are up to its end. -/
lemma Tabled.getElem?_table {s : Shape} {h : Nat} {cs : List (Node α)} {table : List Nat}
    (ht : Tabled s h (cs.map Node.count) (some table)) :
    table.length = cs.length ∧
      ∀ i < cs.length, table[i]? = some ((cs.take (i + 1)).map Node.count).sum := by
  obtain rfl : table = ends 0 (cs.map Node.count) := ht
  refine ⟨by rw [length_ends, List.length_map], fun i hi => ?_⟩
  rw [getElem?_ends 0 (by rwa [List.length_map]), Nat.zero_add, List.map_take]

namespace Node

/-! ### Soundness -/

/-- Sound trees of a height. An inner node without children stands right above the leaves. -/
inductive Sound (s : Shape) : (height : Nat) → Node α → Prop where
  | leaf {l : Leaf α} (fits : l.items.length ≤ 2 ^ s.leafBits) : Sound s 0 (.leaf l)
  | inner {h : Nat} {id : NodeId} {cs : List (Node α)} {sizes : Option (List Nat)}
      (width : cs.length ≤ 2 ^ s.bits) (flat : cs = [] → h = 0) (below : ∀ c ∈ cs, Sound s h c)
      (tabled : Tabled s h (cs.map count) sizes) : Sound s (h + 1) (.inner id cs sizes)

variable {s : Shape}

lemma sound_leaf_iff {h : Nat} {l : Leaf α} :
    Sound s h (.leaf l) ↔ h = 0 ∧ l.items.length ≤ 2 ^ s.leafBits := by
  constructor
  · rintro ⟨fits⟩
    exact ⟨rfl, fits⟩
  · rintro ⟨rfl, fits⟩
    exact .leaf fits

lemma sound_inner_iff {h : Nat} {id : NodeId} {cs : List (Node α)} {sizes : Option (List Nat)} :
    Sound s (h + 1) (.inner id cs sizes) ↔
      cs.length ≤ 2 ^ s.bits ∧ (cs = [] → h = 0) ∧ (∀ c ∈ cs, Sound s h c) ∧
        Tabled s h (cs.map count) sizes := by
  constructor
  · rintro (_ | ⟨width, flat, below, tabled⟩)
    exact ⟨width, flat, below, tabled⟩
  · rintro ⟨width, flat, below, tabled⟩
    exact .inner width flat below tabled

/-- A sound inner node stands above the leaves. -/
lemma Sound.exists_succ {h : Nat} {id : NodeId} {cs : List (Node α)} {sizes : Option (List Nat)}
    (hn : Sound s h (.inner id cs sizes)) : ∃ h', h = h' + 1 := by
  cases hn with
  | inner => exact ⟨_, rfl⟩

/-- A sound node of height `h` has at most `2 ^ level h` elements. -/
lemma Sound.count_le {h : Nat} {n : Node α} (hn : Sound s h n) : n.count ≤ 2 ^ s.level h := by
  induction hn with
  | leaf fits => simpa using fits
  | @inner h id cs sizes width _ _ _ ih =>
      have hsum : (cs.map count).sum ≤ (cs.map count).length • 2 ^ s.level h :=
        List.sum_le_card_nsmul _ _ fun n hn => by
          obtain ⟨c, hc, rfl⟩ := List.mem_map.mp hn
          exact ih c hc
      rw [List.length_map, smul_eq_mul] at hsum
      rw [count_inner, Shape.two_pow_level_succ]
      exact hsum.trans (Nat.mul_le_mul_right _ width)

mutual

/-- The number of inner levels along the leftmost path below a node. -/
def height : Node α → Nat
  | .leaf _ => 0
  | .inner _ cs _ => heightFirst cs + 1

/-- The height of the first of some nodes, or 0. -/
def heightFirst : List (Node α) → Nat
  | [] => 0
  | c :: _ => height c

end

/-- The height of a sound node is the length of its leftmost path. -/
lemma Sound.height_eq {h : Nat} {n : Node α} (hn : Sound s h n) : n.height = h := by
  induction hn with
  | leaf => rw [height]
  | @inner h id cs sizes _ flat _ _ ih =>
      rw [height, Nat.succ_inj]
      cases cs with
      | nil => rw [heightFirst, flat rfl]
      | cons c cs => rw [heightFirst, ih c List.mem_cons_self]

/-! ### Packed trees -/

/-- Regular trees in which only the nodes along the right edge may have room, the leaves there being
full. -/
inductive Packed (s : Shape) : (height : Nat) → Node α → Prop where
  | leaf {l : Leaf α} (full : l.items.length = 2 ^ s.leafBits) : Packed s 0 (.leaf l)
  | inner {h : Nat} {id : NodeId} {cs init : List (Node α)} {last : Node α}
      (split : cs = init ++ [last]) (edge : Packed s h last) : Packed s (h + 1) (.inner id cs none)

/-- The level of a packed inner node addresses elements. -/
lemma Sound.level_lt_of_packed {h : Nat} {n : Node α} (hn : Sound s (h + 1) n)
    (hp : Packed s (h + 1) n) : s.level h < Word.width := by
  cases hp with
  | inner => exact (sound_inner_iff.mp hn).2.2.2.1

end Node

end RadixPool
