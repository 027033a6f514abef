import Mathlib
import RadixPool.Proofs.Tree.Filled
import RadixPool.Proofs.Vec.Sound

/-!
The shape of vectors that are made element by element.

A vector that is made from the empty one by appending and replacing has a filled tree, no higher
than its leaves need, and elements in its tail if it has any. So its length determines its shape,
whatever has been replaced on the way and in which order.

* `Vec.Made`: vectors made by appending and replacing; `Vec.Made.ofList`.
* `Branch.Filled`: filled trees of vectors, which can be empty.
* `Vec.Canonical`: vectors of that shape; `Vec.Canonical.push` and `Vec.Canonical.set?` carry it
  through all histories (`Vec.Made.exists_canonical`).
* `Vec.Canonical.skeleton_eq`: vectors of one length have one shape.
* `Vec.Made.canonical_shape`: the shape of a vector in terms of its length.
-/

namespace RadixPool

variable {α β : Type} {s : Shape}

/-! ### The tree of a vector -/

/-- Filled trees of a height with a number of leaves, the tree without leaves among them. -/
inductive Branch.Filled (s : Shape) : (height leaves : Nat) → Branch α → Prop where
  | empty (id : NodeId) : Branch.Filled s 1 0 ⟨id, [], none⟩
  | tree {h k : Nat} {b : Branch α} (filled : b.node.Filled s (h + 1) k) :
      Branch.Filled s (h + 1) k b

/-- A tree with neither its elements nor the identities of its nodes. -/
def Branch.skeleton (b : Branch α) : Branch Unit :=
  ⟨0, b.children.map Node.skeleton, b.sizes⟩

/-- The skeleton of a tree is that of its root. -/
lemma Branch.skeleton_node (b : Branch α) : b.node.skeleton = b.skeleton.node := by
  rw [Branch.node, Node.skeleton, Node.map, Node.mapAll_eq]
  rfl

namespace Branch.Filled

variable {h k : Nat} {b : Branch α}

/-- A filled tree has no more leaves than a full one. -/
lemma leaves_le (hb : b.Filled s h k) : k ≤ s.leaves h := by
  cases hb with
  | empty => exact Nat.zero_le _
  | tree filled => exact filled.leaves_bounds.2

/-- The leaves of a filled tree are full. -/
lemma count_eq (hb : b.Filled s h k) : b.node.count = k * 2 ^ s.leafBits := by
  cases hb with
  | empty => rw [Nat.zero_mul]; rfl
  | tree filled => exact filled.count_eq

/-- No root of a filled tree has a table. -/
lemma sizes_eq (hb : b.Filled s h k) : b.sizes = none := by
  cases hb with
  | empty => rfl
  | tree filled =>
      obtain ⟨id, cs, sizes⟩ := b
      rw [Branch.node] at filled
      cases filled with
      | inner => rfl

/-- A filled tree with leaves is a filled node. -/
lemma node_of_pos (hb : b.Filled s h k) (hk : 0 < k) : b.node.Filled s h k := by
  cases hb with
  | empty => exact absurd hk (Nat.lt_irrefl 0)
  | tree filled => exact filled

/-- All nodes of a filled tree are filled, apart from a root without leaves. -/
lemma of_mem_nodes (hb : b.Filled s h k) {n : Node α} (hn : n ∈ b.node.nodes) :
    n = .inner b.id [] none ∨ ∃ h' k', n.Filled s h' k' := by
  cases hb with
  | empty id =>
      rcases Node.mem_nodes_inner.mp hn with rfl | ⟨c, hc, -⟩
      · exact .inl rfl
      · cases hc
  | tree filled => exact .inr (filled.of_mem_nodes hn)

/-- In each row of a filled tree all nodes but the last are full. -/
lemma full_of_mem_row (hb : b.Filled s h k) {d : Nat} {n : Node α}
    (hn : n ∈ (b.node.row d).dropLast) : n.Full s := by
  cases hb with
  | empty => cases d <;> cases hn
  | tree filled => exact filled.full_of_mem_row hn

/-- Filled trees of one height with one number of leaves have one shape. -/
lemma skeleton_eq (hb : b.Filled s h k) {b' : Branch β} (hb' : b'.Filled s h k) :
    b.skeleton = b'.skeleton := by
  cases hb with
  | empty =>
      cases hb' with
      | empty => rfl
      | tree filled => exact absurd filled.leaves_bounds.1 (Nat.lt_irrefl 0)
  | tree filled =>
      cases hb' with
      | empty => exact absurd filled.leaves_bounds.1 (Nat.lt_irrefl 0)
      | tree filled' =>
          have heq := filled.skeleton_eq filled'
          rw [skeleton_node, skeleton_node, Branch.node, Branch.node, Node.inner.injEq] at heq
          rw [Branch.mk.injEq]
          exact heq

/-- A filled tree takes a leaf. -/
lemma appendLeaf? (hs : s.Valid) {leaf : Leaf α} (hfull : leaf.items.length = 2 ^ s.leafBits)
    (hb : b.Filled s (h + 1) k) (hlev : s.level h < Word.width) (hlt : b.node.count < Word.count)
    {next next' : NodeId} {b' : Branch α}
    (happ : Node.appendLeaf? s leaf next b.node (s.level h) = some (b', next')) :
    b'.Filled s (h + 1) (k + 1) := by
  cases hb with
  | empty id =>
      rw [Branch.node, Node.appendLeaf?_level_zero hs, if_neg (by simp)] at happ
      cases happ
      exact .tree (Node.Filled.path hfull 0 next)
  | tree filled =>
      rw [← Shape.level_succ_sub h] at happ
      exact .tree (filled.appendLeaf? hs hfull hlev hlt happ)

/-- A filled tree that has no room for a leaf is full. -/
lemma eq_leaves_of_appendLeaf?_eq_none (hs : s.Valid) {leaf : Leaf α} (hb : b.Filled s (h + 1) k)
    (hlev : s.level h < Word.width) {next : NodeId}
    (happ : Node.appendLeaf? s leaf next b.node (s.level h) = none) : k = s.leaves (h + 1) := by
  cases hb with
  | empty id =>
      rw [Branch.node, Node.appendLeaf?_level_zero hs, if_neg (by simp)] at happ
      cases happ
  | tree filled =>
      rw [← Shape.level_succ_sub h, (filled.sound hlev).appendLeaf?_eq_none_iff hs,
        filled.edgeFull_iff] at happ
      exact happ

/-- A filled tree stays filled when an element is replaced. -/
lemma setBelow? (hb : b.Filled s (h + 1) k) {x : α} {next next' : NodeId} {cs' : List (Node α)}
    {shift idx slot sub : Nat} (hroute : Node.route s b.sizes shift idx = some (slot, sub))
    (hset : Node.setBelow? s x next b.children slot (shift - s.bits) sub = some (cs', next')) :
    Branch.Filled s (h + 1) k ⟨next', cs', b.sizes⟩ := by
  have hnode : b.node.set? s x next shift idx = some (.inner next' cs' b.sizes, next' + 1) := by
    simp only [Branch.node, Node.set?, hroute, hset]
  cases hb with
  | empty id =>
      rw [Node.setBelow?] at hset
      cases hset
  | tree filled => exact .tree (filled.set? hnode)

end Branch.Filled

/-- Each level belongs to one height. -/
lemma Shape.level_inj (hs : s.Valid) {h h' : Nat} : s.level h = s.level h' ↔ h = h' := by
  rw [level, level, Nat.add_left_cancel_iff, Nat.mul_right_inj hs.bits_pos.ne']

namespace Vec

/-- The vectors that appending and replacing make from the empty one. -/
inductive Made (s : Shape) : Vec α → Prop where
  | empty (next : NodeId) : Made s (Vec.empty s next).1
  | push {v : Vec α} (made : Made s v) (x : α) (next : NodeId)
      (lt : v.toList.length + 1 < Word.count) : Made s (v.push s x next).1
  | set {v v' : Vec α} (made : Made s v) {i : Nat} {x : α} {next : NodeId}
      (some : (v.set? s i x next).1 = some v') : Made s v'

/-- A vector with neither its elements nor the identities of its nodes. -/
def skeleton (v : Vec α) : Vec Unit :=
  ⟨v.len, v.shift, v.root.skeleton, ⟨0, v.tail.items.map fun _ => ()⟩⟩

/-- Vectors over a filled tree that is no higher than its leaves need, with elements in the tail
unless they have none at all. -/
structure Canonical (s : Shape) (h k : Nat) (v : Vec α) : Prop where
  sound : v.Sound s h
  filled : v.root.Filled s (h + 1) k
  least : h = 0 ∨ s.leaves h < k
  tail_pos : 0 < v.len → 0 < v.tail.items.length

namespace Canonical

variable {h k : Nat} {v : Vec α}

lemma empty (hs : s.Valid) (next : NodeId) : ((Vec.empty s next).1 : Vec α).Canonical s 0 0 :=
  ⟨.empty hs next, .empty next, .inl rfl, fun hlt => absurd hlt (Nat.lt_irrefl 0)⟩

/-- The level of the root addresses elements. -/
lemma level_lt (hv : v.Canonical s h k) : s.level h < Word.width := by
  rcases hv.sound.room with hlev | ⟨hrelaxed, -⟩
  · exact hlev
  · rw [hv.filled.sizes_eq] at hrelaxed
    cases hrelaxed

/-- The elements of the tree are those of its full leaves. -/
lemma len_eq (hv : v.Canonical s h k) : v.len = k * 2 ^ s.leafBits + v.tail.items.length := by
  rw [hv.sound.len, length_toList, hv.filled.count_eq]

/-! ### Appending -/

/-- A full tail moves into the tree of a canonical vector; the tree gets a new root only if it is
full, and the root needs no table. -/
lemma growTree (hs : s.Valid) (hv : v.Canonical s h k)
    (hfull : v.tail.items.length = 2 ^ s.leafBits) (next : NodeId) :
    ∃ h', (v.growTree s next).1.1.Filled s (h' + 1) (k + 1) ∧
      (v.growTree s next).1.2 = s.level h' ∧ (h' = 0 ∨ s.leaves h' < k + 1) := by
  have hlev := hv.level_lt
  have hlt : v.root.node.count < Word.count := by
    have hlen := length_toList v
    have hlist := hv.sound.lt_count
    omega
  cases happ : Node.appendLeaf? s v.tail next v.root.node (s.level h) with
  | some r =>
      rw [Vec.growTree, hv.sound.shift, happ]
      refine ⟨h, hv.filled.appendLeaf? hs hfull hlev hlt happ, rfl, ?_⟩
      exact hv.least.imp_right fun hk => hk.trans (Nat.lt_succ_self k)
  | none =>
      obtain rfl : k = s.leaves (h + 1) := hv.filled.eq_leaves_of_appendLeaf?_eq_none hs hlev happ
      have hcount : v.root.node.count = 2 ^ s.level (h + 1) := by
        rw [hv.filled.count_eq, Shape.two_pow_level]
      have hlev' : s.level (h + 1) < Word.width := by
        rw [hcount] at hlt
        exact (Nat.pow_lt_pow_iff_right (Nat.lt_succ_self 1)).mp hlt
      have hdense : Word.pow2? (s.level h + s.bits) = some v.root.node.count := by
        rw [Word.pow2?_eq_some_iff, Nat.one_shiftLeft, ← Shape.level_succ]
        exact ⟨hlev', hcount⟩
      have hregular : v.root.isRelaxed = false := by
        rw [Branch.isRelaxed, hv.filled.sizes_eq]
        rfl
      rw [Vec.growTree, hv.sound.shift, happ]
      simp only [Shape.levelsBelow_level hs, hv.sound.tailStart_eq, hdense, hregular]
      refine ⟨h + 1, .tree ?_, (Shape.level_succ h).symm, .inr (Nat.lt_succ_self _)⟩
      have hroot : v.root.node.Filled s (h + 1) (s.leaves (h + 1)) :=
        hv.filled.node_of_pos (Shape.leaves_pos _)
      have hnode : Node.Filled s (h + 1 + 1) ([v.root.node].length * s.leaves (h + 1) + 1)
          (.inner (Branch.path v.tail h next).2
            ([v.root.node] ++ [(Branch.path v.tail h next).1.node]) none) :=
        .inner rfl (Nat.one_lt_two_pow hs.bits_pos.ne') (by simpa using hroot)
          (Node.Filled.path hfull h next)
      rwa [List.length_singleton, Nat.one_mul] at hnode

/-- Appending keeps vectors canonical. -/
theorem push (hs : s.Valid) (hv : v.Canonical s h k) (x : α) (next : NodeId)
    (hlt : v.toList.length + 1 < Word.count) :
    ∃ h' k', (v.push s x next).1.Canonical s h' k' := by
  obtain ⟨h₁, hsound⟩ := hv.sound.push hs x next hlt
  have hshift := hsound.shift
  rw [Vec.push, Shape.leafCapacity_eq hs] at hsound hshift ⊢
  split at hsound
  · next hroom =>
    rw [if_pos hroom] at hshift ⊢
    obtain rfl : h = h₁ := (Shape.level_inj hs).mp (hv.sound.shift.symm.trans hshift)
    exact ⟨h, k, hsound, hv.filled, hv.least, fun _ => by simp⟩
  · next hle =>
    have hfull := Nat.le_antisymm hv.sound.tail (Nat.le_of_not_lt hle)
    obtain ⟨h', hfilled, hlevel, hleast⟩ := hv.growTree hs hfull next
    rw [if_neg hle] at hshift ⊢
    obtain rfl : h' = h₁ := (Shape.level_inj hs).mp (hlevel.symm.trans hshift)
    exact ⟨h', k + 1, hsound, hfilled, hleast, fun _ => Nat.one_pos⟩

/-- Replacing keeps vectors canonical. -/
theorem set? (hs : s.Valid) (hv : v.Canonical s h k) {i : Nat} {x : α} {next : NodeId} {v' : Vec α}
    (hset : (v.set? s i x next).1 = some v') : v'.Canonical s h k := by
  have hsound : v'.Sound s h := by
    by_cases hi : i < v.toList.length
    · obtain ⟨v₁, next₁, heq, hv₁, -⟩ := hv.sound.set?_eq hs hi x next
      rw [heq, Option.some_inj] at hset
      exact hset ▸ hv₁
    · rw [hv.sound.set?_eq_none (Nat.le_of_not_lt hi)] at hset
      cases hset
  rw [Vec.set?] at hset
  split at hset
  · cases hset
  · split at hset
    · cases hset
      exact ⟨hsound, hv.filled, hv.least, by simpa using hv.tail_pos⟩
    · split at hset
      · next hroute =>
        split at hset
        · next hbelow =>
          cases hset
          exact ⟨hsound, hv.filled.setBelow? hroute hbelow, hv.least, hv.tail_pos⟩
        · cases hset
      · cases hset

/-! ### Shapes -/

/-- All elements but those of the last leaf, which is the tail, lie in the tree. -/
lemma eq_div (hv : v.Canonical s h k) : k = (v.len - 1) / 2 ^ s.leafBits := by
  have hlen := hv.len_eq
  have hcap : 0 < 2 ^ s.leafBits := Nat.two_pow_pos s.leafBits
  by_cases hzero : v.len = 0
  · have hk : k * 2 ^ s.leafBits = 0 := by omega
    rw [hzero, Nat.zero_sub, Nat.zero_div]
    exact (Nat.mul_eq_zero.mp hk).resolve_right hcap.ne'
  · have hpos := hv.tail_pos (Nat.pos_of_ne_zero hzero)
    have hle := hv.sound.tail
    rw [hlen, Nat.add_sub_assoc hpos, Nat.mul_comm, Nat.mul_add_div hcap,
      Nat.div_eq_of_lt (by omega), Nat.add_zero]

/-- The tree is no higher than its leaves need. -/
lemma isLeast (hv : v.Canonical s h k) : IsLeast {j | k ≤ s.leaves (j + 1)} h := by
  refine ⟨hv.filled.leaves_le, fun j hj => ?_⟩
  rcases hv.least with rfl | hlt
  · exact Nat.zero_le j
  · by_contra hjh
    have hmono : s.leaves (j + 1) ≤ s.leaves h := Shape.leaves_mono (by omega)
    exact absurd (hlt.trans_le (hj.trans hmono)) (Nat.lt_irrefl _)

/-- Canonical vectors of one length have one shape. -/
theorem skeleton_eq (hv : v.Canonical s h k) {h' k' : Nat} {u : Vec β} (hu : u.Canonical s h' k')
    (hlen : u.len = v.len) : u.skeleton = v.skeleton := by
  obtain rfl : k' = k := by rw [hv.eq_div, hu.eq_div, hlen]
  obtain rfl : h' = h := hu.isLeast.unique hv.isLeast
  have htail : u.tail.items.length = v.tail.items.length := by
    have hlu := hu.len_eq
    have hlv := hv.len_eq
    omega
  have hroot : u.root.skeleton = v.root.skeleton := hu.filled.skeleton_eq hv.filled
  rw [skeleton, skeleton, hlen, hu.sound.shift, hv.sound.shift, hroot, List.map_const',
    List.map_const', htail]

end Canonical

/-! ### Histories -/

variable {v : Vec α}

/-- Whatever is made by appending and replacing is canonical. -/
theorem Made.exists_canonical (hs : s.Valid) (hv : v.Made s) : ∃ h k, v.Canonical s h k := by
  induction hv with
  | empty next => exact ⟨0, 0, .empty hs next⟩
  | push _ x next lt ih =>
      obtain ⟨h, k, hv⟩ := ih
      exact hv.push hs x next lt
  | set _ hset ih =>
      obtain ⟨h, k, hv⟩ := ih
      exact ⟨h, k, hv.set? hs hset⟩

/-- Appending all elements of a list makes a vector. -/
lemma Made.pushAll (hs : s.Valid) (hv : v.Made s) (xs : List α)
    (hlt : v.toList.length + xs.length < Word.count) (next : NodeId) :
    (v.pushAll s xs next).1.Made s := by
  induction xs generalizing v next with
  | nil => exact hv
  | cons x xs ih =>
      obtain ⟨h, k, hcanonical⟩ := hv.exists_canonical hs
      rw [List.length_cons] at hlt
      have hlength : (v.push s x next).1.toList.length = v.toList.length + 1 := by
        rw [hcanonical.sound.toList_push hs, List.length_append, List.length_singleton]
      exact ih (hv.push x next (by omega)) (by omega) (v.push s x next).2

/-- The vector of a list is made by appending. -/
theorem Made.ofList (hs : s.Valid) (xs : List α) (hlt : xs.length < Word.count) (next : NodeId) :
    (Vec.ofList s xs next).1.Made s := by
  have hnil : ((Vec.empty s next).1 : Vec α).toList = [] := rfl
  refine (Made.empty next).pushAll hs xs ?_ (Vec.empty (α := α) s next).2
  rwa [hnil, List.length_nil, Nat.zero_add]

/-- The shape of a vector that is made by appending and replacing: no node has a table; all elements
up to the last multiple of the leaf capacity below the length lie in full leaves and the others in
the tail; the level of the root is the least one with room for the tree; and in each row of the tree
all nodes but the last are full. So the length determines the shape. -/
theorem Made.canonical_shape (hs : s.Valid) (hv : v.Made s) :
    (∀ id cs sizes, .inner id cs sizes ∈ v.root.node.nodes → sizes = none) ∧
      v.len = v.toList.length ∧ v.len = v.root.node.count + v.tail.items.length ∧
      v.root.node.count = 2 ^ s.leafBits * ((v.len - 1) / 2 ^ s.leafBits) ∧
      (∀ l, .leaf l ∈ v.root.node.nodes → l.items.length = 2 ^ s.leafBits) ∧
      (0 < v.len → 0 < v.tail.items.length) ∧ v.tail.items.length ≤ 2 ^ s.leafBits ∧
      (∃ k, v.shift = s.leafBits + k * s.bits ∧
        IsLeast {k | v.root.node.count ≤ 2 ^ (s.leafBits + (k + 1) * s.bits)} k) ∧
      v.shift < Word.width ∧ (∀ d, ∀ n ∈ (v.root.node.row d).dropLast, n.Full s) ∧
      ∀ u : Vec β, u.Made s → u.len = v.len → u.skeleton = v.skeleton := by
  obtain ⟨h, k, hv⟩ := hv.exists_canonical hs
  have hcount := hv.filled.count_eq
  refine ⟨?_, hv.sound.len, ?_, ?_, ?_, hv.tail_pos, hv.sound.tail, ?_, ?_, ?_, ?_⟩
  · intro id cs sizes hmem
    rcases hv.filled.of_mem_nodes hmem with heq | ⟨h', k', hn⟩
    · cases heq
      rfl
    · cases hn with
      | inner => rfl
  · rw [hv.len_eq, hcount]
  · rw [hcount, hv.eq_div, Nat.mul_comm]
  · intro l hmem
    rcases hv.filled.of_mem_nodes hmem with heq | ⟨h', k', hn⟩
    · cases heq
    · cases hn with
      | leaf full => exact full
  · have hroot : ∀ j, v.root.node.count ≤ 2 ^ (s.leafBits + (j + 1) * s.bits) ↔
        k ≤ s.leaves (j + 1) := by
      intro j
      rw [hcount, Nat.mul_comm (j + 1), ← Shape.level, Shape.two_pow_level]
      exact Nat.mul_le_mul_right_iff (Nat.two_pow_pos s.leafBits)
    refine ⟨h, by rw [hv.sound.shift, Shape.level, Nat.mul_comm], ?_⟩
    simp only [hroot]
    exact hv.isLeast
  · rw [hv.sound.shift]
    exact hv.level_lt
  · exact fun d n hn => hv.filled.full_of_mem_row hn
  · intro u hu hlen
    obtain ⟨h', k', hu⟩ := hu.exists_canonical hs
    exact hv.skeleton_eq hu hlen

/-- Seven elements, one of them replaced, have the shape of any other seven: three full leaves below
a root that has been raised once, and a tail of one element. -/
theorem Made.canonical_shape_seven :
    ∃ v : Vec Bool, v.Made ⟨1, 1⟩ ∧ v.toList = [false, false, true, false, false, false, false] ∧
      v.root.node.count = 2 ^ 1 * ((v.len - 1) / 2 ^ 1) ∧ v.root.node.count = 6 ∧ v.shift = 2 ∧
      (∀ d, ∀ n ∈ (v.root.node.row d).dropLast, n.Full ⟨1, 1⟩) ∧
      ∀ u : Vec Nat, u.Made ⟨1, 1⟩ → u.len = v.len → u.skeleton = v.skeleton := by
  have hs : Shape.Valid ⟨1, 1⟩ := by decide
  obtain ⟨v, hset, hlist, hcount, hshift⟩ :
      ∃ v, ((Vec.ofList ⟨1, 1⟩ (List.replicate 7 false) 0).1.set? ⟨1, 1⟩ 2 true 20).1 = some v ∧
        v.toList = [false, false, true, false, false, false, false] ∧ v.root.node.count = 6 ∧
        v.shift = 2 := ⟨_, rfl, rfl, rfl, rfl⟩
  have hv : v.Made ⟨1, 1⟩ := .set (.ofList hs (List.replicate 7 false) (by decide) 0) hset
  obtain ⟨-, -, -, hdiv, -, -, -, -, -, hrows, hshape⟩ := Made.canonical_shape (β := Nat) hs hv
  exact ⟨v, hv, hlist, hdiv, hcount, hshift, hrows, hshape⟩

end Vec

end RadixPool
