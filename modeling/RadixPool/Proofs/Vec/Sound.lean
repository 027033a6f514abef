import Mathlib
import RadixPool.Proofs.Tree.Identity

/-!
Sound vectors.

A vector is sound if its tree is, its tail is no longer than a leaf, and its length counts all of
its elements. Appending and replacing keep vectors sound, and on the lists of elements they are
what they should be.

The level of a root can leave the range of a word: a sparse tree from a pool may get a new root
although it has few elements. Such a root is relaxed, and its last child is packed; as this child
would have to hold `2^64` elements to be out of room, the root is never grown again.

* `Vec.Sound`: sound vectors; the height is that of the children of the root.
* `Vec.set?_cases`: the two things that replacing an element can do.
* `Vec.Sound.get?_eq`, `Vec.Sound.set?_eq`, `Vec.Sound.toList_push`: the operations on lists.
* `Vec.Sound.push`: appending keeps vectors sound.
* `Vec.Sound.shift_push`: when appending raises the level of the root.
* `Vec.known_push`, `Vec.known_set?`: appending and replacing only add new nodes.
-/

namespace RadixPool

variable {α : Type} {s : Shape}

namespace Vec

/-- Either the level of the root addresses elements, or the root is relaxed and has room below its
last child. -/
def HasRoom (s : Shape) (h : Nat) (root : Branch α) : Prop :=
  s.level h < Word.width ∨
    root.sizes.isSome ∧ ∃ init last, root.children = init ++ [last] ∧ last.Packed s h

/-- Sound vectors whose root has children of height `h`. -/
structure Sound (s : Shape) (h : Nat) (v : Vec α) : Prop where
  root : v.root.node.Sound s (h + 1)
  shift : v.shift = s.level h
  tail : v.tail.items.length ≤ 2 ^ s.leafBits
  len : v.len = v.toList.length
  lt_count : v.toList.length < Word.count
  room : HasRoom s h v.root

/-- A tree that the full tail of a vector has moved into: it holds the elements of the vector. -/
structure Grown (s : Shape) (v : Vec α) (h : Nat) (tree : Branch α) (shift : Nat) : Prop where
  sound : tree.node.Sound s (h + 1)
  shift : shift = s.level h
  elements : tree.elements = v.toList
  room : HasRoom s h tree

lemma length_toList (v : Vec α) :
    v.toList.length = v.root.node.count + v.tail.items.length := by
  rw [toList, List.length_append, Node.count, Branch.elements_node]

/-- What replacing an element can do: the tail is made anew, or the tree down to the element. -/
lemma set?_cases {v v' : Vec α} {i : Nat} {x : α} {next next' : NodeId}
    (hset : v.set? s i x next = (some v', next')) :
    (v.tailStart ≤ i ∧ next' = next + 1 ∧
      v' = { v with tail := ⟨next, v.tail.items.set (i - v.tailStart) x⟩ }) ∨
    (i < v.tailStart ∧ ∃ root : Branch α, v' = { v with root } ∧
      v.root.node.set? s x next v.shift i = some (root.node, next')) := by
  rw [set?] at hset
  split at hset
  · cases hset
  · split at hset
    · next htail =>
      cases hset
      exact .inl ⟨htail, rfl, rfl⟩
    · next htree =>
      split at hset
      · next slot sub hroute =>
        split at hset
        · next cs next₁ hbelow =>
          cases hset
          refine .inr ⟨Nat.lt_of_not_le htree, ⟨next₁, cs, v.root.sizes⟩, rfl, ?_⟩
          simp only [Branch.node, Node.set?, hroute, hbelow]
        · cases hset
      · cases hset

/-- Replacing an element leaves the level of the root as it is. -/
lemma shift_set? {v v' : Vec α} {i : Nat} {x : α} {next next' : NodeId}
    (hset : v.set? s i x next = (some v', next')) : v'.shift = v.shift := by
  rcases set?_cases hset with ⟨-, -, rfl⟩ | ⟨-, root, rfl, -⟩ <;> rfl

namespace Sound

variable {h : Nat} {v : Vec α}

/-- The tail starts behind the elements of the tree. -/
lemma tailStart_eq (hv : v.Sound s h) : v.tailStart = v.root.node.count := by
  have hlen := length_toList v
  have hlt := hv.lt_count
  rw [tailStart, hv.len, Word.sub_eq (by omega) hlt]
  omega

/-- Without elements a vector is sound. -/
lemma empty (hs : s.Valid) (next : NodeId) : ((Vec.empty s next).1 : Vec α).Sound s 0 where
  root := .inner (Nat.zero_le _) (fun _ => rfl) (fun _ hc => nomatch hc)
    ⟨by rw [Shape.level_zero]; exact hs.leafBits_lt, fun _ hn => nomatch hn⟩
  shift := Shape.level_zero.symm
  tail := Nat.zero_le _
  len := rfl
  lt_count := Nat.two_pow_pos 64
  room := .inl (by rw [Shape.level_zero]; exact hs.leafBits_lt)

/-! ### Reading and replacing -/

/-- A look-up gives the element of the list at the position. -/
theorem get?_eq (hs : s.Valid) (hv : v.Sound s h) (i : Nat) : v.get? s i = v.toList[i]? := by
  have hlen := length_toList v
  rw [get?, hv.tailStart_eq, hv.len]
  split
  · next hle => rw [List.getElem?_eq_none hle]
  · split
    · next _ hle =>
      rw [toList, List.getElem?_append_right (by simpa [Node.count] using hle)]
      simp [Node.count]
    · next _ hlt =>
      have hi : i < v.root.node.count := Nat.lt_of_not_le hlt
      rw [hv.shift, ← Shape.level_succ_sub h, hv.root.get?_eq hs hi, toList,
        List.getElem?_append_left (by simpa [Node.count] using hi), Branch.elements_node]

/-- Out of bounds nothing is replaced. -/
lemma set?_eq_none (hv : v.Sound s h) {i : Nat} (hi : v.toList.length ≤ i) (x : α)
    (next : NodeId) : v.set? s i x next = (none, next) := by
  rw [set?, hv.len, if_pos hi]

/-- Within bounds the element at the position is replaced and no other. -/
theorem set?_eq (hs : s.Valid) (hv : v.Sound s h) {i : Nat} (hi : i < v.toList.length) (x : α)
    (next : NodeId) :
    ∃ v' next', v.set? s i x next = (some v', next') ∧ v'.Sound s h ∧
      v'.toList = v.toList.set i x := by
  have hlen := length_toList v
  rw [set?, hv.tailStart_eq, hv.len, if_neg (Nat.not_le_of_lt hi)]
  by_cases htail : v.root.node.count ≤ i
  · have hlist : v.root.elements ++ v.tail.items.set (i - v.root.node.count) x =
        v.toList.set i x := by
      rw [toList, List.set_append_right _ _ (by simpa [Node.count] using htail)]
      simp [Node.count]
    rw [if_pos htail]
    have hlength := congrArg List.length hlist
    rw [List.length_set] at hlength
    exact ⟨_, _, rfl, ⟨hv.root, hv.shift, by simpa using hv.tail, hlength.symm,
      hlength.trans_lt hv.lt_count, hv.room⟩, hlist⟩
  · rw [if_neg htail]
    have hsum : i < (v.root.children.map Node.count).sum := by
      simpa [Branch.node] using Nat.lt_of_not_le htail
    obtain ⟨slot, sub, cs', next', hroute, hset, hsound, helems⟩ :=
      Node.setBelow?_of_children hs hv.root
        (fun c hc j (hj : j < c.count) =>
          ((Node.sound_inner_iff.mp hv.root).2.2.1 c hc).set?_eq hs x next hj) hsum
    have hlist : Node.elementsAll cs' ++ v.tail.items = v.toList.set i x := by
      rw [helems, toList, List.set_append_left]
      · rfl
      · rw [Branch.elements, Node.length_elementsAll]
        exact hsum
    have hlength := congrArg List.length hlist
    rw [List.length_set] at hlength
    rw [hv.shift, hroute]
    simp only [hset]
    refine ⟨_, _, rfl, ⟨hsound next', rfl, hv.tail, hlength.symm, hlength.trans_lt hv.lt_count, ?_⟩,
      hlist⟩
    rcases hv.room with hlev | ⟨hrelaxed, init, last, hcs, hpacked⟩
    · exact .inl hlev
    · rw [hcs] at hset
      obtain ⟨init', last', rfl, rfl | ⟨next₁, hlast⟩⟩ := Node.setBelow?_concat hset
      · exact .inr ⟨hrelaxed, init', last', rfl, hpacked⟩
      · exact .inr ⟨hrelaxed, init', last', rfl, hpacked.set? hlast⟩

/-! ### Appending -/

/-- A new root over the old one and a path to the tail. It needs no table exactly if the old tree
was full, and never one that it could not do without. -/
lemma grown_newRoot (hs : s.Valid) (hv : v.Sound s h) (hlev : s.level h < Word.width)
    (hfull : v.tail.items.length = 2 ^ s.leafBits)
    (next : NodeId)
    (hnone : Node.appendLeaf? s v.tail next v.root.node v.shift = none) :
    Grown s v (h + 1) (v.growTree s next).1.1 (v.growTree s next).1.2 := by
  have hlen := length_toList v
  have hlt := hv.lt_count
  obtain ⟨hsound, hpacked, helems⟩ := Branch.path_sound hfull hlev next
  have hcount : (Branch.path v.tail h next).1.node.count = v.tail.items.length := by
    rw [Node.count, helems]
  have hdense : Word.pow2? (s.level h + s.bits) = some v.root.node.count ↔
      s.level (h + 1) < Word.width ∧ v.root.node.count = 2 ^ s.level (h + 1) := by
    rw [Word.pow2?_eq_some_iff, Nat.one_shiftLeft, Shape.level_succ]
  have hwidth : 2 ≤ 2 ^ s.bits := by
    simpa using Nat.pow_le_pow_right Nat.two_pos hs.bits_pos
  rw [Vec.growTree, hnone]
  simp only [hv.shift, Shape.levelsBelow_level hs, hv.tailStart_eq, hdense,
    Word.add_eq (hlen ▸ hlt)]
  refine ⟨.inner hwidth (fun he => by simp at he) (fun c hc => ?_) ?_, Shape.level_succ h ▸ rfl,
    ?_, ?_⟩
  · rcases List.mem_cons.mp hc with rfl | hc
    · exact hv.root
    · rw [List.mem_singleton.mp hc]
      exact hsound
  · split
    · simp [Tabled, ends, hcount]
    · next hreg =>
      obtain ⟨hlev', hfull'⟩ := not_not.mp (not_or.mp hreg).2
      exact ⟨hlev', by simpa using hfull'⟩
  · simp [Branch.elements, Node.elementsAll, helems, toList]
  · by_cases hlev' : s.level (h + 1) < Word.width
    · exact .inl hlev'
    · refine .inr ⟨?_, [v.root.node], _, rfl, hpacked⟩
      rw [if_pos (.inr fun hd => hlev' hd.1)]
      rfl

/-- A relaxed root that is too high to address elements takes the tail below its last child: that
child has room as long as the vector has fewer than `2^64` elements. -/
lemma grown_high (hs : s.Valid) (hv : v.Sound s h) (hlev : ¬ s.level h < Word.width)
    (hfull : v.tail.items.length = 2 ^ s.leafBits) (next : NodeId) :
    Grown s v h (v.growTree s next).1.1 (v.growTree s next).1.2 := by
  have hlen := length_toList v
  have hlt := hv.lt_count
  obtain ⟨hrelaxed, init, last, hcs, hpacked⟩ := hv.room.resolve_left hlev
  cases h with
  | zero => exact absurd (Shape.level_zero.symm ▸ hs.leafBits_lt) hlev
  | succ h =>
      have hroot : v.root.node = .inner v.root.id (init ++ [last]) v.root.sizes := by
        rw [Branch.node, hcs]
      have hsound : (Node.inner v.root.id (init ++ [last]) v.root.sizes).Sound s (h + 1 + 1) :=
        hroot ▸ hv.root
      have hlast : last.Sound s (h + 1) := (Node.sound_inner_iff.mp hsound).2.2.1 last (by simp)
      have hle : last.count ≤ v.root.node.count := by
        rw [hroot, Node.count_inner]
        exact Node.count_le_of_mem (by simp)
      rw [Vec.growTree, hroot, hv.shift, Node.appendLeaf?_level_succ hs]
      cases hrec : Node.appendLeaf? s v.tail next last (s.level (h + 1) - s.bits) with
      | none =>
          have hcount := hpacked.count_eq_of_appendLeaf?_eq_none hs hlast hrec
          have hbig : Word.count ≤ 2 ^ s.level (h + 1) :=
            Nat.pow_le_pow_right Nat.two_pos (Nat.le_of_not_lt hlev)
          omega
      | some r =>
          obtain ⟨hsound', helems, hpacked'⟩ := hlast.appendLeaf?_eq_some hs hfull
            (hlast.level_lt_of_packed hpacked) (by omega) hrec
          have hcount : r.1.node.count = last.count + v.tail.items.length := by
            rw [Node.count, Branch.elements_node, helems, List.length_append, Node.count]
          refine ⟨hsound.growLast hsound' hcount ?_, rfl, ?_,
            .inr ⟨?_, init, _, rfl, hpacked' hpacked⟩⟩
          · rw [← Node.count_inner v.root.id _ v.root.sizes, ← hroot, ← hlen]
            exact hlt
          · rw [Branch.elements, Node.elementsAll_append, Node.elementsAll_singleton,
              Branch.elements_node, helems, toList, Branch.elements, hcs, Node.elementsAll_append,
              Node.elementsAll_singleton, List.append_assoc]
          · simpa using hrelaxed

/-- A full tail moves into the tree of a sound vector. -/
theorem exists_grown (hs : s.Valid) (hv : v.Sound s h)
    (hfull : v.tail.items.length = 2 ^ s.leafBits) (next : NodeId) :
    ∃ h', Grown s v h' (v.growTree s next).1.1 (v.growTree s next).1.2 := by
  have hlen := length_toList v
  have hlt := hv.lt_count
  by_cases hlev : s.level h < Word.width
  · cases happ : Node.appendLeaf? s v.tail next v.root.node v.shift with
    | none => exact ⟨h + 1, hv.grown_newRoot hs hlev hfull next happ⟩
    | some r =>
        have happ' := happ
        rw [hv.shift, ← Shape.level_succ_sub h] at happ'
        obtain ⟨hsound, helems, -⟩ :=
          hv.root.appendLeaf?_eq_some hs hfull hlev (hlen ▸ hlt) happ'
        rw [Vec.growTree, happ]
        exact ⟨h, hsound, hv.shift, by rw [helems, Branch.elements_node, toList], .inl hlev⟩
  · exact ⟨h, hv.grown_high hs hlev hfull next⟩

/-- Appending puts the element behind the others. -/
theorem toList_push (hs : s.Valid) (hv : v.Sound s h) (x : α) (next : NodeId) :
    (v.push s x next).1.toList = v.toList ++ [x] := by
  rw [Vec.push, Shape.leafCapacity_eq hs]
  split
  · simp [toList]
  · next hle =>
    obtain ⟨_, hg⟩ := hv.exists_grown hs (Nat.le_antisymm hv.tail (Nat.le_of_not_lt hle)) next
    simp only [toList, hg.elements]

/-- Appending keeps vectors sound while their length is a word. -/
theorem push (hs : s.Valid) (hv : v.Sound s h) (x : α) (next : NodeId)
    (hlt : v.toList.length + 1 < Word.count) : ∃ h', (v.push s x next).1.Sound s h' := by
  have hlist := hv.toList_push hs x next
  have hlength : (v.push s x next).1.toList.length = v.toList.length + 1 := by
    rw [hlist, List.length_append, List.length_singleton]
  rw [Vec.push, Shape.leafCapacity_eq hs] at hlength ⊢
  split at hlength
  · next hroom =>
    rw [if_pos hroom]
    refine ⟨h, hv.root, hv.shift, ?_, ?_, by rw [hlength]; exact hlt, hv.room⟩
    · rw [List.length_append, List.length_singleton]
      exact hroom
    · rw [hlength, hv.len, Word.add_eq hlt]
  · next hle =>
    obtain ⟨h', hg⟩ := hv.exists_grown hs (Nat.le_antisymm hv.tail (Nat.le_of_not_lt hle)) next
    rw [if_neg hle]
    refine ⟨h', hg.sound, hg.shift, Nat.one_le_two_pow, ?_, by rw [hlength]; exact hlt, hg.room⟩
    rw [hlength, hv.len, Word.add_eq hlt]

/-- Appending gives the tree a new root, one level up, exactly if the tail is full and no node along
the right edge of the tree could take a further child. The number of elements does not matter. -/
theorem shift_push (hs : s.Valid) (hv : v.Sound s h) (x : α) (next : NodeId) :
    (v.tail.items.length = 2 ^ s.leafBits ∧ v.root.node.EdgeFull s →
      (v.push s x next).1.shift = v.shift + s.bits) ∧
    (¬ (v.tail.items.length = 2 ^ s.leafBits ∧ v.root.node.EdgeFull s) →
      (v.push s x next).1.shift = v.shift) := by
  have hroom : Node.appendLeaf? s v.tail next v.root.node v.shift = none ↔
      v.root.node.EdgeFull s := by
    rw [hv.shift, ← Shape.level_succ_sub h]
    exact hv.root.appendLeaf?_eq_none_iff hs
  rw [Vec.push, Shape.leafCapacity_eq hs]
  split
  · next hlt => exact ⟨fun hfull => absurd hfull.1 (Nat.ne_of_lt hlt), fun _ => rfl⟩
  · next hle =>
    have hfull := Nat.le_antisymm hv.tail (Nat.le_of_not_lt hle)
    rw [← hroom, Vec.growTree]
    cases happ : Node.appendLeaf? s v.tail next v.root.node v.shift with
    | some r => exact ⟨fun h => (nomatch h.2), fun _ => rfl⟩
    | none => exact ⟨fun _ => rfl, fun hnot => absurd ⟨hfull, rfl⟩ hnot⟩

end Sound

/-! ### New nodes -/

variable {H : Heap α} {next : NodeId}

lemma known_iff {v : Vec α} :
    v.Known H ↔ v.root.node.Known H ∧ (Node.leaf v.tail).Known H := by
  constructor
  · intro hv
    refine ⟨fun m hm => hv m (List.mem_append_left _ hm), fun m hm => hv m ?_⟩
    rw [Node.nodes, List.mem_singleton] at hm
    exact List.mem_append_right _ (by rw [hm]; exact List.mem_singleton_self _)
  · rintro ⟨hroot, htail⟩ m hm
    rcases List.mem_append.mp hm with hm | hm
    · exact hroot m hm
    · exact htail m hm

lemma known_empty (hfree : H.FreeFrom next) :
    ∃ H', H.Grows next H' (Vec.empty (α := α) s next).2 ∧ (Vec.empty s next).1.Known H' := by
  obtain ⟨H₁, hg₁, hk₁⟩ := Heap.alloc_inner hfree [] (by simp) none
  obtain ⟨H₂, hg₂, hk₂⟩ := Heap.alloc_leaf hg₁.free []
  exact ⟨H₂, hg₁.trans hg₂, known_iff.mpr ⟨hg₂.known hk₁, hk₂⟩⟩

/-- Appending to a known vector only adds new nodes. -/
lemma known_push (hfree : H.FreeFrom next) {v : Vec α} (hv : v.Known H) (x : α) :
    ∃ H', H.Grows next H' (v.push s x next).2 ∧ (v.push s x next).1.Known H' := by
  obtain ⟨hroot, htail⟩ := known_iff.mp hv
  rw [push]
  split
  · obtain ⟨H₁, hg₁, hk₁⟩ := Heap.alloc_leaf hfree (v.tail.items ++ [x])
    exact ⟨H₁, hg₁, known_iff.mpr ⟨hg₁.known hroot, hk₁⟩⟩
  · have hgrow : ∃ H', H.Grows next H' (v.growTree s next).2 ∧
        (v.growTree s next).1.1.node.Known H' := by
      rw [growTree]
      split
      · next happ => exact Node.known_appendLeaf? hfree htail hroot happ
      · obtain ⟨H₁, hg₁, hk₁⟩ := Node.known_path hfree htail (s.levelsBelow v.shift)
        obtain ⟨H₂, hg₂, hk₂⟩ := Heap.alloc_inner hg₁.free
          [v.root.node, (Branch.path v.tail (s.levelsBelow v.shift) next).1.node]
          (by simpa using ⟨hg₁.known hroot, hk₁⟩) _
        exact ⟨H₂, hg₁.trans hg₂, hk₂⟩
    obtain ⟨H₁, hg₁, hk₁⟩ := hgrow
    obtain ⟨H₂, hg₂, hk₂⟩ := Heap.alloc_leaf hg₁.free [x]
    exact ⟨H₂, hg₁.trans hg₂, known_iff.mpr ⟨hg₂.known hk₁, hk₂⟩⟩

/-- Replacing an element of a known vector only adds new nodes. -/
lemma known_set? (hfree : H.FreeFrom next) {v v' : Vec α} (hv : v.Known H) {i : Nat} {x : α}
    {next' : NodeId} (hset : v.set? s i x next = (some v', next')) :
    ∃ H', H.Grows next H' next' ∧ v'.Known H' := by
  obtain ⟨hroot, htail⟩ := known_iff.mp hv
  rcases set?_cases hset with ⟨-, rfl, rfl⟩ | ⟨-, root, rfl, hnode⟩
  · obtain ⟨H₁, hg₁, hk₁⟩ := Heap.alloc_leaf hfree (v.tail.items.set (i - v.tailStart) x)
    exact ⟨H₁, hg₁, known_iff.mpr ⟨hg₁.known hroot, hk₁⟩⟩
  · obtain ⟨H₁, hg₁, hk₁⟩ := Node.known_set? hfree hroot hnode
    exact ⟨H₁, hg₁, known_iff.mpr ⟨hk₁, hg₁.known htail⟩⟩

end Vec

end RadixPool
