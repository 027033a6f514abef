import Mathlib
import RadixPool.Proofs.Sharing.Counts
import RadixPool.Proofs.Tree.Renewal
import RadixPool.Proofs.Vec.WellFormed

/-!
What an operation makes anew.

Appending to a tail with room and replacing an element of the tail make a new tail. Replacing an
element of the tree makes the nodes on the way to it anew. A full tail moves into the tree as it is,
and the nodes above it are new, whether the tree gets a new root or not. All other nodes of the new
vector are nodes of the old one.

* `Vec.newIds`, `Vec.Makes`: the nodes of a new vector that are not those of an old one, and how
  many there are.
* `Vec.RenewsTail`, `Vec.RenewsPath`, `Vec.TakesTail`: the three things that an operation can do.
* `Vec.renewsTail_push`, `Vec.Sound.takesTail_push`, `Vec.Sound.renewsTail_set?`,
  `Vec.Sound.renewsPath_set?`: when it does which.
* `World.Reachable.copies_path`: appending and replacing in any history.
-/

namespace RadixPool

variable {α : Type} {s : Shape}

namespace Vec

variable {H H' : Heap α} {next next' : NodeId} {v v' : Vec α}

/-! ### New nodes -/

/-- The identities of the leaves, or of the inner nodes, that `v'` has and `v` has not. -/
def newIds (leaf : Bool) (v v' : Vec α) : Finset NodeId := kindIds leaf [v'] \ kindIds leaf [v]

lemma mem_kindIds_singleton {leaf : Bool} {i : NodeId} :
    i ∈ kindIds leaf [v] ↔ ∃ n ∈ v.nodes, n.isLeaf = leaf ∧ n.id = i := by
  rw [mem_kindIds]
  simp only [List.mem_singleton, exists_eq_left]

/-- The new nodes of a kind are those whose identities have been drawn since, if all others are
old. -/
lemma newIds_eq (hfree : H.FreeFrom next) (hv : v.Known H) {leaf : Bool} {N : Finset NodeId}
    (hnew : ∀ i ∈ N, next ≤ i ∧ ∃ n ∈ v'.nodes, n.isLeaf = leaf ∧ n.id = i)
    (hold : ∀ n ∈ v'.nodes, n.isLeaf = leaf → n.id ∈ N ∨ n ∈ v.nodes) :
    newIds leaf v v' = N := by
  ext i
  rw [newIds, Finset.mem_sdiff, mem_kindIds_singleton, mem_kindIds_singleton]
  constructor
  · rintro ⟨⟨n, hn, hkind, rfl⟩, hnot⟩
    exact (hold n hn hkind).resolve_right fun hmem => hnot ⟨n, hmem, hkind, rfl⟩
  · intro hi
    obtain ⟨hle, n, hn, hkind, hid⟩ := hnew i hi
    refine ⟨⟨n, hn, hkind, hid⟩, ?_⟩
    rintro ⟨m, hm, -, hmid⟩
    exact absurd (hmid ▸ Heap.lt_of_eq_some hfree (hv m hm)) (Nat.not_lt_of_le hle)

/-- The result of an operation has `inner` inner nodes and `leaf` leaves that the vector before does
not have. All identities drawn meanwhile are theirs, and that many more nodes are counted. -/
structure Makes (next next' : NodeId) (inner leaf : Nat) (v v' : Vec α) : Prop where
  newInner : (newIds false v v').card = inner
  newLeaf : (newIds true v v').card = leaf
  drawn : newIds false v v' ∪ newIds true v v' = Finset.Ico next next'
  counts : nodeCounts [v, v'] = ⟨(nodeCounts [v]).inner + inner, (nodeCounts [v]).leaf + leaf⟩

lemma makes_of (hv : v.Known H) (hv' : v'.Known H) {inner leaf : Nat}
    (hinner : (newIds false v v').card = inner) (hleaf : (newIds true v v').card = leaf)
    (hdrawn : newIds false v v' ∪ newIds true v v' = Finset.Ico next next') :
    Makes next next' inner leaf v v' where
  newInner := hinner
  newLeaf := hleaf
  drawn := hdrawn
  counts := by
    have hpair : ∀ u ∈ [v, v'], u.Known H := by simpa using ⟨hv, hv'⟩
    have hsingle : ∀ u ∈ [v], u.Known H := by simpa using hv
    have hcard : ∀ leaf, (kindIds leaf [v, v']).card =
        (kindIds leaf [v]).card + (newIds leaf v v').card := fun leaf =>
      card_kindIds_append leaf [v] [v']
    rw [nodeCounts_eq hpair, nodeCounts_eq hsingle, hcard, hcard, hinner, hleaf]

/-! ### Three ways to make a vector from another -/

/-- The tree stays, and the tail is new. -/
structure RenewsTail (next next' : NodeId) (v v' : Vec α) : Prop where
  root : v'.root = v.root
  tail : newIds true v v' = {v'.tail.id}
  makes : Makes next next' 0 1 v v'

/-- The tail stays. In the tree the nodes on the way to one leaf are new, and at all other places
stand the nodes that stood there before. -/
structure RenewsPath (next next' : NodeId) (v v' : Vec α) : Prop where
  tail : v'.tail = v.tail
  makes : Makes next next' v.root.node.height 1 v v'
  path : ∃ path : List Nat, path.length = v.root.node.height ∧
    (∃ n, v'.root.node.at? path = some n ∧ newIds true v v' = {n.id}) ∧
    (∀ q, q <+: path → q ≠ path → ∃ n, v'.root.node.at? q = some n ∧ n.id ∈ newIds false v v') ∧
    ∀ q, ¬ q <+: path → v'.root.node.at? q = v.root.node.at? q

/-- The tail has become the last leaf of the tree, there is a new tail, and the nodes above the
old one are new. At all other places stand the nodes that stood there before; if there is a new
root, the old one is its first child. -/
structure TakesTail (next next' : NodeId) (v v' : Vec α) : Prop where
  tail : newIds true v v' = {v'.tail.id}
  leaves : v'.root.node.leaves = v.root.node.leaves ++ [.leaf v.tail]
  makes : Makes next next' v'.root.node.height 1 v v'
  path : ∃ path : List Nat, path.length = v'.root.node.height ∧
    v'.root.node.at? path = some (.leaf v.tail) ∧
    (∀ q, q <+: path → q ≠ path → ∃ n, v'.root.node.at? q = some n ∧ n.id ∈ newIds false v v') ∧
    ∀ q n, v'.root.node.at? q = some n → ¬ q <+: path →
      ∃ r, q = List.replicate (v'.root.node.height - v.root.node.height) 0 ++ r ∧
        v.root.node.at? r = some n

/-! ### A new tail -/

/-- A new tail takes one identity. -/
lemma renewsTail_of (hfree : H.FreeFrom next) (hv : v.Known H) (hg : H.Grows next H' (next + 1))
    (hv' : v'.Known H') (hroot : v'.root = v.root) (htail : v'.tail.id = next) :
    RenewsTail next (next + 1) v v' := by
  have hinner : newIds false v v' = ∅ := by
    refine newIds_eq hfree hv (fun i hi => absurd hi (Finset.notMem_empty i)) fun n hn hkind => ?_
    rw [nodes, hroot, List.mem_append, List.mem_singleton] at hn
    rcases hn with hn | rfl
    · exact .inr (List.mem_append_left _ hn)
    · cases hkind
  have hleaf : newIds true v v' = {next} := by
    refine newIds_eq hfree hv (fun i hi => ?_) fun n hn _ => ?_
    · rw [Finset.mem_singleton] at hi
      rw [hi]
      exact ⟨le_rfl, _, List.mem_append_right _ (List.mem_singleton_self _), rfl, htail⟩
    · rw [nodes, hroot, List.mem_append, List.mem_singleton] at hn
      rcases hn with hn | rfl
      · exact .inr (List.mem_append_left _ hn)
      · exact .inl (Finset.mem_singleton.mpr htail)
  refine ⟨hroot, htail ▸ hleaf, makes_of (hg.vecKnown hv) hv' ?_ ?_ ?_⟩
  · rw [hinner, Finset.card_empty]
  · rw [hleaf, Finset.card_singleton]
  · rw [hinner, hleaf, Finset.empty_union, Nat.Ico_succ_singleton]

/-- Appending to a tail with room makes a new tail. -/
theorem renewsTail_push (hs : s.Valid) (hfree : H.FreeFrom next) (hv : v.Known H)
    (x : α)
    (hroom : v.tail.items.length < 2 ^ s.leafBits) :
    RenewsTail next (v.push s x next).2 v (v.push s x next).1 := by
  obtain ⟨H', hg, hv'⟩ := known_push (s := s) hfree hv x
  rw [Vec.push, Shape.leafCapacity_eq hs, if_pos hroom] at hg hv' ⊢
  exact renewsTail_of hfree hv hg hv' rfl rfl

/-! ### A new path -/

section Renewed

variable {old : List Nat → Option (Node α)} {path : List Nat}

/-- In a tree that is renewed along a path down to its leaves, the leaf itself being new or not, the
new inner nodes are those on the path. -/
lemma newIds_false_of_renewed (hfree : H.FreeFrom next) (hv : v.Known H) {e : Nat}
    (hn : v'.root.node.Renewed old path next (path.length + e))
    (hsound : v'.root.node.Sound s path.length)
    (hold : ∀ q n, ¬ q <+: path → old q = some n → n ∈ v.nodes) :
    newIds false v v' = Finset.Ico (next + e) (next + e + path.length) := by
  refine newIds_eq hfree hv (fun i hi => ?_) fun n hn' hkind => ?_
  · obtain ⟨hle, hlt⟩ := Finset.mem_Ico.mp hi
    obtain ⟨j, rfl⟩ := Nat.exists_eq_add_of_le hle
    have hj : j < path.length := Nat.lt_of_add_lt_add_left hlt
    obtain ⟨m, hm, hid⟩ := hn.on_path (e + j) (by omega)
    refine ⟨(Nat.le_add_right _ _).trans hle, m, List.mem_append_left _
      (Node.mem_nodes_iff_exists_at?.mpr ⟨_, hm⟩), ?_, by rw [hid, Nat.add_assoc]⟩
    rw [← Bool.not_eq_true, hsound.isLeaf_iff hm, List.length_take]
    omega
  · rw [nodes, List.mem_append, List.mem_singleton] at hn'
    rcases hn' with hn' | rfl
    · obtain ⟨q, hq⟩ := Node.mem_nodes_iff_exists_at?.mp hn'
      by_cases hp : q <+: path
      · rw [← Bool.not_eq_true, hsound.isLeaf_iff hq] at hkind
        have hlt : q.length < path.length := lt_of_le_of_ne hp.length_le hkind
        obtain ⟨m, hm, hid⟩ := hn.exists_mem_Ico hp hlt
        obtain rfl := Option.some.inj (hq.symm.trans hm)
        exact .inl hid
      · exact .inr (hold q n hp (hn.off_path q hp ▸ hq))
    · cases hkind

end Renewed

namespace Sound

variable {h : Nat} {x : α}

/-- Replacing an element of the tail makes a new tail. -/
theorem renewsTail_set? (hv : v.Sound s h) (hfree : H.FreeFrom next) (hk : v.Known H) {i : Nat}
    (hset : v.set? s i x next = (some v', next')) (hi : v.root.node.count ≤ i) :
    RenewsTail next next' v v' := by
  obtain ⟨H', hg, hv'⟩ := known_set? hfree hk hset
  rcases set?_cases hset with ⟨-, rfl, rfl⟩ | ⟨hlt, -⟩
  · exact renewsTail_of hfree hk hg hv' rfl rfl
  · rw [hv.tailStart_eq] at hlt
    exact absurd hi (Nat.not_le_of_lt hlt)

/-- Replacing an element of the tree makes the nodes on the way to it anew. -/
theorem renewsPath_set? (hs : s.Valid) (hv : v.Sound s h) (hfree : H.FreeFrom next)
    (hk : v.Known H) {i : Nat} (hset : v.set? s i x next = (some v', next'))
    (hi : i < v.root.node.count) : RenewsPath next next' v v' := by
  obtain ⟨H', hg, hv'⟩ := known_set? hfree hk hset
  rcases set?_cases hset with ⟨hle, -⟩ | ⟨-, root, rfl, hnode⟩
  · rw [hv.tailStart_eq] at hle
    exact absurd hi (Nat.not_lt_of_le hle)
  rw [hv.shift, ← Shape.level_succ_sub h] at hnode
  obtain ⟨n₁, next₁, hnode₁, hsound, -⟩ := hv.root.set?_eq hs x next hi
  obtain ⟨rfl, rfl⟩ : n₁ = root.node ∧ next₁ = next' := by
    rw [hnode] at hnode₁
    simpa [eq_comm] using hnode₁
  obtain ⟨path, hlength, rfl, hrenewed⟩ := hv.root.exists_renewed hnode
  rw [← hlength] at hsound hrenewed hg ⊢
  have hheight : v.root.node.height = path.length := hv.root.height_eq.trans hlength.symm
  -- off the path and in the tail everything is old
  have hold : ∀ q n, ¬ q <+: path → v.root.node.at? q = some n → n ∈ v.nodes := fun q n _ hq =>
    List.mem_append_left _ (Node.mem_nodes_iff_exists_at?.mpr ⟨q, hq⟩)
  have hinner : newIds false v { v with root } = Finset.Ico (next + 1) (next + 1 + path.length) :=
    newIds_false_of_renewed hfree hk hrenewed hsound hold
  obtain ⟨leaf, hat, hid⟩ := hrenewed.exists_new List.prefix_rfl (Nat.lt_succ_self _)
  rw [Nat.add_sub_cancel, Nat.sub_self, Nat.add_zero] at hid
  have hleaf : newIds true v { v with root } = {next} := by
    refine newIds_eq hfree hk (fun j hj => ?_) fun n hn hkind => ?_
    · rw [Finset.mem_singleton] at hj
      exact ⟨hj.ge, leaf, List.mem_append_left _ (Node.mem_nodes_iff_exists_at?.mpr ⟨path, hat⟩),
        (hsound.isLeaf_iff hat).mpr rfl, hid.trans hj.symm⟩
    · rw [nodes, List.mem_append] at hn
      rcases hn with hn | hn
      · obtain ⟨q, hq⟩ := Node.mem_nodes_iff_exists_at?.mp hn
        by_cases hp : q <+: path
        · obtain rfl : q = path := hp.eq_of_length ((hsound.isLeaf_iff hq).mp hkind)
          obtain rfl := Option.some.inj (hat.symm.trans hq)
          exact .inl (Finset.mem_singleton.mpr hid)
        · exact .inr (hold q n hp (hrenewed.off_path q hp ▸ hq))
      · exact .inr (List.mem_append_right _ hn)
  refine ⟨rfl, makes_of (hg.vecKnown hk) hv' ?_ ?_ ?_, path, hheight.symm, ⟨leaf, hat, ?_⟩,
    fun q hp hne => ?_, hrenewed.off_path⟩
  · rw [hinner, Nat.card_Ico, Nat.add_sub_cancel_left, hheight]
  · rw [hleaf, Finset.card_singleton]
  · rw [hinner, hleaf, Finset.union_comm, ← Finset.insert_eq,
      Finset.insert_Ico_add_one_left_eq_Ico (Nat.lt_add_right _ (Nat.lt_succ_self next)),
      Nat.succ_add, Nat.add_succ]
  · rw [hleaf, hid]
  · rw [hinner]
    exact hrenewed.exists_mem_Ico hp (lt_of_le_of_ne hp.length_le fun he =>
      hne (hp.eq_of_length he))

/-- A full tail is taken by the tree, whose nodes above it are new; under a new root the old tree is
the first child. -/
lemma exists_took_growTree (hs : s.Valid) (hv : v.Sound s h) (next : NodeId) :
    ∃ path old lift, path.length = h + 1 + lift ∧ (v.growTree s next).2 = next + path.length ∧
      (v.growTree s next).1.1.node.Took v.tail old v.root.node.leaves path next ∧
      ∀ q n, q ≠ [] → old q = some n →
        ∃ r, q = List.replicate lift 0 ++ r ∧ v.root.node.at? r = some n := by
  rw [growTree]
  cases happ : Node.appendLeaf? s v.tail next v.root.node v.shift with
  | some r =>
      rw [hv.shift, ← Shape.level_succ_sub h] at happ
      obtain ⟨path, hlength, hnext, htook⟩ := hv.root.exists_took hs happ
      exact ⟨path, _, 0, hlength, by rw [hlength]; exact hnext, htook,
        fun q n _ hq => ⟨q, rfl, hq⟩⟩
  | none =>
      obtain ⟨path, hlength, hnext, htook⟩ := Node.took_path v.tail h next
      rw [hv.shift, Shape.levelsBelow_level hs]
      have hroot := htook.appendChild [v.root.node] 0 none
      rw [List.flatMap_singleton] at hroot
      refine ⟨1 :: path, (Node.inner 0 [v.root.node] none).at?, 1,
        by rw [List.length_cons, hlength], ?_, ?_, fun q n hne hq => ?_⟩
      · rw [List.length_cons, hlength]
        exact congrArg Nat.succ hnext
      · dsimp only
        rw [hnext, ← hlength]
        exact hroot _
      · cases q with
        | nil => exact absurd rfl hne
        | cons i q =>
            obtain ⟨c, hc, hn⟩ := Node.at?_cons_eq_some_iff.mp hq
            obtain ⟨hi, rfl⟩ := List.getElem?_eq_some_iff.mp hc
            obtain rfl : i = 0 := Nat.lt_one_iff.mp hi
            exact ⟨q, rfl, hn⟩

/-- Appending to a full tail moves it into the tree, makes the nodes above it anew and a new
tail. -/
theorem takesTail_push (hs : s.Valid) (hv : v.Sound s h) (hfree : H.FreeFrom next) (hk : v.Known H)
    (hfull : ¬ v.tail.items.length < 2 ^ s.leafBits) :
    TakesTail next (v.push s x next).2 v (v.push s x next).1 := by
  obtain ⟨h', hgrown⟩ :=
    hv.exists_grown hs (Nat.le_antisymm hv.tail (Nat.le_of_not_lt hfull)) next
  obtain ⟨path, old, lift, hlength, hnext, htook, hold⟩ := hv.exists_took_growTree hs next
  obtain ⟨H', hg, hv'⟩ := known_push (s := s) hfree hk x
  rw [Vec.push, Shape.leafCapacity_eq hs, if_neg hfull] at hg hv' ⊢
  dsimp only at hg hv' ⊢
  rw [hnext] at hg hv' ⊢
  set tree := (v.growTree s next).1.1
  set shift := (v.growTree s next).1.2
  have hsound : tree.node.Sound s path.length := htook.length_eq hgrown.sound ▸ hgrown.sound
  have hheight : tree.node.height = path.length := hsound.height_eq
  have hlift : tree.node.height - v.root.node.height = lift := by
    rw [hheight, hv.root.height_eq, hlength, Nat.add_sub_cancel_left]
  -- off the path everything is old
  have hold' : ∀ q n, ¬ q <+: path → old q = some n → n ∈ v.nodes := by
    intro q n hp hq
    obtain ⟨r, -, hr⟩ := hold q n (fun he => hp (he ▸ List.nil_prefix)) hq
    exact List.mem_append_left _ (Node.mem_nodes_iff_exists_at?.mpr ⟨r, hr⟩)
  set v' : Vec α := ⟨Word.add v.len 1, shift, tree, ⟨next + path.length, [x]⟩⟩
  have hinner : newIds false v v' = Finset.Ico next (next + path.length) :=
    newIds_false_of_renewed (e := 0) hfree hk htook.renewed hsound hold'
  have hleaf : newIds true v v' = {next + path.length} := by
    refine newIds_eq hfree hk (fun j hj => ?_) fun n hn hkind => ?_
    · rw [Finset.mem_singleton] at hj
      exact ⟨hj ▸ Nat.le_add_right _ _, _, List.mem_append_right _ (List.mem_singleton_self _), rfl,
        hj.symm⟩
    · rw [nodes, List.mem_append, List.mem_singleton] at hn
      rcases hn with hn | rfl
      · obtain ⟨q, hq⟩ := Node.mem_nodes_iff_exists_at?.mp hn
        by_cases hp : q <+: path
        · obtain rfl : q = path := hp.eq_of_length ((hsound.isLeaf_iff hq).mp hkind)
          obtain rfl := Option.some.inj (htook.stands.symm.trans hq)
          exact .inr (List.mem_append_right _ (List.mem_singleton_self _))
        · exact .inr (hold' q n hp (htook.renewed.off_path q hp ▸ hq))
      · exact .inl (Finset.mem_singleton_self _)
  refine ⟨hleaf, htook.leaves_eq, makes_of (hg.vecKnown hk) hv' ?_ ?_ ?_, path, hheight.symm,
    htook.stands, fun q hp hne => ?_, fun q n hq hp => ?_⟩
  · rw [hinner, Nat.card_Ico, Nat.add_sub_cancel_left, hheight]
  · rw [hleaf, Finset.card_singleton]
  · rw [hinner, hleaf, Finset.union_comm, ← Finset.insert_eq,
      Finset.insert_Ico_right_eq_Ico_add_one (Nat.le_add_right _ _)]
  · rw [hinner]
    exact Node.Renewed.exists_mem_Ico (e := 0) htook.renewed hp
      (lt_of_le_of_ne hp.length_le fun he => hne (hp.eq_of_length he))
  · rw [hlift]
    exact hold q n (fun he => hp (he ▸ List.nil_prefix)) (htook.renewed.off_path q hp ▸ hq)

end Sound

end Vec

/-- Appending and replacing in a history: a tail with room is made anew, and so is the tail or the
way into the tree when an element is replaced there; a full tail moves into the tree. Nothing else
is new, and what is counted tells how much it is. -/
theorem World.Reachable.copies_path (hs : s.Valid) {w : World α} (hw : w.Reachable s) {v : Vec α}
    (hv : v ∈ w.vecs) :
    (∀ x, if v.tail.items.length < 2 ^ s.leafBits then
        Vec.RenewsTail w.next (v.push s x w.next).2 v (v.push s x w.next).1
      else Vec.TakesTail w.next (v.push s x w.next).2 v (v.push s x w.next).1) ∧
    ∀ i x, i < v.toList.length → ∃ v' next', v.set? s i x w.next = (some v', next') ∧
      if i < v.root.node.count then Vec.RenewsPath w.next next' v v'
      else Vec.RenewsTail w.next next' v v' := by
  obtain ⟨H, hw⟩ := hw.sound hs
  obtain ⟨h, hsound⟩ := hw.vec v hv
  have hk : v.Known H := hw.known v hv
  refine ⟨fun x => ?_, fun i x hi => ?_⟩
  · split
    · next hroom => exact Vec.renewsTail_push hs hw.free hk x hroom
    · next hfull => exact hsound.takesTail_push hs hw.free hk hfull
  · obtain ⟨v', next', hset, -, -⟩ := hsound.set?_eq hs hi x w.next
    refine ⟨v', next', hset, ?_⟩
    split
    · next htree => exact hsound.renewsPath_set? hs hw.free hk hset htree
    · next htail => exact hsound.renewsTail_set? hw.free hk hset (Nat.le_of_not_lt htail)

/-- A vector with a relaxed root, which takes its full tail under a new root and of which one
element is replaced. -/
theorem World.Reachable.copies_path_relaxed :
    ∃ (w : World Bool) (v : Vec Bool), w.Reachable ⟨1, 1⟩ ∧ v ∈ w.vecs ∧ v.root.isRelaxed = true ∧
      v.root.node.height = 1 ∧ (v.push ⟨1, 1⟩ true w.next).1.root.node.height = 2 ∧
      nodeCounts [v] = ⟨1, 3⟩ ∧ nodeCounts [v, (v.push ⟨1, 1⟩ true w.next).1] = ⟨3, 4⟩ ∧
      Vec.TakesTail w.next (v.push ⟨1, 1⟩ true w.next).2 v (v.push ⟨1, 1⟩ true w.next).1 ∧
      ∃ v' next', v.set? ⟨1, 1⟩ 2 true w.next = (some v', next') ∧
        Vec.RenewsPath w.next next' v v' := by
  have hs : Shape.Valid ⟨1, 1⟩ := by decide
  obtain ⟨l, hw⟩ := Reachable.relaxed
  obtain ⟨hpush, hset⟩ := Reachable.copies_path hs hw (v := relaxedVec) List.mem_cons_self
  have htakes := hpush true
  rw [if_neg (by decide)] at htakes
  obtain ⟨v', next', hset, hrenews⟩ := hset 2 true (by decide)
  rw [if_pos (by decide)] at hrenews
  exact ⟨_, relaxedVec, hw, List.mem_cons_self, rfl, rfl, rfl, rfl, rfl, htakes, v', next', hset,
    hrenews⟩

end RadixPool
