import Mathlib
import RadixPool.Proofs.Pool.Save
import RadixPool.Proofs.Sharing.Counts
import RadixPool.Proofs.Vec.History

/-!
A pool holds every node once.

The keys that a builder gives are the numbers from 0 on, one for each node of the vectors added;
each of them is the key of one entry, which describes its node, and the vectors of the pool are
those added, without repetitions, in the order of their first addition.

* `Vec.ends`: what makes two vectors the same one to a builder.
* `Builder.Dedups`: the pool of a builder holds the nodes of some vectors, each of them once.
* `Builder.Sound.exists_key?_iff`, `Builder.Sound.exists_key?_eq_iff`: which nodes have keys, and
  which keys they have.
* `Builder.Sound.listed_add`, `Builder.Sound.listed_addAll`: the vectors of the pool.
* `Builder.dedups_addAll`: whatever vectors are added, the pool holds their nodes once.
-/

namespace RadixPool

variable {α : Type} {s : Shape}

/-- The identities of the root and the tail of a vector. -/
def Vec.ends (v : Vec α) : NodeId × NodeId := (v.root.id, v.tail.id)

namespace Builder

/-- The keys of a root and a tail are those of a vector of the pool. -/
def Listed (b : Builder α) (e : PooledVec) (r : NodeId × NodeId) : Prop :=
  b.key? r.1 = some e.root ∧ b.key? r.2 = some e.tail

/-- The pool of a builder holds the nodes of some vectors, each of them once. -/
structure Dedups (vs : List (Vec α)) (b : Builder α) : Prop where
  /-- The nodes of the vectors have keys, and no others. -/
  met : ∀ i, (∃ k, b.key? i = some k) ↔ i ∈ Vec.ids vs
  /-- Different nodes have different keys. -/
  inj : ∀ {i j k}, b.key? i = some k → b.key? j = some k → i = j
  /-- The keys are the numbers below the number of entries. -/
  range : ∀ k, (∃ i, b.key? i = some k) ↔ k < b.pool.nodeCount
  /-- The keys of the entries are the same numbers. -/
  used : ∀ k, b.pool.contains k = true ↔ k < b.pool.nodeCount
  /-- No key is that of an inner node and of a leaf. -/
  kinds : ∀ k, ¬ (b.pool.inners.contains k = true ∧ b.pool.leaves.contains k = true)
  /-- Every node has its entry. -/
  entry : ∀ v ∈ vs, ∀ n ∈ v.nodes, ∃ k, b.key? n.id = some k ∧ b.Entered k n
  /-- The entry of an inner node lists the keys of its children in order, and says whether the node
  is relaxed. -/
  inner : ∀ {k e}, b.pool.inners.get? k = some e → ∃ v ∈ vs, ∃ n : Branch α, n.node ∈ v.nodes ∧
    b.key? n.id = some k ∧ (n.children.map Node.id).map b.key? = e.children.map some ∧
      e.relaxed = n.isRelaxed
  /-- The entry of a leaf lists its elements. -/
  leaf : ∀ {k items}, b.pool.leaves.get? k = some items → ∃ v ∈ vs, ∃ l : Leaf α,
    .leaf l ∈ v.nodes ∧ b.key? l.id = some k ∧ items = l.items
  /-- Every key that an entry lists for a child is in use. -/
  child : ∀ {k e}, b.pool.inners.get? k = some e → ∀ c ∈ e.children, b.pool.contains c = true
  /-- Roots are inner nodes. -/
  root : ∀ e ∈ b.pool.vectors, b.pool.inners.contains e.root = true
  /-- Tails are leaves. -/
  tail : ∀ e ∈ b.pool.vectors, b.pool.leaves.contains e.tail = true
  /-- The vectors are those added, without repetitions, in the order of their first addition. -/
  vectors : List.Forall₂ b.Listed b.pool.vectors (vs.map Vec.ends).eraseDups
  /-- There are as many entries of both kinds as the vectors have different nodes. -/
  counts : nodeCounts vs = ⟨b.pool.inners.size, b.pool.leaves.size⟩

/-- The key of a node that was met. -/
def keyOf (b : Builder α) (i : NodeId) : Key := (b.key? i).getD 0

variable {b b' : Builder α} {H : Heap α} {vs us : List (Vec α)} {k : Key}

namespace Sound

/-! ### The keys in use -/

/-- A vector with a position in the pool was met with all of its nodes. -/
lemma exists_key?_of_holds (hb : b.Sound H ∅) {v : Vec α} (hv : v.Known H) {p : Nat}
    (hp : b.Holds p v) {n : Node α} (hn : n ∈ v.nodes) : ∃ k, b.key? n.id = some k := by
  -- the children of a node that has its entry have keys
  have hclosed : ∀ {i cs sizes}, (Node.inner i cs sizes : Node α).Known H →
      i ∈ {i | ∃ k, b.key? i = some k} → ∀ c ∈ cs, c.id ∈ {i | ∃ k, b.key? i = some k} := by
    rintro i cs sizes hk ⟨k, hi⟩ c hc
    obtain ⟨ks, -, hks⟩ := hb.entry hk hi
    have hmem : b.key? c.id ∈ ks.map some :=
      hks ▸ List.mem_map_of_mem (List.mem_map_of_mem hc)
    obtain ⟨k', -, hk'⟩ := List.mem_map.mp hmem
    exact ⟨k', hk'.symm⟩
  obtain ⟨e, -, hroot, htail⟩ := hp
  obtain ⟨m, hm, hmn⟩ := Vec.mem_nodes_iff.mp hn
  refine Node.Known.id_mem_of_closed hclosed (hv.of_mem_tops hm) ?_ hmn
  simp only [Vec.tops, List.mem_cons, List.not_mem_nil, or_false] at hm
  rcases hm with rfl | rfl
  · exact ⟨e.root, hroot⟩
  · exact ⟨e.tail, htail⟩

/-- The nodes of the family have keys, and no others. -/
lemma exists_key?_iff (hb : b.Sound (H.only (Vec.ids vs)) ∅) (hvs : ∀ v ∈ vs, v.Known H)
    (hholds : ∀ v ∈ vs, ∃ p, b.Holds p v) (i : NodeId) :
    (∃ k, b.key? i = some k) ↔ i ∈ Vec.ids vs := by
  constructor
  · rintro ⟨k, hk⟩
    obtain ⟨n, rfl, hn⟩ := hb.known hk
    exact (Heap.exists_mem_of_known_only hvs hn).1
  · intro hi
    obtain ⟨v, hv, n, hn, rfl⟩ := Vec.mem_ids.mp hi
    obtain ⟨p, hp⟩ := hholds v hv
    exact hb.exists_key?_of_holds (Heap.known_only hv (hvs v hv)) hp hn

/-- The key of a node that was met. -/
lemma key?_eq_keyOf {S : Finset NodeId} (hS : ∀ i ∈ S, ∃ k, b.key? i = some k) {i : NodeId}
    (hi : i ∈ S) : b.key? i = some (b.keyOf i) := by
  obtain ⟨k, hk⟩ := hS i hi
  rw [keyOf, hk, Option.getD_some]

lemma injOn_keyOf (hb : b.Sound H ∅) {S : Finset NodeId} (hS : ∀ i ∈ S, ∃ k, b.key? i = some k) :
    Set.InjOn b.keyOf S := by
  intro i hi j hj heq
  exact hb.inj (key?_eq_keyOf hS hi) (heq ▸ key?_eq_keyOf hS hj)

/-- The keys given are the numbers below the number of nodes met: there are as many of them, and no
two nodes have the same one. -/
lemma exists_key?_eq_iff (hb : b.Sound H ∅) {S : Finset NodeId}
    (hS : ∀ i, (∃ k, b.key? i = some k) ↔ i ∈ S) (k : Key) :
    (∃ i, b.key? i = some k) ↔ k < S.card := by
  have hsize : b.keys.size = S.card := KeyMap.size_eq_card hS
  constructor
  · rintro ⟨i, hi⟩
    exact hsize ▸ hb.lt_size hi
  · intro hk
    have hkey : ∀ i ∈ S, ∃ k, b.key? i = some k := fun i hi => (hS i).mpr hi
    have hmaps : Set.MapsTo b.keyOf S (Finset.range S.card) := by
      intro i hi
      exact Finset.mem_coe.mpr (Finset.mem_range.mpr (hsize ▸ hb.lt_size (key?_eq_keyOf hkey hi)))
    obtain ⟨i, hi, rfl⟩ := Finset.surjOn_of_injOn_of_card_le b.keyOf hmaps (hb.injOn_keyOf hkey)
      (Finset.card_range _).le (Finset.mem_coe.mpr (Finset.mem_range.mpr hk))
    exact ⟨i, key?_eq_keyOf hkey hi⟩

/-- A map whose keys are those of the nodes of one kind has as many entries as there are such
nodes. -/
lemma size_eq_card_kindIds (hb : b.Sound (H.only (Vec.ids vs)) ∅) (hvs : ∀ v ∈ vs, v.Known H)
    (hmet : ∀ i, (∃ k, b.key? i = some k) ↔ i ∈ Vec.ids vs) {β : Type} {m : KeyMap β} {leaf : Bool}
    (hm : ∀ k, (∃ e, m.get? k = some e) ↔
      ∃ n : Node α, n.Known (H.only (Vec.ids vs)) ∧ n.isLeaf = leaf ∧ b.key? n.id = some k) :
    m.size = (Vec.kindIds leaf vs).card := by
  have hkey : ∀ i ∈ Vec.kindIds leaf vs, ∃ k, b.key? i = some k := by
    intro i hi
    obtain ⟨v, hv, n, hn, -, hid⟩ := Vec.mem_kindIds.mp hi
    exact (hmet i).mpr (Vec.mem_ids.mpr ⟨v, hv, n, hn, hid⟩)
  rw [← Finset.card_image_of_injOn (hb.injOn_keyOf hkey)]
  refine KeyMap.size_eq_card fun k => ?_
  rw [hm, Finset.mem_image]
  constructor
  · rintro ⟨n, hn, hkind, hk⟩
    obtain ⟨v, hv, hmem⟩ := (Heap.exists_mem_of_known_only hvs hn).2
    have hid : n.id ∈ Vec.kindIds leaf vs := Vec.mem_kindIds.mpr ⟨v, hv, n, hmem, hkind, rfl⟩
    exact ⟨n.id, hid, Option.some.inj ((key?_eq_keyOf hkey hid).symm.trans hk)⟩
  · rintro ⟨i, hi, rfl⟩
    obtain ⟨v, hv, n, hn, hkind, rfl⟩ := Vec.mem_kindIds.mp hi
    exact ⟨n, (Heap.known_only hv (hvs v hv)).of_mem_nodes hn, hkind, key?_eq_keyOf hkey hi⟩

/-- There are as many entries of inner nodes as inner nodes. -/
lemma size_inners (hb : b.Sound (H.only (Vec.ids vs)) ∅) (hvs : ∀ v ∈ vs, v.Known H)
    (hmet : ∀ i, (∃ k, b.key? i = some k) ↔ i ∈ Vec.ids vs) :
    b.pool.inners.size = (Vec.kindIds false vs).card := by
  refine hb.size_eq_card_kindIds hvs hmet fun k => ⟨?_, ?_⟩
  · rintro ⟨e, he⟩
    obtain ⟨n, hn, hk, -⟩ := hb.inner he
    exact ⟨n.node, hn, rfl, hk⟩
  · rintro ⟨n, hn, hkind, hk⟩
    cases n with
    | leaf l => cases hkind
    | inner id cs sizes =>
        obtain ⟨ks, he, -⟩ := hb.entry hn hk
        exact ⟨_, he⟩

/-- There are as many entries of leaves as leaves. -/
lemma size_leaves (hb : b.Sound (H.only (Vec.ids vs)) ∅) (hvs : ∀ v ∈ vs, v.Known H)
    (hmet : ∀ i, (∃ k, b.key? i = some k) ↔ i ∈ Vec.ids vs) :
    b.pool.leaves.size = (Vec.kindIds true vs).card := by
  refine hb.size_eq_card_kindIds hvs hmet fun k => ⟨?_, ?_⟩
  · rintro ⟨items, hitems⟩
    obtain ⟨l, hl, hk, -⟩ := hb.leaf hitems
    exact ⟨.leaf l, hl, rfl, hk⟩
  · rintro ⟨n, hn, hkind, hk⟩
    cases n with
    | leaf l => exact ⟨_, hb.entry hn hk⟩
    | inner id cs sizes => cases hkind

/-- Every node has one entry. -/
lemma nodeCount_eq (hb : b.Sound (H.only (Vec.ids vs)) ∅) (hvs : ∀ v ∈ vs, v.Known H)
    (hmet : ∀ i, (∃ k, b.key? i = some k) ↔ i ∈ Vec.ids vs) :
    b.pool.nodeCount = (Vec.ids vs).card := by
  rw [Pool.nodeCount, hb.size_inners hvs hmet, hb.size_leaves hvs hmet, Vec.card_kindIds hvs]

/-! ### The vectors of the pool -/

/-- A vector is added behind the others, unless its keys are there already. -/
lemma vectors_add (hb : b.Sound H ∅) {v : Vec α} (hv : v.Known H) :
    ∃ e, (b.add v).2.Listed e v.ends ∧
      (b.add v).2.pool.vectors =
        if e ∈ b.pool.vectors then b.pool.vectors else b.pool.vectors ++ [e] := by
  obtain ⟨-, -, e, he, hroot, htail⟩ := hb.add hv
  refine ⟨e, ⟨hroot, htail⟩, ?_⟩
  clear hroot htail
  rw [Builder.add] at he ⊢
  dsimp only at he ⊢
  split at he
  · next i hfind =>
    have hmem := List.mem_of_getElem? he
    rw [pool_assign, pool_assign] at hmem ⊢
    rw [if_pos hmem]
  · next hfind =>
    have hvectors : ((((b.assign v.root.id).2.assign v.tail.id).2.enter (b.assign v.root.id).1
        v.root.node).enterLeaf ((b.assign v.root.id).2.assign v.tail.id).1
          v.tail.items).pool.vectors = b.pool.vectors := by
      rw [vectors_enterLeaf, vectors_enter, pool_assign, pool_assign]
    rw [find?, List.idxOf?_eq_none_iff, pool_assign, pool_assign] at hfind
    rw [hvectors] at he ⊢
    rw [List.getElem?_concat_length, Option.some.injEq] at he
    rw [← he, if_neg hfind]

/-- To a sound builder a root and a tail are as good as their keys. -/
lemma biUnique_listed (hb : b.Sound H ∅) : Relator.BiUnique b.Listed := by
  constructor
  · rintro ⟨root, tail⟩ ⟨root', tail'⟩ r ⟨hroot, htail⟩ ⟨hroot', htail'⟩
    rw [PooledVec.mk.injEq]
    exact ⟨Option.some.inj (hroot.symm.trans hroot'), Option.some.inj (htail.symm.trans htail')⟩
  · rintro e ⟨i, j⟩ ⟨i', j'⟩ ⟨hroot, htail⟩ ⟨hroot', htail'⟩
    rw [Prod.mk.injEq]
    exact ⟨hb.inj hroot hroot', hb.inj htail htail'⟩

/-- Adding a vector keeps the vectors of the pool free of repetitions and in order. -/
theorem listed_add (hb : b.Sound H ∅) {v : Vec α} (hv : v.Known H)
    (hus : List.Forall₂ b.Listed b.pool.vectors (us.map Vec.ends).eraseDups) :
    List.Forall₂ (b.add v).2.Listed (b.add v).2.pool.vectors
      ((us ++ [v]).map Vec.ends).eraseDups := by
  obtain ⟨hsound, hgrows, -⟩ := hb.add hv
  obtain ⟨e, he, hvectors⟩ := hb.vectors_add hv
  have hold : List.Forall₂ (b.add v).2.Listed b.pool.vectors (us.map Vec.ends).eraseDups :=
    hus.imp fun _ _ h => ⟨hgrows.key? h.1, hgrows.key? h.2⟩
  have hmem : e ∈ b.pool.vectors ↔ v.ends ∈ us.map Vec.ends := by
    rw [← List.mem_eraseDups (l := us.map Vec.ends)]
    exact List.rel_mem hsound.biUnique_listed he hold
  rw [hvectors, List.map_append, List.map_singleton, List.eraseDups_append]
  split
  · next hin =>
    rw [List.removeAll, List.filter_singleton, List.elem_eq_mem, decide_eq_true (hmem.mp hin)]
    simpa using hold
  · next hnot =>
    rw [List.removeAll, List.filter_singleton, List.elem_eq_mem,
      decide_eq_false fun h => hnot (hmem.mpr h)]
    exact List.rel_append hold (.cons he .nil)

/-- Adding vectors keeps the vectors of the pool free of repetitions and in order. -/
theorem listed_addAll (hb : b.Sound H ∅) (hvs : ∀ v ∈ vs, v.Known H)
    (hus : List.Forall₂ b.Listed b.pool.vectors (us.map Vec.ends).eraseDups) :
    List.Forall₂ (b.addAll vs).2.Listed (b.addAll vs).2.pool.vectors
      ((us ++ vs).map Vec.ends).eraseDups := by
  induction vs generalizing b us with
  | nil => rwa [List.append_nil]
  | cons v vs ih =>
      obtain ⟨hv, hvs⟩ := List.forall_mem_cons.mp hvs
      rw [addAll_cons, List.append_cons]
      exact ih (hb.add hv).1 hvs (hb.listed_add hv hus)

end Sound

/-! ### The whole pool -/

/-- Whatever vectors are added in whatever order, the pool holds their nodes, each of them once.
The vectors may share nodes with each other and within themselves; all that is assumed is that one
identity is one node. As the calls made up to some point are such a sequence as well, this holds
after each of them. -/
theorem dedups_addAll (hvs : ∀ v ∈ vs, v.Known H) :
    ((empty s).addAll vs).2.Dedups vs := by
  obtain ⟨hb, -, hholds⟩ := Sound.empty (s := s) |>.addAll fun v hv => Heap.known_only hv (hvs v hv)
  have hlisted : List.Forall₂ ((empty s).addAll vs).2.Listed ((empty s).addAll vs).2.pool.vectors
      (([] ++ vs).map Vec.ends).eraseDups :=
    Sound.empty.listed_addAll (fun v hv => Heap.known_only hv (hvs v hv)) .nil
  set b := ((empty s).addAll vs).2
  have hmet := hb.exists_key?_iff hvs fun v hv => exists_holds hholds hv
  have hcount := hb.nodeCount_eq hvs hmet
  have hrange : ∀ k, (∃ i, b.key? i = some k) ↔ k < b.pool.nodeCount :=
    fun k => hcount ▸ hb.exists_key?_eq_iff hmet k
  exact {
    met := hmet
    inj := hb.inj
    range := hrange
    used := fun k => by rw [hb.contains_iff, hrange]
    kinds := fun k ⟨hinner, hleaf⟩ => by
      obtain ⟨e, he⟩ := KeyMap.contains_iff.mp hinner
      obtain ⟨items, hitems⟩ := KeyMap.contains_iff.mp hleaf
      have hnone : b.pool.inners.get? k = none := hb.disjoint hitems
      rw [he] at hnone
      cases hnone
    entry := fun v hv n hn => by
      obtain ⟨k, hk⟩ := (hmet n.id).mpr (Vec.mem_ids.mpr ⟨v, hv, n, hn, rfl⟩)
      exact ⟨k, hk, hb.entry ((Heap.known_only hv (hvs v hv)).of_mem_nodes hn) hk⟩
    inner := fun {k e} he => by
      obtain ⟨n, hn, hk, ks, he', hks⟩ := hb.inner he
      obtain rfl := Option.some.inj (he.symm.trans he')
      obtain ⟨v, hv, hmem⟩ := (Heap.exists_mem_of_known_only hvs hn).2
      exact ⟨v, hv, n, hmem, hk, hks, rfl⟩
    leaf := fun hitems => by
      obtain ⟨l, hl, hk, rfl⟩ := hb.leaf hitems
      obtain ⟨v, hv, hmem⟩ := (Heap.exists_mem_of_known_only hvs hl).2
      exact ⟨v, hv, l, hmem, hk, rfl⟩
    child := fun he c hc => hb.contains_child he hc
    root := fun e he => KeyMap.contains_iff.mpr (hb.kinds he).1
    tail := fun e he => KeyMap.contains_iff.mpr (hb.kinds he).2
    vectors := hlisted
    counts := by rw [nodeCounts_eq hvs, hb.size_inners hvs hmet, hb.size_leaves hvs hmet] }

/-- A relaxed vector, the one it has grown into, and one that was loaded from the same pool by
another loader, whose nodes have the same contents but are different ones. -/
theorem dedups_addAll_grown :
    ∃ (u : Vec Bool) (H : Heap Bool), u.toList = World.relaxedVec.toList ∧
      u.root.sizes = World.relaxedVec.root.sizes ∧
      Disjoint (Vec.ids [u]) (Vec.ids [World.grownVec, World.relaxedVec]) ∧
      (∀ v ∈ [World.grownVec, World.relaxedVec, World.grownVec, u], v.Known H) ∧
      ((empty ⟨1, 1⟩).addAll [World.grownVec, World.relaxedVec, World.grownVec, u]).2.Dedups
        [World.grownVec, World.relaxedVec, World.grownVec, u] ∧
      nodeCounts [World.grownVec, World.relaxedVec, World.grownVec, u] = ⟨4, 7⟩ ∧
      ((empty ⟨1, 1⟩).addAll [World.grownVec, World.relaxedVec, World.grownVec, u]).2.pool.vectors =
        [⟨0, 1⟩, ⟨2, 6⟩, ⟨7, 8⟩] := by
  have hs : Shape.Valid ⟨1, 1⟩ := by decide
  obtain ⟨l, hgrown⟩ := World.Reachable.grown
  let u : Vec Bool := World.relaxedVec.map (· + 7) id
  obtain ⟨l₁, l₂, hl₁, hload⟩ : ∃ l₁ l₂, Loader.ofPool ⟨1, 1⟩ "pool" World.relaxedPool = .ok l₁ ∧
      l₁.vecOf ⟨0, 3⟩ 7 = ((.ok u, l₂), 11) := ⟨_, _, rfl, rfl⟩
  have hstep : World.Step ⟨1, 1⟩ ⟨7, [World.grownVec, World.relaxedVec], [l₁, l]⟩ _ :=
    .load (n := 0) rfl hload (by decide)
  have hreach : World.Reachable ⟨1, 1⟩ _ := (hgrown.tail (.accept hl₁)).tail hstep
  obtain ⟨H, hw⟩ := hreach.sound hs
  have hknown : ∀ v ∈ [World.grownVec, World.relaxedVec, World.grownVec, u], v.Known H := by
    intro v hv
    refine hw.known v ?_
    simp only [List.mem_cons, List.not_mem_nil, or_false] at hv ⊢
    tauto
  exact ⟨u, H, rfl, rfl, by decide, hknown, dedups_addAll hknown, by decide, by decide⟩

end Builder

end RadixPool
