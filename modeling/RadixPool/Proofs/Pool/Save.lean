import Mathlib
import RadixPool.Proofs.Pool.Builder
import RadixPool.Proofs.Pool.Load
import RadixPool.Proofs.Tree.Outline

/-!
Pools made by a builder are accepted.

The pool that a builder makes of sound vectors whose roots address elements passes every check: the
heights and the counts of the nodes themselves are a rating that fits it.

* `Node.Storable`: the nodes that may stand in a pool; `Vec.Formed.storable` and
  `Vec.Sound.storable` find them in vectors.
* `Builder.rating`: heights and counts of the nodes met.
* `Builder.Sound.checked`, `Builder.Sound.disjoint`, `Builder.Sound.fits`: what a pool made by a
  builder is like.
* `Builder.Sound.ofPool_eq_ok`, `Builder.Sound.ofJson_toJson`: it is accepted, and is read back from
  its document.
* `Heap.only`: the heap of the nodes of a family of vectors.
-/

namespace RadixPool

variable {α : Type} {s : Shape}

/-- Sound nodes whose level addresses elements and whose count is a word. -/
structure Node.Storable (s : Shape) (n : Node α) : Prop where
  sound : n.Sound s n.height
  level : s.level (n.height - 1) < Word.width
  count : n.count < Word.count

/-- The nodes of a formed vector may stand in a pool if its root addresses elements and the count
of its tree is a word. -/
lemma Vec.Formed.storable {h : Nat} {v : Vec α} (hs : s.Valid) (hv : v.Formed s h)
    (hlevel : s.level h < Word.width) (hcount : v.root.node.count < Word.count) {n : Node α}
    (hn : n ∈ v.nodes) : n.Storable s := by
  rw [Vec.nodes, List.mem_append, List.mem_singleton] at hn
  rcases hn with hn | rfl
  · obtain ⟨h', hle, hsound, hle'⟩ := hv.root.of_mem_nodes hn
    obtain rfl := hsound.height_eq
    exact ⟨hsound, (Shape.level_mono (Nat.sub_le_of_le_add hle)).trans_lt hlevel,
      hle'.trans_lt hcount⟩
  · have hlt : 2 ^ s.leafBits < 2 ^ Word.width := Nat.pow_lt_pow_right one_lt_two hs.leafBits_lt
    refine ⟨?_, ?_, ?_⟩
    · rw [Node.height]
      exact .leaf hv.tail
    · rw [Node.height, Nat.zero_sub, Shape.level_zero]
      exact hs.leafBits_lt
    · rw [Node.count_leaf]
      exact hv.tail.trans_lt hlt

/-- The nodes of a sound vector whose root addresses elements may stand in a pool. -/
lemma Vec.Sound.storable {h : Nat} {v : Vec α} (hs : s.Valid) (hv : v.Sound s h)
    (hshift : v.shift < Word.width) {n : Node α} (hn : n ∈ v.nodes) : n.Storable s := by
  have hlen := Vec.length_toList v
  have hlt := hv.lt_count
  exact hv.formed.storable hs (hv.shift ▸ hshift) (by omega) hn

namespace Builder

variable {b : Builder α} {H : Heap α} {k : Key}

/-! ### The nodes of the keys -/

/-- The node that a key was given to. -/
def node? (H : Heap α) (b : Builder α) (k : Key) : Option (Node α) :=
  (b.keys.entries.find? fun e => e.2 = k).bind fun e => H e.1

/-- Height and count of the node of each key. -/
def rating (H : Heap α) (b : Builder α) : Rating := fun k =>
  (b.node? H k).map fun n => ⟨n.height, n.count⟩

namespace Sound

lemma node?_eq_some_iff (hb : b.Sound H ∅) {n : Node α} :
    b.node? H k = some n ↔ n.Known H ∧ b.key? n.id = some k := by
  constructor
  · intro hn
    obtain ⟨⟨i, k'⟩, hfind, hi⟩ := Option.bind_eq_some_iff.mp hn
    obtain rfl : k' = k := by simpa using List.find?_some hfind
    have hk : b.key? i = some k' := KeyMap.mem_entries_iff.mp (List.mem_of_find?_eq_some hfind)
    obtain ⟨m, rfl, hm⟩ := hb.known hk
    obtain rfl := Option.some.inj ((hm m (Node.mem_nodes_self m)).symm.trans hi)
    exact ⟨hm, hk⟩
  · rintro ⟨hn, hk⟩
    have hmem : (n.id, k) ∈ b.keys.entries := KeyMap.mem_entries_iff.mpr hk
    cases hfind : b.keys.entries.find? fun e => e.2 = k with
    | none =>
        have hne := List.find?_eq_none.mp hfind _ hmem
        simp at hne
    | some e =>
        obtain ⟨i, k'⟩ := e
        obtain rfl : k' = k := by simpa using List.find?_some hfind
        have hi : b.key? i = some k' := KeyMap.mem_entries_iff.mp (List.mem_of_find?_eq_some hfind)
        rw [node?, hfind, Option.bind_some, hb.inj hi hk]
        exact hn n (Node.mem_nodes_self n)

lemma rating_eq (hb : b.Sound H ∅) {n : Node α} (hn : n.Known H) (hk : b.key? n.id = some k) :
    b.rating H k = some ⟨n.height, n.count⟩ := by
  rw [rating, hb.node?_eq_some_iff.mpr ⟨hn, hk⟩, Option.map_some]

/-- A node that was met has its entry. -/
lemma entry (hb : b.Sound H ∅) {n : Node α} (hn : n.Known H) (hk : b.key? n.id = some k) :
    b.Entered k n :=
  hb.entered hn hk (Set.notMem_empty _)

/-- The key of a node that was met is in use. -/
lemma contains (hb : b.Sound H ∅) {n : Node α} (hn : n.Known H) (hk : b.key? n.id = some k) :
    b.pool.contains k = true := by
  rw [Pool.contains_iff]
  cases n with
  | leaf l => exact .inr ⟨_, hb.entry hn hk⟩
  | inner id cs sizes =>
      obtain ⟨ks, he, -⟩ := hb.entry hn hk
      exact .inl ⟨_, he⟩

/-- A key in use was given to a node. -/
lemma exists_key (hb : b.Sound H ∅) (hk : b.pool.contains k = true) :
    ∃ n : Node α, n.Known H ∧ b.key? n.id = some k := by
  rcases Pool.contains_iff.mp hk with ⟨e, he⟩ | ⟨items, hitems⟩
  · obtain ⟨n, hn, hkn, -⟩ := hb.inner he
    exact ⟨n.node, hn, hkn⟩
  · obtain ⟨l, hl, hkl, -⟩ := hb.leaf hitems
    exact ⟨.leaf l, hl, hkl⟩

/-- Children that were met have their keys. -/
lemma exists_child {cs : List (Node α)} {ks : List Key}
    (hks : (cs.map Node.id).map b.key? = ks.map some) {c : Key} (hc : c ∈ ks) :
    ∃ n ∈ cs, b.key? n.id = some c := by
  have hmem : some c ∈ (cs.map Node.id).map b.key? := hks ▸ List.mem_map_of_mem hc
  obtain ⟨i, hi, hkey⟩ := List.mem_map.mp hmem
  obtain ⟨n, hn, rfl⟩ := List.mem_map.mp hi
  exact ⟨n, hn, hkey⟩

/-- The keys in use are those given to nodes. -/
lemma contains_iff (hb : b.Sound H ∅) : b.pool.contains k = true ↔ ∃ i, b.key? i = some k := by
  constructor
  · intro hk
    obtain ⟨n, -, hkn⟩ := hb.exists_key hk
    exact ⟨n.id, hkn⟩
  · rintro ⟨i, hi⟩
    obtain ⟨n, rfl, hn⟩ := hb.known hi
    exact hb.contains hn hi

/-- The keys of children are in use. -/
lemma contains_child (hb : b.Sound H ∅) {e : PooledBranch} (he : b.pool.inners.get? k = some e)
    {c : Key} (hc : c ∈ e.children) : b.pool.contains c = true := by
  obtain ⟨n, hn, -, ks, hks, hmap⟩ := hb.inner he
  obtain rfl := Option.some.inj (he.symm.trans hks)
  obtain ⟨m, hm, hkm⟩ := exists_child hmap hc
  exact hb.contains ((Node.known_inner_iff.mp hn).2 m hm) hkm

/-- Roots are inner nodes, and tails are leaves. -/
lemma kinds (hb : b.Sound H ∅) {e : PooledVec} (he : e ∈ b.pool.vectors) :
    (∃ branch, b.pool.inners.get? e.root = some branch) ∧
      ∃ items, b.pool.leaves.get? e.tail = some items := by
  obtain ⟨v, hv, hroot, htail⟩ := hb.vector he
  obtain ⟨hkroot, hktail⟩ := Vec.known_iff.mp hv
  obtain ⟨ks, hentry, -⟩ := hb.entry hkroot hroot
  exact ⟨⟨_, hentry⟩, _, hb.entry hktail htail⟩

/-- No key names two nodes. -/
theorem disjoint (hb : b.Sound H ∅) : b.pool.Disjoint := by
  intro k items hitems
  by_contra hne
  obtain ⟨e, he⟩ := Option.ne_none_iff_exists'.mp hne
  obtain ⟨l, hl, hkl, -⟩ := hb.leaf hitems
  obtain ⟨n, hn, hkn, -⟩ := hb.inner he
  have heq : Node.leaf l = n.node := hb.eq_of_key hl hn hkl hkn
  cases heq

/-! ### Acceptance -/

/-- A pool made of nodes that may stand in it passes the check. -/
theorem checked (hs : s.Valid) (hb : b.Sound H ∅) (hshape : b.pool.shape = s)
    (hst : ∀ {n : Node α} {k}, n.Known H → b.key? n.id = some k → n.Storable s) :
    b.pool.Checked := by
  refine ⟨fun hitems => ?_, fun he => ?_, fun he hc => hb.contains_child he hc, fun he => ?_,
    fun he => ?_⟩
  · obtain ⟨l, hl, hkl, rfl⟩ := hb.leaf hitems
    have hsound := (hst hl hkl).sound
    rw [hshape, Shape.leafCapacity_eq hs]
    exact (Node.sound_leaf_iff.mp hsound).2
  · obtain ⟨n, hn, hkn, ks, hks, hmap⟩ := hb.inner he
    obtain rfl := Option.some.inj (he.symm.trans hks)
    have hlength : ks.length = n.children.length := by
      simpa using (congrArg List.length hmap).symm
    have hsound : (Node.inner n.id n.children n.sizes).Sound s n.node.height := (hst hn hkn).sound
    obtain ⟨h, hh⟩ := hsound.exists_succ
    rw [hshape, Shape.fanout_eq hs, hlength]
    exact (Node.sound_inner_iff.mp (hh ▸ hsound)).1
  · exact Pool.contains_iff.mpr (.inl (hb.kinds he).1)
  · exact Pool.contains_iff.mpr (.inr (hb.kinds he).2)

/-- The rating of an inner node that may stand in a pool is what its children make of it. -/
lemma measured (hb : b.Sound H ∅) {id : NodeId} {cs : List (Node α)} {sizes : Option (List Nat)}
    (hn : (Node.inner id cs sizes).Known H) (hst : (Node.inner id cs sizes).Storable s)
    {ks : List Key} (hks : (cs.map Node.id).map b.key? = ks.map some) :
    Measured s (b.rating H) ⟨ks, sizes.isSome⟩ ((Node.inner id cs sizes).height - 1)
      (cs.map Node.count) := by
  obtain ⟨hsound, hlevel, hcount⟩ := hst
  obtain ⟨h, hh⟩ := hsound.exists_succ
  rw [hh] at hsound hlevel ⊢
  rw [Nat.add_sub_cancel] at hlevel ⊢
  obtain ⟨-, hflat, hbelow, htabled⟩ := Node.sound_inner_iff.mp hsound
  rw [Node.count_inner] at hcount
  refine ⟨?_, fun hnil => hflat ?_, fun hrel => ?_, hcount, hlevel⟩
  · have hcs := (Node.known_inner_iff.mp hn).2
    clear hsound hh htabled hflat hcount hn
    induction cs generalizing ks with
    | nil =>
        obtain rfl : ks = [] := by simpa using hks.symm
        rfl
    | cons c cs ih =>
        cases ks with
        | nil => cases hks
        | cons k ks =>
            rw [List.map_cons, List.map_cons, List.map_cons, List.cons.injEq] at hks
            obtain ⟨hc, hcs⟩ := List.forall_mem_cons.mp hcs
            obtain ⟨hsound, hbelow⟩ := List.forall_mem_cons.mp hbelow
            have hrest := ih hks.2 hbelow hcs
            dsimp only at hrest ⊢
            rw [List.map_cons, List.map_cons, List.map_cons, hrest, hb.rating_eq hc hks.1,
              hsound.height_eq]
  · dsimp only at hnil
    simpa [hnil] using hks
  · cases sizes with
    | none => exact htabled.2
    | some table => cases hrel

/-- Heights and counts of the nodes fit the pool. -/
theorem fits (hb : b.Sound H ∅) (hshape : b.pool.shape = s)
    (hst : ∀ {n : Node α} {k}, n.Known H → b.key? n.id = some k → n.Storable s) :
    b.pool.Fits (b.rating H) := by
  refine ⟨fun {k items} hitems => ?_, fun {k info} hinfo hleaf => ?_⟩
  · obtain ⟨l, hl, hkl, rfl⟩ := hb.leaf hitems
    rw [hb.rating_eq hl hkl, Node.height, Node.count_leaf]
  · obtain ⟨n, hnode, rfl⟩ := Option.map_eq_some_iff.mp hinfo
    obtain ⟨hn, hk⟩ := hb.node?_eq_some_iff.mp hnode
    cases n with
    | leaf l =>
        have hentry : b.pool.leaves.get? k = some l.items := hb.entry hn hk
        rw [hleaf] at hentry
        cases hentry
    | inner id cs sizes =>
        obtain ⟨ks, he, hks⟩ := hb.entry hn hk
        refine ⟨_, _, _, he, hshape ▸ hb.measured hn (hst hn hk) hks, ?_⟩
        rw [Node.count_inner, Node.height, Nat.add_sub_cancel]

/-- A pool made of nodes that may stand in it is accepted. -/
theorem ofPool_eq_ok (hs : s.Valid) (hb : b.Sound H ∅) (hshape : b.pool.shape = s)
    (hst : ∀ {n : Node α} {k}, n.Known H → b.key? n.id = some k → n.Storable s) (name : String) :
    ∃ plan, Loader.ofPool s name b.pool = .ok ⟨name, b.pool, plan, ∅⟩ := by
  refine Loader.ofPool_of_fits hshape (hb.checked hs hshape hst) (fun hv => (hb.kinds hv).1)
    (fun hv => (hb.kinds hv).2) (hb.fits hshape hst) (fun he => ?_) name
  obtain ⟨n, hn, hkn, -⟩ := hb.inner he
  exact ⟨_, hb.rating_eq hn hkn⟩

/-- It is read back from its document if there are no more nodes than words and its elements are
read back. -/
theorem ofJson_toJson (hs : s.Valid) (hb : b.Sound H ∅) (hshape : b.pool.shape = s)
    (hst : ∀ {n : Node α} {k}, n.Known H → b.key? n.id = some k → n.Storable s)
    (hsize : b.keys.size ≤ Word.count) {write : α → Json} {read? : Json → Option α}
    (hrw : ∀ {l : Leaf α}, (Node.leaf l).Known H → ∀ x ∈ l.items, read? (write x) = some x)
    (name : String) : Pool.ofJson read? name s (b.pool.toJson write) = .ok b.pool := by
  rw [← hshape]
  refine Pool.ofJson_toJson (hshape ▸ hs) (hb.checked hs hshape hst) hb.disjoint (fun k hk => ?_) ?_
  · obtain ⟨n, -, hkn⟩ := hb.exists_key hk
    exact (hb.lt_size hkn).trans_le hsize
  · intro k items hitems
    obtain ⟨l, hl, -, rfl⟩ := hb.leaf hitems
    exact hrw hl

end Sound

end Builder

/-! ### The nodes of a family -/

namespace Heap

variable {H : Heap α} {vs : List (Vec α)}

/-- The heap of the nodes with identities in a set. -/
def only (H : Heap α) (S : Finset NodeId) : Heap α := fun i => if i ∈ S then H i else none

lemma known_only {v : Vec α} (hv : v ∈ vs) (hk : v.Known H) : v.Known (H.only (Vec.ids vs)) := by
  intro m hm
  rw [only, if_pos (Vec.mem_ids.mpr ⟨v, hv, m, hm, rfl⟩)]
  exact hk m hm

/-- What the heap of a family knows is a node of one of its vectors. -/
lemma exists_mem_of_known_only (hvs : ∀ v ∈ vs, v.Known H) {n : Node α}
    (hn : n.Known (H.only (Vec.ids vs))) : n.id ∈ Vec.ids vs ∧ ∃ v ∈ vs, n ∈ v.nodes := by
  have hself := hn n (Node.mem_nodes_self n)
  rw [only] at hself
  split at hself
  · next hmem =>
    obtain ⟨v, hv, m, hm, hid⟩ := Vec.mem_ids.mp hmem
    rw [← hid, hvs v hv m hm] at hself
    exact ⟨hmem, v, hv, Option.some.inj hself ▸ hm⟩
  · cases hself

end Heap

/-- A builder that has met only nodes of a family has no more keys than the family has nodes. -/
lemma Builder.Sound.size_le {b : Builder α} {H : Heap α} {vs : List (Vec α)}
    (hvs : ∀ v ∈ vs, v.Known H) (hb : b.Sound (H.only (Vec.ids vs)) ∅) :
    b.keys.size ≤ (Vec.ids vs).card := by
  refine KeyMap.size_le_card fun i k hk => ?_
  obtain ⟨n, rfl, hn⟩ := hb.known hk
  exact (Heap.exists_mem_of_known_only hvs hn).1

end RadixPool
