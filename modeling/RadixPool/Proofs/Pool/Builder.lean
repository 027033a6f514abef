import Mathlib
import RadixPool.Pool.Builder
import RadixPool.Proofs.KeyMap
import RadixPool.Proofs.Vec.Sound

/-!
What a builder enters into its pool.

A builder gives different keys to different nodes, and enters every node with the keys of its
children. While it is at work some nodes have their keys but not yet their entries; the invariant
`Builder.Sound` names them. Entering a node takes it from these: its children join them for a while,
and each of them is entered in turn.

* `Builder.Entered`: a node has its entry.
* `Builder.Grows`: a builder that has met more; keys, entries and positions stay.
* `Builder.Sound`: what holds of a builder some of whose nodes are not yet entered.
* `Builder.Sound.enter`, `Builder.Sound.add`, `Builder.Sound.addAll`: nodes and vectors are entered.
* `Builder.ends?_eq_some_iff`, `Builder.exists_ends?_iff`: when the keys of a root and a tail are
  known.
-/

namespace RadixPool

variable {α : Type} {s : Shape}

namespace Builder

/-- A node has its entry under a key: a leaf its elements, an inner node the keys of its children
and whether it is relaxed. -/
def Entered (b : Builder α) (k : Key) : Node α → Prop
  | .leaf l => b.pool.leaves.get? k = some l.items
  | .inner _ cs sizes => ∃ ks, b.pool.inners.get? k = some ⟨ks, sizes.isSome⟩ ∧
      (cs.map Node.id).map b.key? = ks.map some

/-- A builder that has met more: what was there stays. -/
structure Grows (b b' : Builder α) : Prop where
  keys : b.keys.Sub b'.keys
  inners : b.pool.inners.Sub b'.pool.inners
  leaves : b.pool.leaves.Sub b'.pool.leaves
  vectors : b.pool.vectors <+: b'.pool.vectors
  shape : b'.pool.shape = b.pool.shape

/-- The state of a builder that has met nodes of the heap. Different nodes have different keys;
the nodes in `todo` need not be entered yet, all others are; and whatever the pool holds comes
from nodes that were met. -/
structure Sound (H : Heap α) (todo : Set NodeId) (b : Builder α) : Prop where
  lt_size : ∀ {i k}, b.key? i = some k → k < b.keys.size
  inj : ∀ {i j k}, b.key? i = some k → b.key? j = some k → i = j
  known : ∀ {i k}, b.key? i = some k → ∃ n : Node α, n.id = i ∧ n.Known H
  entered : ∀ {n : Node α} {k}, n.Known H → b.key? n.id = some k → n.id ∉ todo → b.Entered k n
  leaf : ∀ {k items}, b.pool.leaves.get? k = some items →
    ∃ l : Leaf α, (Node.leaf l).Known H ∧ b.key? l.id = some k ∧ l.items = items
  inner : ∀ {k e}, b.pool.inners.get? k = some e →
    ∃ n : Branch α, n.node.Known H ∧ b.key? n.id = some k ∧ b.Entered k n.node
  vector : ∀ {e}, e ∈ b.pool.vectors →
    ∃ v : Vec α, v.Known H ∧ b.key? v.root.id = some e.root ∧ b.key? v.tail.id = some e.tail

variable {b b' b'' : Builder α} {H : Heap α} {todo todo' : Set NodeId} {k : Key}

namespace Grows

lemma refl (b : Builder α) : b.Grows b := ⟨.refl _, .refl _, .refl _, List.prefix_rfl, rfl⟩

lemma trans (h : b.Grows b') (h' : b'.Grows b'') : b.Grows b'' :=
  ⟨h.keys.trans h'.keys, h.inners.trans h'.inners, h.leaves.trans h'.leaves,
    h.vectors.trans h'.vectors, h'.shape.trans h.shape⟩

lemma key? (h : b.Grows b') {i : NodeId} (hi : b.key? i = some k) : b'.key? i = some k :=
  h.keys i k hi

/-- Entries stay. -/
lemma entered (h : b.Grows b') {n : Node α} (hn : b.Entered k n) : b'.Entered k n := by
  cases n with
  | leaf l => exact h.leaves k _ hn
  | inner id cs sizes =>
      obtain ⟨ks, he, hks⟩ := hn
      exact ⟨ks, h.inners k _ he, h.keys.map_get? hks⟩

/-- Positions of vectors stay. -/
lemma getElem? (h : b.Grows b') {i : Nat} {e : PooledVec} (hi : b.pool.vectors[i]? = some e) :
    b'.pool.vectors[i]? = some e := by
  obtain ⟨more, hmore⟩ := h.vectors
  obtain ⟨hlt, -⟩ := List.getElem?_eq_some_iff.mp hi
  rw [← hmore, List.getElem?_append_left hlt, hi]

end Grows

namespace Sound

/-- In the beginning nothing is met. -/
lemma empty : (Builder.empty s : Builder α).Sound H ∅ := by
  refine ⟨fun h => ?_, fun h => ?_, fun h => ?_, fun _ h => ?_, fun h => ?_, fun h => ?_,
    fun h => ?_⟩
  all_goals simp [Builder.empty, Pool.empty, key?] at h

/-- More nodes may be waiting. -/
lemma mono (hb : b.Sound H todo) (hle : todo ⊆ todo') : b.Sound H todo' :=
  ⟨hb.lt_size, hb.inj, hb.known, fun hn hk hnot => hb.entered hn hk fun hmem => hnot (hle hmem),
    hb.leaf, hb.inner, hb.vector⟩

/-- A node that has its entry is not waiting. -/
lemma remove (hb : b.Sound H todo) {n : Node α} (hn : n.Known H) (hk : b.key? n.id = some k)
    (he : b.Entered k n) : b.Sound H (todo \ {n.id}) := by
  refine ⟨hb.lt_size, hb.inj, hb.known, fun {m k'} hm hk' hnot => ?_, hb.leaf, hb.inner, hb.vector⟩
  by_cases hid : m.id = n.id
  · obtain rfl := hm.eq_of_id hn hid
    obtain rfl := Option.some.inj (hk.symm.trans hk')
    exact he
  · exact hb.entered hm hk' fun hmem => hnot ⟨hmem, hid⟩

/-- Two known nodes with one key are one node. -/
lemma eq_of_key (hb : b.Sound H todo) {m n : Node α} (hm : m.Known H) (hn : n.Known H)
    (hkm : b.key? m.id = some k) (hkn : b.key? n.id = some k) : m = n :=
  hm.eq_of_id hn (hb.inj hkm hkn)

end Sound

/-! ### Giving keys -/

lemma assign_of_some {i : NodeId} (hi : b.key? i = some k) : b.assign i = (k, b) := by
  rw [assign, hi]

lemma assign_of_none {i : NodeId} (hi : b.key? i = none) :
    b.assign i = (b.keys.size, { b with keys := b.keys.insert i b.keys.size }) := by
  rw [assign, hi]

lemma pool_assign (b : Builder α) (i : NodeId) : (b.assign i).2.pool = b.pool := by
  rw [assign]
  split <;> rfl

/-- Keys are only added. -/
lemma grows_assign (b : Builder α) (i : NodeId) : b.Grows (b.assign i).2 := by
  have hpool := pool_assign b i
  refine ⟨?_, by rw [hpool]; exact .refl _, by rw [hpool]; exact .refl _, by rw [hpool],
    by rw [hpool]⟩
  cases hi : b.key? i with
  | some k => rw [assign_of_some hi]; exact .refl _
  | none => rw [assign_of_none hi]; exact .insert _ hi

lemma key?_assign (b : Builder α) (i : NodeId) : (b.assign i).2.key? i = some (b.assign i).1 := by
  cases hi : b.key? i with
  | some k => rw [assign_of_some hi]; exact hi
  | none => rw [assign_of_none hi]; exact KeyMap.get?_insert_self _ _ _

/-- A node that gets its key waits for its entry, unless it was met before. -/
theorem Sound.assign (hb : b.Sound H todo) {n : Node α} (hn : n.Known H) :
    (b.assign n.id).2.Sound H (insert n.id todo) := by
  have hgrows := grows_assign b n.id
  cases hi : b.key? n.id with
  | some k =>
      rw [assign_of_some hi]
      exact hb.mono (Set.subset_insert _ _)
  | none =>
      rw [assign_of_none hi] at hgrows ⊢
      -- a key is the new one or an old one
      have hcases : ∀ {i k}, (b.keys.insert n.id b.keys.size).get? i = some k →
          i = n.id ∧ k = b.keys.size ∨ b.key? i = some k ∧ k < b.keys.size := by
        intro i k hk
        rw [KeyMap.get?_insert] at hk
        split at hk
        · next heq => exact .inl ⟨heq, (Option.some.inj hk).symm⟩
        · exact .inr ⟨hk, hb.lt_size hk⟩
      refine ⟨fun hk => ?_, fun hi hj => ?_, fun hk => ?_, fun {m k} hm hk hnot => ?_,
        fun hk => ?_, fun hk => ?_, fun he => ?_⟩
      · have hsize : (b.keys.insert n.id b.keys.size).size = b.keys.size + 1 :=
          KeyMap.size_insert _ hi
        rw [hsize]
        rcases hcases hk with ⟨-, rfl⟩ | ⟨-, hlt⟩
        · exact Nat.lt_succ_self _
        · exact Nat.lt_succ_of_lt hlt
      · rcases hcases hi with ⟨rfl, rfl⟩ | ⟨hi, hlt⟩ <;>
          rcases hcases hj with ⟨rfl, heq⟩ | ⟨hj, hlt'⟩
        · rfl
        · exact absurd hlt' (Nat.lt_irrefl _)
        · exact absurd (heq ▸ hlt) (Nat.lt_irrefl _)
        · exact hb.inj hi hj
      · rcases hcases hk with ⟨rfl, -⟩ | ⟨hk, -⟩
        · exact ⟨n, rfl, hn⟩
        · exact hb.known hk
      · rcases hcases hk with ⟨heq, -⟩ | ⟨hk, -⟩
        · exact absurd (Set.mem_insert_iff.mpr (.inl heq)) hnot
        · exact hgrows.entered (hb.entered hm hk fun hmem => hnot (Set.mem_insert_of_mem _ hmem))
      · obtain ⟨l, hl, hkl, hitems⟩ := hb.leaf hk
        exact ⟨l, hl, hgrows.key? hkl, hitems⟩
      · obtain ⟨m, hm, hkm, he⟩ := hb.inner hk
        exact ⟨m, hm, hgrows.key? hkm, hgrows.entered he⟩
      · obtain ⟨v, hv, hroot, htail⟩ := hb.vector he
        exact ⟨v, hv, hgrows.key? hroot, hgrows.key? htail⟩

lemma assignAll_cons (b : Builder α) (c : Node α) (cs : List (Node α)) :
    b.assignAll (c :: cs) = ((b.assign c.id).1 :: ((b.assign c.id).2.assignAll cs).1,
      ((b.assign c.id).2.assignAll cs).2) := rfl

lemma pool_assignAll (b : Builder α) (cs : List (Node α)) : (b.assignAll cs).2.pool = b.pool := by
  induction cs generalizing b with
  | nil => rfl
  | cons c cs ih => rw [assignAll_cons, ih, pool_assign]

/-- The identities of some nodes. -/
def ids (cs : List (Node α)) : Set NodeId := {i | i ∈ cs.map Node.id}

/-- Nodes that get their keys wait for their entries. -/
theorem Sound.assignAll (hb : b.Sound H todo) {cs : List (Node α)} (hcs : ∀ c ∈ cs, c.Known H) :
    (b.assignAll cs).2.Sound H (todo ∪ ids cs) ∧ b.Grows (b.assignAll cs).2 ∧
      (cs.map Node.id).map (b.assignAll cs).2.key? = (b.assignAll cs).1.map some := by
  induction cs generalizing b todo with
  | nil => exact ⟨hb.mono Set.subset_union_left, .refl b, rfl⟩
  | cons c cs ih =>
      obtain ⟨hc, hcs⟩ := List.forall_mem_cons.mp hcs
      obtain ⟨hsound, hgrows, hkeys⟩ := ih (hb.assign hc) hcs
      rw [assignAll_cons]
      refine ⟨hsound.mono ?_, (grows_assign b c.id).trans hgrows, ?_⟩
      · rintro i ((rfl | hi) | hi)
        · exact .inr List.mem_cons_self
        · exact .inl hi
        · exact .inr (List.mem_cons_of_mem _ hi)
      · rw [List.map_cons, List.map_cons, List.map_cons, hkeys, hgrows.key? (key?_assign b c.id)]

/-! ### Making entries -/

/-- A leaf is entered under its key, or was before. -/
theorem Sound.enterLeaf (hb : b.Sound H todo) {l : Leaf α} (hl : (Node.leaf l).Known H)
    (hk : b.key? l.id = some k) :
    (b.enterLeaf k l.items).Sound H (todo \ {l.id}) ∧ b.Grows (b.enterLeaf k l.items) := by
  rw [Builder.enterLeaf]
  split
  · next hin =>
    obtain ⟨items, hitems⟩ := KeyMap.contains_iff.mp hin
    obtain ⟨l', hl', hk', rfl⟩ := hb.leaf hitems
    have heq : Node.leaf l' = .leaf l := hb.eq_of_key hl' hl hk' hk
    exact ⟨hb.remove hl hk (Node.leaf.inj heq ▸ hitems), .refl b⟩
  · next hin =>
    have hnone : b.pool.leaves.get? k = none :=
      KeyMap.contains_eq_false_iff.mp (Bool.not_eq_true _ ▸ hin)
    set b' : Builder α :=
      { b with pool := { b.pool with leaves := b.pool.leaves.insert k l.items } } with hb'
    have hgrows : b.Grows b' := ⟨.refl _, .refl _, .insert _ hnone, List.prefix_rfl, rfl⟩
    have hsound : b'.Sound H todo := by
      refine ⟨hb.lt_size, hb.inj, hb.known,
        fun hm hkm hnot => hgrows.entered (hb.entered hm hkm hnot),
        fun {k' items} hk' => ?_, fun he => ?_, hb.vector⟩
      · have hcases : (b.pool.leaves.insert k l.items).get? k' = some items := hk'
        rw [KeyMap.get?_insert] at hcases
        split at hcases
        · next heq => exact ⟨l, hl, heq ▸ hk, Option.some.inj hcases⟩
        · exact hb.leaf hcases
      · obtain ⟨m, hm, hkm, hem⟩ := hb.inner he
        exact ⟨m, hm, hkm, hgrows.entered hem⟩
    exact ⟨hsound.remove hl hk (KeyMap.get?_insert_self _ _ _), hgrows⟩

/-- An inner node whose children have their keys is entered under its own. -/
theorem Sound.enterInner (hb : b.Sound H todo) {n : Branch α} (hn : n.node.Known H)
    (hk : b.key? n.id = some k) (hnone : b.pool.inners.get? k = none) {ks : List Key}
    (hks : (n.children.map Node.id).map b.key? = ks.map some) :
    (b.enterInner k ⟨ks, n.sizes.isSome⟩).Sound H (todo \ {n.id}) ∧
      b.Grows (b.enterInner k ⟨ks, n.sizes.isSome⟩) := by
  have hgrows : b.Grows (b.enterInner k ⟨ks, n.sizes.isSome⟩) :=
    ⟨.refl _, .insert _ hnone, .refl _, List.prefix_rfl, rfl⟩
  have hentered : (b.enterInner k ⟨ks, n.sizes.isSome⟩).Entered k n.node :=
    ⟨ks, KeyMap.get?_insert_self _ _ _, hks⟩
  have hsound : (b.enterInner k ⟨ks, n.sizes.isSome⟩).Sound H todo := by
    refine ⟨hb.lt_size, hb.inj, hb.known,
      fun hm hkm hnot => hgrows.entered (hb.entered hm hkm hnot),
      hb.leaf, fun {k' e} he => ?_, hb.vector⟩
    have hcases : (b.pool.inners.insert k ⟨ks, n.sizes.isSome⟩).get? k' = some e := he
    rw [KeyMap.get?_insert] at hcases
    split at hcases
    · next heq => exact ⟨n, hn, heq ▸ hk, heq ▸ hentered⟩
    · obtain ⟨m, hm, hkm, hem⟩ := hb.inner hcases
      exact ⟨m, hm, hkm, hgrows.entered hem⟩
  exact ⟨hsound.remove hn hk hentered, hgrows⟩

lemma enter_inner (b : Builder α) (k : Key) (id : NodeId) (cs : List (Node α))
    (sizes : Option (List Nat)) :
    b.enter k (.inner id cs sizes) = if b.pool.inners.contains k then b
      else ((b.assignAll cs).2.enterInner k ⟨(b.assignAll cs).1, sizes.isSome⟩).enterAll
        (b.assignAll cs).1 cs := by
  rw [enter]

/-- Nodes are entered one after the other. -/
lemma Sound.enterAll {cs : List (Node α)}
    (henter : ∀ c ∈ cs, ∀ {b : Builder α} {todo k}, c.Known H → b.Sound H todo →
      b.key? c.id = some k → (b.enter k c).Sound H (todo \ {c.id}) ∧ b.Grows (b.enter k c))
    (hcs : ∀ c ∈ cs, c.Known H) (hb : b.Sound H todo) {ks : List Key}
    (hks : (cs.map Node.id).map b.key? = ks.map some) :
    (b.enterAll ks cs).Sound H (todo \ ids cs) ∧ b.Grows (b.enterAll ks cs) := by
  induction cs generalizing b todo ks with
  | nil =>
      obtain rfl : ks = [] := by simpa using hks.symm
      exact ⟨hb.mono fun i hi => ⟨hi, fun hmem => nomatch hmem⟩, .refl b⟩
  | cons c cs ih =>
      cases ks with
      | nil => cases hks
      | cons k ks =>
          rw [List.map_cons, List.map_cons, List.map_cons, List.cons.injEq] at hks
          obtain ⟨hc, hcs⟩ := List.forall_mem_cons.mp hcs
          obtain ⟨hsound₁, hgrows₁⟩ := henter c List.mem_cons_self hc hb hks.1
          obtain ⟨hsound₂, hgrows₂⟩ := ih (fun d hd => henter d (List.mem_cons_of_mem c hd)) hcs
            hsound₁ (hgrows₁.keys.map_get? hks.2)
          rw [Builder.enterAll]
          refine ⟨hsound₂.mono ?_, hgrows₁.trans hgrows₂⟩
          rintro i ⟨⟨hi, hne⟩, hnot⟩
          refine ⟨hi, fun hmem => ?_⟩
          rcases List.mem_cons.mp hmem with heq | hmem
          · exact hne heq
          · exact hnot hmem

/-- A node is entered with all below it, unless it has its entry. -/
theorem Sound.enter {n : Node α} (hn : n.Known H) (hb : b.Sound H todo)
    (hk : b.key? n.id = some k) :
    (b.enter k n).Sound H (todo \ {n.id}) ∧ b.Grows (b.enter k n) := by
  induction n using Node.induct generalizing b todo k with
  | leaf l =>
      rw [Builder.enter]
      exact hb.enterLeaf hn hk
  | inner id cs sizes ih =>
      have hcs := (Node.known_inner_iff.mp hn).2
      rw [enter_inner]
      split
      · next hin =>
        obtain ⟨e, he⟩ := KeyMap.contains_iff.mp hin
        obtain ⟨m, hm, hkm, hem⟩ := hb.inner he
        have heq : m.node = .inner id cs sizes := hb.eq_of_key hm hn hkm hk
        exact ⟨hb.remove hn hk (heq ▸ hem), .refl b⟩
      · next hin =>
        obtain ⟨hsound₁, hgrows₁, hkeys⟩ := hb.assignAll hcs
        have hnone : (b.assignAll cs).2.pool.inners.get? k = none := by
          rw [pool_assignAll]
          exact KeyMap.contains_eq_false_iff.mp (Bool.not_eq_true _ ▸ hin)
        obtain ⟨hsound₂, hgrows₂⟩ := hsound₁.enterInner (n := ⟨id, cs, sizes⟩) hn
          (hgrows₁.key? hk) hnone hkeys
        obtain ⟨hsound₃, hgrows₃⟩ := hsound₂.enterAll (fun c hc _ _ _ => ih c hc) hcs
          (hgrows₂.keys.map_get? hkeys)
        refine ⟨hsound₃.mono ?_, hgrows₁.trans (hgrows₂.trans hgrows₃)⟩
        rintro i ⟨⟨hi | hi, hne⟩, hnot⟩
        · exact ⟨hi, hne⟩
        · exact absurd hi hnot

/-! ### Adding vectors -/

/-- A vector stands at a position of the pool, by the keys of its root and its tail. -/
def Holds (b : Builder α) (i : Nat) (v : Vec α) : Prop :=
  ∃ e, b.pool.vectors[i]? = some e ∧ b.key? v.root.id = some e.root ∧
    b.key? v.tail.id = some e.tail

lemma Holds.mono {i : Nat} {v : Vec α} (hv : b.Holds i v) (h : b.Grows b') : b'.Holds i v := by
  obtain ⟨e, he, hroot, htail⟩ := hv
  exact ⟨e, h.getElem? he, h.key? hroot, h.key? htail⟩

/-- The keys of a vector at the next position. -/
def addEntry (b : Builder α) (e : PooledVec) : Builder α :=
  { b with pool := { b.pool with vectors := b.pool.vectors ++ [e] } }

/-- A vector whose nodes have their keys takes the next position. -/
lemma Sound.addEntry (hb : b.Sound H todo) {v : Vec α} (hv : v.Known H) {e : PooledVec}
    (hroot : b.key? v.root.id = some e.root) (htail : b.key? v.tail.id = some e.tail) :
    (b.addEntry e).Sound H todo ∧ b.Grows (b.addEntry e) ∧
      (b.addEntry e).Holds b.pool.vectors.length v := by
  have hgrows : b.Grows (b.addEntry e) :=
    ⟨.refl _, .refl _, .refl _, List.prefix_append _ _, rfl⟩
  have hentry : (b.addEntry e).pool.vectors[b.pool.vectors.length]? = some e := by
    simp [Builder.addEntry]
  refine ⟨⟨hb.lt_size, hb.inj, hb.known, fun hm hkm hnot => hgrows.entered (hb.entered hm hkm hnot),
    hb.leaf, fun he => ?_, fun {e'} he => ?_⟩, hgrows, e, hentry, hroot, htail⟩
  · obtain ⟨m, hm, hkm, hem⟩ := hb.inner he
    exact ⟨m, hm, hkm, hgrows.entered hem⟩
  · rcases List.mem_append.mp he with he | he
    · exact hb.vector he
    · rw [List.mem_singleton.mp he]
      exact ⟨v, hv, hroot, htail⟩

/-- A vector with the keys of one that was added before is made of nodes that have their entries. -/
lemma Sound.entered_of_mem {b' : Builder α} (hb : b.Sound H ∅) (hgrows : b.Grows b')
    (hb' : b'.Sound H todo) {v : Vec α} (hv : v.Known H) {e : PooledVec} (he : e ∈ b.pool.vectors)
    (hroot : b'.key? v.root.id = some e.root) (htail : b'.key? v.tail.id = some e.tail) :
    b'.Entered e.root v.root.node ∧ b'.Entered e.tail (.leaf v.tail) := by
  obtain ⟨hkroot, hktail⟩ := Vec.known_iff.mp hv
  obtain ⟨u, hu, huroot, hutail⟩ := hb.vector he
  obtain ⟨hkr, hkt⟩ := Vec.known_iff.mp hu
  have hrootEq : u.root.node = v.root.node :=
    hb'.eq_of_key hkr hkroot (hgrows.key? huroot) hroot
  have htailEq : Node.leaf u.tail = .leaf v.tail :=
    hb'.eq_of_key hkt hktail (hgrows.key? hutail) htail
  constructor
  · exact hgrows.entered (hrootEq ▸ hb.entered hkr huroot (Set.notMem_empty _))
  · exact hgrows.entered (htailEq ▸ hb.entered hkt hutail (Set.notMem_empty _))

/-- A vector is added with all of its nodes, and stands at the position given. -/
theorem Sound.add (hb : b.Sound H ∅) {v : Vec α} (hv : v.Known H) :
    (b.add v).2.Sound H ∅ ∧ b.Grows (b.add v).2 ∧ (b.add v).2.Holds (b.add v).1 v := by
  obtain ⟨hroot, htail⟩ := Vec.known_iff.mp hv
  set b₁ := (b.assign v.root.id).2 with hb₁
  set b₂ := (b₁.assign v.tail.id).2 with hb₂
  set e : PooledVec := ⟨(b.assign v.root.id).1, (b₁.assign v.tail.id).1⟩ with he
  have hsound₂ : b₂.Sound H (insert v.tail.id (insert v.root.id ∅)) :=
    (hb.assign hroot).assign htail
  have hgrows₂ : b.Grows b₂ := (grows_assign b v.root.id).trans (grows_assign b₁ v.tail.id)
  have hkroot : b₂.key? v.root.id = some e.root :=
    (grows_assign b₁ v.tail.id).key? (key?_assign b v.root.id)
  have hktail : b₂.key? v.tail.id = some e.tail := key?_assign b₁ v.tail.id
  -- root and tail are the only nodes that may still be waiting
  have hdone : (insert v.tail.id (insert v.root.id (∅ : Set NodeId)) \ {v.root.id}) \ {v.tail.id}
      ⊆ ∅ := by
    rintro i ⟨⟨rfl | rfl | hi, hne⟩, hne'⟩
    · exact absurd rfl hne'
    · exact absurd rfl hne
    · exact hi
  cases hfind : b₂.find? e with
  | some i =>
      have hadd : b.add v = (i, b₂) := by
        rw [Builder.add]
        dsimp only
        rw [hfind]
      rw [hadd]
      have hi : b₂.pool.vectors[i]? = some e := by
        obtain ⟨hlt, hget, -⟩ := List.idxOf?_eq_some_iff.mp hfind
        rw [List.getElem?_eq_getElem hlt, hget]
      -- the vector found was added before, so its root and its tail had their entries already
      have hmem : e ∈ b.pool.vectors := by
        have hmem := List.mem_of_getElem? hi
        rwa [hb₂, pool_assign, hb₁, pool_assign] at hmem
      obtain ⟨heroot, hetail⟩ := hb.entered_of_mem hgrows₂ hsound₂ hv hmem hkroot hktail
      exact ⟨((hsound₂.remove hroot hkroot heroot).remove htail hktail hetail).mono hdone, hgrows₂,
        e, hi, hkroot, hktail⟩
  | none =>
      have hadd : b.add v =
          (((b₂.enter e.root v.root.node).enterLeaf e.tail v.tail.items).pool.vectors.length,
            ((b₂.enter e.root v.root.node).enterLeaf e.tail v.tail.items).addEntry e) := by
        rw [Builder.add]
        dsimp only
        rw [hfind]
        rfl
      rw [hadd]
      obtain ⟨hsound₃, hgrows₃⟩ := hsound₂.enter hroot hkroot
      obtain ⟨hsound₄, hgrows₄⟩ := hsound₃.enterLeaf htail (hgrows₃.key? hktail)
      have hgrows := hgrows₃.trans hgrows₄
      obtain ⟨hsound₅, hgrows₅, hholds⟩ :=
        hsound₄.addEntry hv (hgrows.key? hkroot) (hgrows.key? hktail)
      exact ⟨hsound₅.mono hdone, hgrows₂.trans (hgrows.trans hgrows₅), hholds⟩

lemma vectors_enterLeaf (b : Builder α) (k : Key) (items : List α) :
    (b.enterLeaf k items).pool.vectors = b.pool.vectors := by
  rw [enterLeaf]
  split <;> rfl

/-- Entering nodes adds no vectors. -/
lemma vectors_enter (b : Builder α) (k : Key) (n : Node α) :
    (b.enter k n).pool.vectors = b.pool.vectors := by
  induction n using Node.induct generalizing b k with
  | leaf l => rw [enter, vectors_enterLeaf]
  | inner id cs sizes ih =>
      have hall : ∀ (b : Builder α) (ks : List Key), (b.enterAll ks cs).pool.vectors =
          b.pool.vectors := by
        intro b ks
        induction cs generalizing b ks with
        | nil => cases ks <;> simp [enterAll]
        | cons c cs ihcs =>
            cases ks with
            | nil => simp [enterAll]
            | cons k ks =>
                rw [enterAll, ihcs fun d hd => ih d (List.mem_cons_of_mem c hd),
                  ih c List.mem_cons_self]
      rw [enter_inner]
      split
      · rfl
      · rw [hall, enterInner, pool_assignAll]

/-- At most one vector is added at a time. -/
lemma length_vectors_add_le (b : Builder α) (v : Vec α) :
    (b.add v).2.pool.vectors.length ≤ b.pool.vectors.length + 1 := by
  rw [add]
  dsimp only
  split
  · rw [pool_assign, pool_assign]
    exact Nat.le_succ _
  · rw [List.length_append, vectors_enterLeaf, vectors_enter, pool_assign, pool_assign]
    exact le_rfl

lemma addAll_cons (b : Builder α) (v : Vec α) (vs : List (Vec α)) :
    b.addAll (v :: vs) = ((b.add v).1 :: ((b.add v).2.addAll vs).1,
      ((b.add v).2.addAll vs).2) := rfl

/-- Vectors are added one after the other, and keep their positions. -/
theorem Sound.addAll (hb : b.Sound H ∅) {vs : List (Vec α)} (hvs : ∀ v ∈ vs, v.Known H) :
    (b.addAll vs).2.Sound H ∅ ∧ b.Grows (b.addAll vs).2 ∧
      List.Forall₂ (b.addAll vs).2.Holds (b.addAll vs).1 vs := by
  induction vs generalizing b with
  | nil => exact ⟨hb, .refl b, .nil⟩
  | cons v vs ih =>
      obtain ⟨hv, hvs⟩ := List.forall_mem_cons.mp hvs
      obtain ⟨hsound₁, hgrows₁, hholds⟩ := hb.add hv
      obtain ⟨hsound₂, hgrows₂, hall⟩ := ih hsound₁ hvs
      rw [addAll_cons]
      exact ⟨hsound₂, hgrows₁.trans hgrows₂, .cons (hholds.mono hgrows₂) hall⟩

/-- Vectors in a row, and then others. -/
lemma addAll_append (b : Builder α) (us vs : List (Vec α)) :
    b.addAll (us ++ vs) = ((b.addAll us).1 ++ ((b.addAll us).2.addAll vs).1,
      ((b.addAll us).2.addAll vs).2) := by
  induction us generalizing b with
  | nil => rfl
  | cons u us ih => rw [List.cons_append, addAll_cons, ih, addAll_cons, List.cons_append]

/-- Vectors in a row, and one more. -/
lemma addAll_concat (b : Builder α) (vs : List (Vec α)) (v : Vec α) :
    b.addAll (vs ++ [v]) =
      ((b.addAll vs).1 ++ [((b.addAll vs).2.add v).1], ((b.addAll vs).2.add v).2) :=
  addAll_append b vs [v]

/-- A vector that was added has a position. -/
lemma exists_holds {is : List Nat} {vs : List (Vec α)} (hall : List.Forall₂ b.Holds is vs)
    {v : Vec α} (hv : v ∈ vs) : ∃ i, b.Holds i v := by
  obtain ⟨n, hn, rfl⟩ := List.mem_iff_getElem.mp hv
  exact ⟨_, hall.get (hall.length_eq ▸ hn) hn⟩

/-! ### What is known of a vector -/

/-- A vector has its ends in a builder if its root and its tail have keys. -/
lemma ends?_eq_some_iff {v : Vec α} {e : PooledVec} :
    b.ends? v = some e ↔ b.key? v.root.id = some e.root ∧ b.key? v.tail.id = some e.tail := by
  rw [ends?]
  constructor
  · intro h
    split at h
    · next hroot htail =>
      cases h
      exact ⟨hroot, htail⟩
    · cases h
  · rintro ⟨hroot, htail⟩
    rw [hroot, htail]

/-- The ends of a vector are known exactly if its root and its tail were met. -/
lemma exists_ends?_iff {S : Finset NodeId} (hS : ∀ i, (∃ k, b.key? i = some k) ↔ i ∈ S)
    {v : Vec α} : (∃ e, b.ends? v = some e) ↔ v.root.id ∈ S ∧ v.tail.id ∈ S := by
  rw [← hS, ← hS]
  constructor
  · rintro ⟨e, he⟩
    obtain ⟨hroot, htail⟩ := ends?_eq_some_iff.mp he
    exact ⟨⟨_, hroot⟩, _, htail⟩
  · rintro ⟨⟨k, hroot⟩, k', htail⟩
    exact ⟨⟨k, k'⟩, ends?_eq_some_iff.mpr ⟨hroot, htail⟩⟩

end Builder

end RadixPool
