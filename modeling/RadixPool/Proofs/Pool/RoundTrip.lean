import Mathlib
import RadixPool.Proofs.Pool.Map
import RadixPool.Proofs.Pool.Save
import RadixPool.Proofs.Tree.Outline
import RadixPool.Proofs.Vec.History

/-!
Saving and loading.

Vectors that are added to a pool are loaded from it as copies: the nodes built from the pool are the
nodes of the vectors with other identities, and different nodes have different ones. The same holds
of the pool with other elements, whose nodes are copies with these elements.

* `Builder.copyId`: the identity of the copy of a node.
* `Builder.Sound.outline_eq_map`: the node built for a key is the copy of the node that has the key.
* `Builder.Sound.eq_map_of_loads`: the vector loaded for two keys is the copy of the one whose root
  and tail have them.
* `World.Reachable.loadAll_addAll`: what is added to a pool is loaded from its document, with the
  same sharing.
-/

namespace RadixPool

variable {α β : Type} {s : Shape}

/-- A loaded vector is formed. -/
lemma Loader.Loads.formed {built : KeyMap (Node α)} {e : PooledVec} {h : Nat} {v : Vec α}
    (hv : Loads s built e h v) : v.Formed s h :=
  ⟨hv.sound, hv.fits, hv.shift, hv.len⟩

namespace Builder

variable {b : Builder α} {H : Heap α} {H' : Heap β} {plan : Plan} {built : KeyMap (Node β)}
  {next : NodeId} {g : α → β}

/-- The identity that a node has after loading: that of the node built for its key. Nodes that are
not loaded are sent beyond all identities in use. -/
def copyId (b : Builder α) (built : KeyMap (Node β)) (next : NodeId) (i : NodeId) : NodeId :=
  match (b.key? i).bind built.get? with
  | some n => n.id
  | none => next + i

lemma copyId_of_built {i : NodeId} {k : Key} {n : Node β} (hk : b.key? i = some k)
    (hn : built.get? k = some n) : b.copyId built next i = n.id := by
  rw [copyId, hk, Option.bind_some, hn]

namespace Sound

/-- Different nodes have different copies. -/
theorem copyId_injective (hb : b.Sound H ∅) {q : Pool β} (hbuilt : q.Built plan H' built)
    (hfree : H'.FreeFrom next) : Function.Injective (b.copyId built next) := by
  -- the copy of an identity is that of a node built for its key, or lies beyond all of these
  have hcases : ∀ i, (∃ k n, b.key? i = some k ∧ built.get? k = some n ∧
      b.copyId built next i = n.id ∧ n.id < next) ∨ b.copyId built next i = next + i := by
    intro i
    cases hn : (b.key? i).bind built.get? with
    | none => exact .inr (by rw [copyId, hn])
    | some n =>
        obtain ⟨k, hk, hkn⟩ := Option.bind_eq_some_iff.mp hn
        have hlt : n.id < next :=
          Heap.lt_of_eq_some hfree (hbuilt.known hkn n (Node.mem_nodes_self n))
        exact .inl ⟨k, n, hk, hkn, copyId_of_built hk hkn, hlt⟩
  intro i j heq
  rcases hcases i with ⟨k, n, hk, hkn, hi, hlt⟩ | hi <;>
    rcases hcases j with ⟨k', n', hk', hkn', hj, hlt'⟩ | hj
  · have hkk : k = k' := hbuilt.inj hkn hkn' (hi.symm.trans (heq.trans hj))
    exact hb.inj hk (hkk ▸ hk')
  · have hle : next ≤ n.id := by
      rw [← hi, heq, hj]
      exact Nat.le_add_right _ _
    exact absurd hlt (Nat.not_lt_of_le hle)
  · have hle : next ≤ n'.id := by
      rw [← hj, ← heq, hi]
      exact Nat.le_add_right _ _
    exact absurd hlt' (Nat.not_lt_of_le hle)
  · exact Nat.add_left_cancel (hi.symm.trans (heq.trans hj))

/-- The nodes built for the keys of some nodes are their copies, if this is so for each of them. -/
lemma outlineAll_eq {cs : List (Node α)} {cs' : List (Node β)} {ks : List Key}
    (hcopy : ∀ c ∈ cs, ∀ {k m}, b.key? c.id = some k → built.get? k = some m →
      m.outline = (c.map (b.copyId built next) g).outline)
    (hks : (cs.map Node.id).map b.key? = ks.map some) (hcs' : ks.map built.get? = cs'.map some) :
    Node.outlineAll cs' = Node.outlineAll (Node.mapAll (b.copyId built next) g cs) := by
  induction cs generalizing ks cs' with
  | nil =>
      obtain rfl : ks = [] := by simpa using hks.symm
      obtain rfl : cs' = [] := by simpa using hcs'.symm
      rfl
  | cons c cs ih =>
      cases ks with
      | nil => cases hks
      | cons k ks =>
          cases cs' with
          | nil => cases hcs'
          | cons c' cs' =>
              rw [List.map_cons, List.map_cons, List.map_cons, List.cons.injEq] at hks
              rw [List.map_cons, List.map_cons, List.cons.injEq] at hcs'
              rw [Node.mapAll, Node.outlineAll, Node.outlineAll,
                hcopy c List.mem_cons_self hks.1 hcs'.1,
                ih (fun d hd => hcopy d (List.mem_cons_of_mem c hd)) hks.2 hcs'.2]

/-- The node built for a key is the copy of the node that has the key, up to what stands in the
tables. -/
theorem outline_eq_map (hb : b.Sound H ∅) (hbuilt : (b.pool.map g).Built plan H' built)
    {n : Node α} {m : Node β} {k : Key} (hn : n.Known H) (hk : b.key? n.id = some k)
    (hm : built.get? k = some m) : m.outline = (n.map (b.copyId built next) g).outline := by
  have hid : b.copyId built next n.id = m.id := copyId_of_built hk hm
  induction n using Node.induct generalizing k m with
  | leaf l =>
      have hentry : (b.pool.map g).leaves.get? k = some (l.items.map g) :=
        Pool.leaves_map_eq_some_iff.mpr ⟨l.items, hb.entry hn hk, rfl⟩
      have hmade := hbuilt.made hm
      cases m with
      | leaf l' =>
          have hitems : l.items.map g = l'.items := Option.some.inj (hentry.symm.trans hmade)
          rw [Node.id_leaf, Node.id_leaf] at hid
          rw [Node.map, hid, hitems]
      | inner =>
          have hnone := hmade.1
          rw [hentry] at hnone
          cases hnone
  | inner i cs sizes ih =>
      obtain ⟨ks, he, hks⟩ := hb.entry hn hk
      have hmade := hbuilt.made hm
      cases m with
      | leaf l' =>
          have hnone : b.pool.inners.get? k = none := Pool.Disjoint.map hb.disjoint g hmade
          rw [he] at hnone
          cases hnone
      | inner i' cs' sizes' =>
          obtain ⟨-, e, he', hcs', hsizes⟩ := hmade
          obtain rfl := Option.some.inj (he.symm.trans he')
          have hknown := (Node.known_inner_iff.mp hn).2
          have hall : Node.outlineAll cs' =
              Node.outlineAll (Node.mapAll (b.copyId built next) g cs) :=
            outlineAll_eq (fun c hc _ _ hkc hmc =>
              ih c hc (hknown c hc) hkc hmc (copyId_of_built hkc hmc)) hks hcs'
          have htable : sizes'.map (fun _ => ([] : List Nat)) = sizes.map fun _ => [] := by
            rw [hsizes]
            cases sizes <;> rfl
          rw [Node.id_inner, Node.id_inner] at hid
          rw [Node.map, Node.outline, Node.outline, hid, hall, htable]

variable {h h' : Nat} {e : PooledVec} {u : Vec β} {v : Vec α}

/-- The vector built for the keys of a root and a tail resembles a copy of the vector that has
them. -/
lemma resembles_of_loads (hb : b.Sound H ∅) (hbuilt : (b.pool.map g).Built plan H' built)
    (hk : v.Known H) (hroot : b.key? v.root.id = some e.root)
    (htail : b.key? v.tail.id = some e.tail) (hu : Loader.Loads s built e h' u) :
    u.Resembles (v.map (b.copyId built next) g) := by
  obtain ⟨hkroot, hktail⟩ := Vec.known_iff.mp hk
  have hleaf : (Node.leaf u.tail).outline =
      ((Node.leaf v.tail).map (b.copyId built next) g).outline :=
    hb.outline_eq_map hbuilt hktail htail hu.tail
  rw [Node.map, Node.outline, Node.outline] at hleaf
  refine ⟨?_, Node.leaf.inj hleaf⟩
  rw [Vec.node_root_map]
  exact hb.outline_eq_map hbuilt hkroot hroot hu.root

/-- It is the copy if the vector is formed. -/
theorem eq_map_of_loads (hb : b.Sound H ∅) (hbuilt : (b.pool.map g).Built plan H' built)
    (hv : v.Formed s h) (hk : v.Known H) (hroot : b.key? v.root.id = some e.root)
    (htail : b.key? v.tail.id = some e.tail) (hu : Loader.Loads s built e h' u) :
    u = v.map (b.copyId built next) g :=
  hu.formed.eq_of_resembles (hv.map _ g) (hb.resembles_of_loads hbuilt hk hroot htail hu)

/-- The vector loaded from the pool itself is a copy with the same elements. -/
theorem vec_eq_map {built : KeyMap (Node α)} {H' : Heap α} {u : Vec α} (hb : b.Sound H ∅)
    (hbuilt : b.pool.Built plan H' built) (hv : v.Sound s h) (hk : v.Known H)
    (hroot : b.key? v.root.id = some e.root) (htail : b.key? v.tail.id = some e.tail)
    (hu : Loader.Loads s built e h' u) : u = v.map (b.copyId built next) id :=
  hb.eq_map_of_loads (b.pool.map_id.symm ▸ hbuilt) hv.formed hk hroot htail hu

end Sound

end Builder

/-! ### Families of vectors -/

namespace World

variable {w : World α} {vs : List (Vec α)}

/-- The nodes of a family may stand in a pool. -/
lemma Sound.storable {H : Heap α} (hs : s.Valid) (hw : w.Sound s H) (hvs : ∀ v ∈ vs, v ∈ w.vecs)
    (hshift : ∀ v ∈ vs, v.shift < Word.width) {n : Node α} (hn : n.Known (H.only (Vec.ids vs))) :
    n.Storable s := by
  obtain ⟨-, v, hv, hmem⟩ :=
    Heap.exists_mem_of_known_only (fun v hv => hw.known v (hvs v hv)) hn
  obtain ⟨h, hsound⟩ := hw.vec v (hvs v hv)
  exact hsound.storable hs (hshift v hv) hmem

/-- The builder to which the vectors of a family were added: it has met their nodes, and all of them
may stand in a pool. -/
lemma Sound.addAll {H : Heap α} (hs : s.Valid) (hw : w.Sound s H) (hvs : ∀ v ∈ vs, v ∈ w.vecs)
    (hshift : ∀ v ∈ vs, v.shift < Word.width) {is : List Nat} {b : Builder α}
    (hadd : (Builder.empty s).addAll vs = (is, b)) :
    b.Sound (H.only (Vec.ids vs)) ∅ ∧ b.pool.shape = s ∧ List.Forall₂ b.Holds is vs ∧
      (∀ {n : Node α} {k}, n.Known (H.only (Vec.ids vs)) → b.key? n.id = some k → n.Storable s) ∧
      b.keys.size ≤ (Vec.ids vs).card := by
  have hknown : ∀ v ∈ vs, v.Known H := fun v hv => hw.known v (hvs v hv)
  have hall := Builder.Sound.empty (s := s) |>.addAll fun v hv => Heap.known_only hv (hknown v hv)
  rw [hadd] at hall
  obtain ⟨hb, hgrows, hholds⟩ := hall
  exact ⟨hb, hgrows.shape, hholds, fun hn _ => hw.storable hs hvs hshift hn, hb.size_le hknown⟩

/-- Vectors with any history that are added to a pool, in any order and any number of times, are
loaded from the document of the pool, again in any order and any number of times: the document is
read, the pool is accepted, and the position that was given for a vector leads to a copy of it. All
copies are made by one injective renaming of the nodes, so they share what the vectors share. The
vectors lie in one memory, which has no more nodes than machine words to address them. -/
theorem Reachable.loadAll_addAll (hs : s.Valid) (hw : w.Reachable s) (hvs : ∀ v ∈ vs, v ∈ w.vecs)
    (hshift : ∀ v ∈ vs, v.shift < Word.width) (hids : (Vec.ids vs).card ≤ Word.count)
    {write : α → Json} {read? : Json → Option α} (hrw : ∀ x, read? (write x) = some x)
    {is : List Nat} {b : Builder α} (hadd : (Builder.empty s).addAll vs = (is, b))
    (name name' : String) :
    is.length = vs.length ∧ Pool.ofJson read? name s (b.pool.toJson write) = .ok b.pool ∧
      ∃ l, Loader.ofPool s name' b.pool = .ok l ∧
        ∀ rs : List (Nat × Vec α), (∀ r ∈ rs, r ∈ is.zip vs) → ∀ next, ∃ f : NodeId → NodeId,
          Function.Injective f ∧
            (l.loadAll (rs.map Prod.fst) next).1.1 = rs.map fun r => .ok (r.2.map f id) := by
  obtain ⟨H, hw⟩ := hw.sound hs
  obtain ⟨hb, hshape, hholds, hst, hsize⟩ := hw.addAll hs hvs hshift hadd
  obtain ⟨plan, hl⟩ := hb.ofPool_eq_ok hs hshape hst name'
  refine ⟨hholds.length_eq, hb.ofJson_toJson hs hshape hst (hsize.trans hids)
    (fun _ x _ => hrw x) name, _, hl,
    fun rs hrs next => ?_⟩
  have hrs' : ∀ r ∈ rs, b.Holds r.1 r.2 ∧ r.2 ∈ vs := by
    intro r hr
    exact ⟨(List.forall₂_iff_zip.mp hholds).2 (hrs r hr), (List.of_mem_zip (hrs r hr)).2⟩
  have his : ∀ i ∈ rs.map Prod.fst, i < b.pool.vectors.length := by
    intro i hi
    obtain ⟨r, hr, rfl⟩ := List.mem_map.mp hi
    obtain ⟨e, he, -⟩ := (hrs' r hr).1
    exact (List.getElem?_eq_some_iff.mp he).1
  obtain ⟨us, H', l', next', hload, hlater, hus⟩ :=
    (Loader.Sound.ofPool hl fun _ => none).loadAll_eq_ok hs (fun i (_ : next ≤ i) => rfl)
      hb.disjoint his
  have hbuilt : b.pool.Built l'.plan H' l'.built := by
    have hbuilt := hlater.sound.built
    rwa [hlater.pool] at hbuilt
  refine ⟨b.copyId l'.built next', hb.copyId_injective hbuilt hlater.grows.free, ?_⟩
  have hcopies : us = rs.map fun r => r.2.map (b.copyId l'.built next') id := by
    rw [← List.forall₂_eq_eq_eq, List.forall₂_map_right_iff]
    rw [List.forall₂_map_left_iff] at hus
    refine List.Forall₂.flip (List.forall₂_iff_zip.mpr ⟨hus.length_eq, fun {r u} hmem => ?_⟩)
    obtain ⟨⟨e, he, hroot, htail⟩, hv⟩ := hrs' r (List.of_mem_zip hmem).1
    obtain ⟨h, hsound⟩ := hw.vec r.2 (hvs r.2 hv)
    obtain ⟨e', h', he', hu⟩ := (List.forall₂_iff_zip.mp hus).2 hmem
    obtain rfl := Option.some.inj (he.symm.trans he')
    have hknown : r.2.Known (H.only (Vec.ids vs)) := Heap.known_only hv (hw.known r.2 (hvs r.2 hv))
    exact hb.vec_eq_map hbuilt hsound hknown hroot htail hu
  rw [hload, hcopies, List.map_map]
  rfl

/-- A relaxed vector and the one it was made from: the old root stands below the new one, and the
old tail is a leaf of the tree. -/
theorem Reachable.loadAll_addAll_grown :
    ∃ (w : World Bool) (is : List Nat) (b : Builder Bool), w.Reachable ⟨1, 1⟩ ∧
      (∀ x ∈ [grownVec, relaxedVec, grownVec], x ∈ w.vecs) ∧
      relaxedVec.root.node ∈ grownVec.root.children ∧
      .leaf relaxedVec.tail ∈ grownVec.root.node.nodes ∧
      (Builder.empty ⟨1, 1⟩).addAll [grownVec, relaxedVec, grownVec] = (is, b) ∧ is = [0, 1, 0] ∧
      Pool.ofJson Json.bool? "pool" ⟨1, 1⟩ (b.pool.toJson .bool) = .ok b.pool ∧
      ∃ l, Loader.ofPool ⟨1, 1⟩ "pool" b.pool = .ok l ∧
        ∀ rs : List (Nat × Vec Bool), (∀ r ∈ rs, r ∈ is.zip [grownVec, relaxedVec, grownVec]) →
          ∀ next, ∃ f : NodeId → NodeId, Function.Injective f ∧
            (l.loadAll (rs.map Prod.fst) next).1.1 = rs.map fun r => .ok (r.2.map f id) := by
  have hs : Shape.Valid ⟨1, 1⟩ := by decide
  obtain ⟨l, hw⟩ := Reachable.grown
  have hvs : ∀ x ∈ [grownVec, relaxedVec, grownVec], x ∈ [grownVec, relaxedVec] := by simp
  have hshift : ∀ x ∈ [grownVec, relaxedVec, grownVec], x.shift < Word.width := by decide
  have hrw : ∀ x, Json.bool? (.bool x) = some x := fun _ => rfl
  obtain ⟨-, hread, hload⟩ :=
    Reachable.loadAll_addAll hs hw hvs hshift (by decide) hrw rfl "pool" "pool"
  exact ⟨_, _, _, hw, hvs, shared_grownVec.1, shared_grownVec.2, rfl, by decide, hread, hload⟩

end World

end RadixPool
