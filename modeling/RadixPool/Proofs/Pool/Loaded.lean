import Mathlib
import RadixPool.Proofs.Pool.Dedup
import RadixPool.Proofs.Pool.RoundTrip

/-!
What is loaded can be saved again.

A vector that was loaded need not be sound, since its length may have wrapped, but all of its
nodes are built from the pool: they may stand in a pool again, and there are no more of them than
keys. In the same way there are no more different vectors than positions.

* `Loader.Loads.storable`: the nodes of a loaded vector may stand in a pool.
* `Loader.card_ids_le`, `Loader.length_eraseDups_ends_le`: how many nodes and how many vectors can
  be loaded from a pool.
-/

namespace RadixPool

variable {α : Type} {s : Shape}

/-- What is left of a list without its repetitions has none. -/
lemma nodup_eraseDups {β : Type} [BEq β] [LawfulBEq β] : (l : List β) → l.eraseDups.Nodup
  | [] => List.nodup_nil
  | b :: l => by
      rw [List.eraseDups_cons, List.nodup_cons]
      refine ⟨fun hmem => ?_, nodup_eraseDups _⟩
      rw [List.mem_eraseDups, List.mem_filter] at hmem
      simp at hmem
termination_by l => l.length
decreasing_by exact Nat.lt_succ_of_le (List.length_filter_le _ l)

namespace Pool.Built

variable {p : Pool α} {plan : Plan} {H : Heap α} {built : KeyMap (Node α)}

/-- The key of a built node is in use. -/
lemma contains (hb : p.Built plan H built) {k : Key} {n : Node α} (hk : built.get? k = some n) :
    p.contains k = true := by
  rw [contains_iff]
  have hmade := hb.made hk
  cases n with
  | leaf l => exact .inr ⟨_, hmade⟩
  | inner id cs sizes =>
      obtain ⟨-, e, he, -⟩ := hmade
      exact .inl ⟨e, he⟩

end Pool.Built

namespace Loader

variable {l : Loader α} {H : Heap α} {e : PooledVec} {h : Nat} {v : Vec α} {vs : List (Vec α)}

/-- The count of the tree of a loaded vector is a word. -/
lemma Loads.count_lt (hl : l.Sound s H) (hv : Loads s l.built e h v) :
    v.root.node.count < Word.count := by
  obtain ⟨info, hinfo, hsound, hcount⟩ := hl.built.rated hv.root
  rcases hl.ready.fits.cases hinfo with ⟨items, hleaf, -⟩ | ⟨-, branch, h', ns, -, hm, rfl⟩
  · have hmade := (hl.built.made hv.root).1
    rw [hleaf] at hmade
    cases hmade
  · exact hcount.trans_lt hm.fits

/-- The nodes of a loaded vector may stand in a pool. -/
theorem Loads.storable (hs : s.Valid) (hl : l.Sound s H) (hv : Loads s l.built e h v) {n : Node α}
    (hn : n ∈ v.nodes) : n.Storable s :=
  hv.formed.storable hs hv.level (hv.count_lt hl) hn

/-- No more nodes are loaded than there are keys. -/
theorem card_ids_le (hl : l.Sound s H) (hkeys : ∀ k, l.pool.contains k = true → k < Word.count)
    (hvs : ∀ v ∈ vs, ∃ e h, Loads s l.built e h v) : (Vec.ids vs).card ≤ Word.count := by
  let nodeId : Key → NodeId := fun k => ((l.built.get? k).map Node.id).getD 0
  have hsub : Vec.ids vs ⊆ (Finset.range Word.count).image nodeId := by
    intro i hi
    obtain ⟨v, hv, n, hn, rfl⟩ := Vec.mem_ids.mp hi
    obtain ⟨e, h, hloads⟩ := hvs v hv
    obtain ⟨k, hk⟩ := hloads.exists_key hl hn
    have hlt : k < Word.count := hkeys k (hl.built.contains hk)
    have hid : nodeId k = n.id := by
      simp only [nodeId, hk, Option.map_some, Option.getD_some]
    exact Finset.mem_image.mpr ⟨k, Finset.mem_range.mpr hlt, hid⟩
  calc (Vec.ids vs).card
    _ ≤ ((Finset.range Word.count).image nodeId).card := Finset.card_le_card hsub
    _ ≤ (Finset.range Word.count).card := Finset.card_image_le
    _ = Word.count := Finset.card_range _

/-- No more different vectors are loaded than there are positions. -/
theorem length_eraseDups_ends_le (hvs : ∀ v ∈ vs, ∃ i e h, i < Word.count ∧
    l.pool.vectors[i]? = some e ∧ Loads s l.built e h v) :
    (vs.map Vec.ends).eraseDups.length ≤ Word.count := by
  let nodeId : Key → NodeId := fun k => ((l.built.get? k).map Node.id).getD 0
  let ends : Nat → NodeId × NodeId := fun i =>
    ((l.pool.vectors[i]?).map fun e => (nodeId e.root, nodeId e.tail)).getD (0, 0)
  have hsub : (vs.map Vec.ends).eraseDups ⊆ (List.range Word.count).map ends := by
    intro r hr
    obtain ⟨v, hv, rfl⟩ := List.mem_map.mp (List.mem_eraseDups.mp hr)
    obtain ⟨i, e, h, hi, he, hloads⟩ := hvs v hv
    have hends : ends i = v.ends := by
      simp only [ends, nodeId, he, hloads.root, hloads.tail, Option.map_some, Option.getD_some]
      rfl
    exact List.mem_map.mpr ⟨i, List.mem_range.mpr hi, hends⟩
  calc (vs.map Vec.ends).eraseDups.length
    _ ≤ ((List.range Word.count).map ends).length :=
        ((nodup_eraseDups _).subperm hsub).length_le
    _ = Word.count := by rw [List.length_map, List.length_range]

end Loader

end RadixPool
