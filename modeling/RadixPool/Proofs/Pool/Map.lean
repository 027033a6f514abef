import Mathlib
import RadixPool.Proofs.Pool.Loader

/-!
Pools with other elements.

Whether a pool is accepted depends on its nodes and on how many elements its leaves have, but not on
the elements.

* `Pool.map`: a pool with its elements sent through a function.
* `Loader.ofPool_map`: it is accepted if the pool is.
-/

namespace RadixPool

variable {α β : Type} {s : Shape}

namespace Pool

variable {p : Pool α} {g : α → β}

/-- The pool with the same nodes and vectors, its elements sent through a function. -/
def map (g : α → β) (p : Pool α) : Pool β :=
  ⟨p.shape, p.inners, p.leaves.mapValues (List.map g), p.vectors⟩

@[simp] lemma inners_map : (p.map g).inners = p.inners := rfl

@[simp] lemma vectors_map : (p.map g).vectors = p.vectors := rfl

lemma get?_leaves_map (k : Key) :
    (p.map g).leaves.get? k = (p.leaves.get? k).map (List.map g) :=
  KeyMap.get?_mapValues _ _ _

lemma leaves_map_eq_some_iff {k : Key} {items : List β} :
    (p.map g).leaves.get? k = some items ↔ ∃ xs, p.leaves.get? k = some xs ∧ xs.map g = items := by
  rw [get?_leaves_map, Option.map_eq_some_iff]

lemma leaves_map_eq_none_iff {k : Key} :
    (p.map g).leaves.get? k = none ↔ p.leaves.get? k = none := by
  rw [get?_leaves_map, Option.map_eq_none_iff]

@[simp] lemma contains_map (k : Key) : (p.map g).contains k = p.contains k := by
  rw [contains, contains, KeyMap.contains, KeyMap.contains, KeyMap.contains, get?_leaves_map,
    Option.isSome_map, inners_map]
  rfl

/-- With the same elements the pool is the same. -/
@[simp] lemma map_id (p : Pool α) : p.map id = p := by
  have hleaves : p.leaves.mapValues (List.map id) = p.leaves := by
    refine KeyMap.ext_get? fun k => ?_
    rw [KeyMap.get?_mapValues, List.map_id_fun, Option.map_id_fun, id]
  rw [map, hleaves]

lemma Disjoint.map (hp : p.Disjoint) (g : α → β) : (p.map g).Disjoint := by
  intro k items hk
  obtain ⟨xs, hxs, -⟩ := leaves_map_eq_some_iff.mp hk
  exact hp hxs

lemma Checked.map (hp : p.Checked) (g : α → β) : (p.map g).Checked where
  leaf hk := by
    obtain ⟨xs, hxs, rfl⟩ := leaves_map_eq_some_iff.mp hk
    exact (List.length_map g).trans_le (hp.leaf hxs)
  width he := hp.width he
  child he hc := (contains_map _).trans (hp.child he hc)
  root hv := (contains_map _).trans (hp.root hv)
  tail hv := (contains_map _).trans (hp.tail hv)

lemma Fits.map {look : Rating} (hp : p.Fits look) (g : α → β) : (p.map g).Fits look where
  leaf hk := by
    obtain ⟨xs, hxs, rfl⟩ := leaves_map_eq_some_iff.mp hk
    rw [List.length_map]
    exact hp.leaf hxs
  inner hk hleaf := hp.inner hk (leaves_map_eq_none_iff.mp hleaf)

end Pool

namespace Loader

/-- A pool that is accepted is accepted with other elements. -/
theorem ofPool_map {name : String} {p : Pool α} {l : Loader α} (hl : ofPool s name p = .ok l)
    (g : α → β) (name' : String) :
    ∃ plan, ofPool s name' (p.map g) = .ok ⟨name', p.map g, plan, ∅⟩ := by
  have hready := ready_of_ofPool hl
  obtain ⟨hshape, hchecked, -, plan, -, rfl⟩ := ofPool_eq_ok_iff.mp hl
  refine ofPool_of_fits (p := p.map g) hshape (hchecked.map g) hready.root (fun hv => ?_)
    (hready.fits.map g) hready.rated name'
  obtain ⟨items, hitems⟩ := hready.tail hv
  exact ⟨_, Pool.leaves_map_eq_some_iff.mpr ⟨items, hitems, rfl⟩⟩

end Loader

end RadixPool
