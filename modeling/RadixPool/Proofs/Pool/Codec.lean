import Mathlib
import RadixPool.Proofs.Pool.Reading

/-!
Reading and writing pools undo each other.

A pool that could be read is read back from its document. A document that was read need not list its
entries in ascending order of their keys, so writing the pool again gives the document in order: the
same entries, sorted, and the same vectors. From then on nothing changes any more.

* `byKey`: entries in ascending order of their keys, which is how a map lists them
  (`KeyMap.entries_ofList`).
* `PoolDraft.sorted`: a draft with its entries in order.
* `Pool.Rereads`: the elements of a pool are read as they were written.
* `Pool.toJson_pool`, `Pool.ofJson?_toJson_pool`: what is written for the pool of a draft, and
  what is read from this.
* `Pool.ofJson_toJson_inverse`: reading and writing undo each other.
-/

namespace RadixPool

variable {α β : Type}

/-! ### Entries in order -/

/-- Keyed values in ascending order of their keys. -/
def byKey (l : List (Key × β)) : List (Key × β) := l.mergeSort fun a b => a.1 ≤ b.1

lemma perm_byKey (l : List (Key × β)) : (byKey l).Perm l := List.mergeSort_perm l _

/-- Different keys ascend strictly. -/
lemma ascending_byKey {l : List (Key × β)} (hnd : (l.map Prod.fst).Nodup) :
    Assoc.Ascending (byKey l) := by
  have hle : (byKey l).Pairwise fun a b => a.1 ≤ b.1 := by
    have hsorted : (byKey l).Pairwise fun a b => decide (a.1 ≤ b.1) = true := by
      refine List.pairwise_mergeSort (fun a b c hab hbc => ?_) (fun a b => ?_) l
      · exact decide_eq_true ((of_decide_eq_true hab).trans (of_decide_eq_true hbc))
      · simpa using Nat.le_total a.1 b.1
    exact hsorted.imp of_decide_eq_true
  have hne : (byKey l).Pairwise fun a b => a.1 ≠ b.1 :=
    List.pairwise_map.mp (((perm_byKey l).map Prod.fst).nodup_iff.mpr hnd)
  exact (hle.and hne).imp fun h => Nat.lt_of_le_of_ne h.1 h.2

/-- A map lists entries with different keys in ascending order, in whatever order they were
entered. -/
theorem KeyMap.entries_ofList {l : List (Key × β)} (hnd : (l.map Prod.fst).Nodup) :
    (KeyMap.ofList l).entries = byKey l := by
  have hperm : (KeyMap.ofList l).entries.Perm (byKey l) :=
    (perm_entries_ofList hnd).trans (perm_byKey l).symm
  refine hperm.eq_of_pairwise (fun a b _ _ hab hba => ?_) (ofList l).ascending (ascending_byKey hnd)
  exact absurd hba (Nat.lt_asymm hab)

/-- The draft with its entries in ascending order of their keys. -/
def PoolDraft.sorted (d : PoolDraft α) : PoolDraft α :=
  { d with inners := byKey d.inners, leaves := byKey d.leaves }

namespace Pool

variable {read? : Json → Option α} {write : α → Json} {name name' : String} {s : Shape} {p : Pool α}
  {j : Json}

/-- The elements of a pool are read as they were written. -/
def Rereads (read? : Json → Option α) (write : α → Json) (p : Pool α) : Prop :=
  ∀ {k items}, p.leaves.get? k = some items → ∀ x ∈ items, read? (write x) = some x

/-- What is written for the pool of a draft: the entries in ascending order of their keys, and the
vectors in their own order. -/
lemma toJson_pool {d : PoolDraft α} (hnd : d.keys.Nodup) :
    (d.pool s).toJson write = .obj [
      ("B", .nat s.bits),
      ("BL", .nat s.leafBits),
      ("inners", .arr ((byKey d.inners).map fun e => keyedJson e.1 e.2.toJson)),
      ("leaves", .arr ((byKey d.leaves).map fun e => keyedJson e.1 (.arr (e.2.map write)))),
      ("vectors", .arr (d.vectors.map PooledVec.toJson))] := by
  rw [toJson_eq, PoolDraft.pool, KeyMap.entries_ofList (PoolDraft.nodup_inners hnd),
    KeyMap.entries_ofList (PoolDraft.nodup_leaves hnd)]

/-- The draft of what is written for the pool of a draft is that draft, in order. -/
lemma ofJson?_toJson_pool {d : PoolDraft α} (hs : s.Valid) (hshape : d.HasShape s)
    (hnd : d.keys.Nodup) (hc : (d.pool s).Checked)
    (hk : ∀ k, (d.pool s).contains k = true → k < Word.count)
    (hrw : (d.pool s).Rereads read? write) :
    PoolDraft.ofJson? read? ((d.pool s).toJson write) = some d.sorted := by
  rw [PoolDraft.ofJson?_toJson hs hc hk hrw, PoolDraft.sorted, hshape.1, hshape.2, PoolDraft.pool,
    KeyMap.entries_ofList (PoolDraft.nodup_inners hnd),
    KeyMap.entries_ofList (PoolDraft.nodup_leaves hnd)]

/-- A pool that passes the check and has no key for two nodes is read back from its document. The
other way round, what is written for a pool that was read is the document that was read, its entries
in ascending order of their keys and its vectors as they were; and it stays like this however often
it is read and written. The elements of the pool must be read as they were written. -/
theorem ofJson_toJson_inverse (hs : s.Valid) :
    (∀ p : Pool α, p.shape = s → p.Disjoint → p.check name' = .ok () →
      (∀ k, p.contains k = true → k < Word.count) → p.Rereads read? write →
        Pool.ofJson read? name s (p.toJson write) = .ok p ∧
          toJson write <$> Pool.ofJson read? name s (p.toJson write) = .ok (p.toJson write)) ∧
      ∀ (j : Json) (p : Pool α), Pool.ofJson read? name s j = .ok p →
        ∃ d, PoolDraft.ofJson? read? j = some d ∧
          p.toJson write = .obj [
            ("B", .nat s.bits),
            ("BL", .nat s.leafBits),
            ("inners", .arr ((byKey d.inners).map fun e => keyedJson e.1 e.2.toJson)),
            ("leaves", .arr ((byKey d.leaves).map fun e => keyedJson e.1 (.arr (e.2.map write)))),
            ("vectors", .arr (d.vectors.map PooledVec.toJson))] ∧
          (p.Rereads read? write →
            PoolDraft.ofJson? read? (p.toJson write) = some d.sorted ∧
              toJson write <$> Pool.ofJson read? name s (p.toJson write) =
                .ok (p.toJson write)) := by
  refine ⟨fun p hshape hp hcheck hk hrw => ?_, fun j p h => ?_⟩
  · subst hshape
    have hread : Pool.ofJson read? name p.shape (p.toJson write) = .ok p :=
      ofJson_toJson hs (check_eq_ok_iff.mp hcheck) hp hk hrw
    exact ⟨hread, by rw [hread]; rfl⟩
  · obtain ⟨d, hd, hshape, hnd, hcheck, rfl⟩ := ofJson_eq_ok_iff.mp h
    refine ⟨d, hd, toJson_pool hnd, fun hrw => ?_⟩
    have hc : (d.pool s).Checked := check_eq_ok_iff.mp hcheck
    have hk : ∀ k, (d.pool s).contains k = true → k < Word.count := fun k => lt_of_ofJson h
    have hread : Pool.ofJson read? name s ((d.pool s).toJson write) = .ok (d.pool s) :=
      ofJson_toJson hs hc (PoolDraft.disjoint_pool hnd) hk hrw
    exact ⟨ofJson?_toJson_pool hs hshape hnd hc hk hrw, by rw [hread]; rfl⟩

/-- Two leaves are listed in descending order of their keys, and come out in ascending order. -/
theorem ofJson_toJson_inverse_unordered :
    ∃ (j : Json) (p : Pool Bool) (d : PoolDraft Bool), Shape.Valid ⟨1, 1⟩ ∧
      PoolDraft.ofJson? Json.bool? j = some d ∧ d.leaves = [(5, [true]), (3, [])] ∧
      Pool.ofJson Json.bool? "pool" ⟨1, 1⟩ j = .ok p ∧
      p.Rereads Json.bool? .bool ∧
      p.leaves.entries = [(3, []), (5, [true])] ∧
      Pool.ofJson Json.bool? "pool" ⟨1, 1⟩ (p.toJson .bool) = .ok p ∧
      PoolDraft.ofJson? Json.bool? (p.toJson .bool) = some d.sorted := by
  let j : Json := .arr [.nat 1, .nat 1, .arr [.arr [.nat 7, .arr [.arr [.nat 5], .bool false]]],
    .arr [.arr [.nat 5, .arr [.bool true]], .arr [.nat 3, .arr []]], .arr [.arr [.nat 7, .nat 3]]]
  have hs : Shape.Valid ⟨1, 1⟩ := by decide
  have hj : ∃ p d, PoolDraft.ofJson? Json.bool? j = some d ∧ d.leaves = [(5, [true]), (3, [])] ∧
      Pool.ofJson Json.bool? "pool" ⟨1, 1⟩ j = .ok p ∧
      p.leaves.entries = [(3, []), (5, [true])] :=
    ⟨_, _, rfl, rfl, rfl, rfl⟩
  obtain ⟨p, d, hd, hleaves, hp, hentries⟩ := hj
  have hrw : p.Rereads Json.bool? .bool := fun _ _ _ => rfl
  obtain ⟨hwritten, hread⟩ := @ofJson_toJson_inverse Bool Json.bool? .bool "pool" "pool" ⟨1, 1⟩ hs
  obtain ⟨hshape, hdisjoint, hc⟩ := ofJson_eq_ok hp
  obtain ⟨d', hd', -, hsorted⟩ := hread j p hp
  obtain rfl := Option.some.inj (hd'.symm.trans hd)
  exact ⟨j, p, d', hs, hd, hleaves, hp, hrw, hentries,
    (hwritten p hshape hdisjoint (check_eq_ok_iff.mpr hc) (fun k => lt_of_ofJson hp) hrw).1,
    (hsorted hrw).1⟩

end Pool

end RadixPool
