import Mathlib
import RadixPool.Proofs.Pool.Dedup

/-!
Adding to a pool that is there already.

A vector whose root and tail were added together before has its position, and adding it again does
nothing, whatever was added in between. Any other vector gets the next position; its nodes that were
not met before get the next keys and entries behind all others, and nothing that was there changes.

* `Builder.add_of_position?`: adding a vector that has a position does nothing.
* `Builder.Sound.add_of_position?_eq_none`: a vector without position gets the next one.
* `Builder.Sound.position?_add`, `Builder.Grows.position?`: the position given is found afterwards.
* `Builder.Knows`: what a builder knows of a vector.
* `Builder.Addition`: what adding a vector does.
* `Builder.knows_and_addition`: what a builder knows and does after any additions.
-/

namespace RadixPool

variable {α : Type} {s : Shape}

namespace Builder

variable {b b' : Builder α} {H : Heap α} {vs us : List (Vec α)} {v w : Vec α} {e : PooledVec}
  {i : Nat} {k : Key}

/-! ### Positions -/

/-- A root and a tail have their keys in a pool if their vector has its ends there. -/
lemma ends?_eq_some_iff_listed : b.ends? v = some e ↔ b.Listed e v.ends := ends?_eq_some_iff

lemma position?_eq_some_iff :
    b.position? v = some i ↔ ∃ e, b.Listed e v.ends ∧ b.find? e = some i := by
  simp only [position?, Option.bind_eq_some_iff, ends?_eq_some_iff_listed]

/-- A vector has a position if its keys are those of a vector of the pool. -/
lemma exists_position?_iff :
    (∃ i, b.position? v = some i) ↔ ∃ e ∈ b.pool.vectors, b.Listed e v.ends := by
  have hfind : ∀ e, (∃ i, b.find? e = some i) ↔ e ∈ b.pool.vectors := by
    intro e
    rw [← Option.isSome_iff_exists, find?, List.isSome_idxOf?]
  constructor
  · rintro ⟨i, hi⟩
    obtain ⟨e, he, hfound⟩ := position?_eq_some_iff.mp hi
    exact ⟨e, (hfind e).mp ⟨i, hfound⟩, he⟩
  · rintro ⟨e, hmem, he⟩
    obtain ⟨i, hi⟩ := (hfind e).mpr hmem
    exact ⟨i, position?_eq_some_iff.mpr ⟨e, he, hi⟩⟩

/-- Positions are those of vectors of the pool. -/
lemma lt_of_position? (hi : b.position? v = some i) : i < b.pool.vectors.length := by
  obtain ⟨e, -, hfind⟩ := position?_eq_some_iff.mp hi
  obtain ⟨hlt, -⟩ := List.idxOf?_eq_some_iff.mp hfind
  exact hlt

/-- Vectors with one root and one tail have one position. -/
lemma position?_congr (h : v.ends = w.ends) : b.position? v = b.position? w := by
  obtain ⟨hroot, htail⟩ := Prod.mk.inj h
  rw [position?, position?, ends?, ends?, hroot, htail]

/-- Positions stay. -/
lemma Grows.position? (h : b.Grows b') (hi : b.position? v = some i) : b'.position? v = some i := by
  obtain ⟨e, ⟨hroot, htail⟩, hfind⟩ := position?_eq_some_iff.mp hi
  refine position?_eq_some_iff.mpr ⟨e, ⟨h.key? hroot, h.key? htail⟩, ?_⟩
  obtain ⟨more, hmore⟩ := h.vectors
  rw [find?, List.idxOf?, ← hmore, List.findIdx?_append]
  rw [find?, List.idxOf?] at hfind
  rw [hfind, Option.some_or]

/-! ### Adding a vector once more -/

/-- Adding a vector that has a position does nothing. -/
theorem add_of_position? (hi : b.position? v = some i) : b.add v = (i, b) := by
  obtain ⟨e, ⟨hroot, htail⟩, hfind⟩ := position?_eq_some_iff.mp hi
  have hassign : b.assign v.root.id = (e.root, b) := assign_of_some hroot
  have hassign' : b.assign v.tail.id = (e.tail, b) := assign_of_some htail
  rw [add, hassign]
  dsimp only
  rw [hassign']
  dsimp only
  rw [hfind]

/-- A vector without position gets the next one, and nothing else is added to the vectors. -/
theorem Sound.add_of_position?_eq_none (hb : b.Sound H ∅) (hv : v.Known H)
    (hnone : b.position? v = none) :
    (b.add v).1 = b.pool.vectors.length ∧
      ∃ e, (b.add v).2.Listed e v.ends ∧ e ∉ b.pool.vectors ∧
        (b.add v).2.pool.vectors = b.pool.vectors ++ [e] := by
  obtain ⟨hsound, hgrows, e', he', hroot, htail⟩ := hb.add hv
  obtain ⟨e, he, hvectors⟩ := hb.vectors_add hv
  obtain rfl : e' = e := hsound.biUnique_listed.1 ⟨hroot, htail⟩ he
  -- the keys of another vector would be those of this one before already
  have hnot : e' ∉ b.pool.vectors := by
    intro hmem
    obtain ⟨u, -, huroot, hutail⟩ := hb.vector hmem
    have hends : u.ends = v.ends :=
      hsound.biUnique_listed.2 ⟨hgrows.key? huroot, hgrows.key? hutail⟩ he
    have hlisted : b.Listed e' u.ends := ⟨huroot, hutail⟩
    obtain ⟨i, hi⟩ := exists_position?_iff.mpr ⟨e', hmem, hends ▸ hlisted⟩
    rw [hnone] at hi
    cases hi
  rw [if_neg hnot] at hvectors
  refine ⟨?_, e', he, hnot, hvectors⟩
  rw [hvectors] at he'
  obtain ⟨hlt, hget⟩ := List.getElem?_eq_some_iff.mp he'
  by_contra hne
  rw [List.length_append, List.length_singleton] at hlt
  rw [List.getElem_append_left (by omega)] at hget
  exact hnot (hget ▸ List.getElem_mem _)

/-- The position that a vector was given is found. -/
theorem Sound.position?_add (hb : b.Sound H ∅) (hv : v.Known H) :
    (b.add v).2.position? v = some (b.add v).1 := by
  cases hi : b.position? v with
  | some i => rw [add_of_position? hi, hi]
  | none =>
      obtain ⟨hnext, e, he, hnot, hvectors⟩ := hb.add_of_position?_eq_none hv hi
      refine position?_eq_some_iff.mpr ⟨e, he, ?_⟩
      rw [find?, hvectors, hnext, List.idxOf?_eq_some_iff]
      refine ⟨by simp, by simp, fun j hj => ?_⟩
      rw [List.getElem_append_left hj]
      exact fun heq => hnot (heq ▸ List.getElem_mem hj)

/-! ### What a builder knows -/

/-- What a builder to which vectors were added knows of any vector. -/
structure Knows (vs : List (Vec α)) (b : Builder α) (v : Vec α) : Prop where
  /-- The keys of its root and its tail are known exactly if both are nodes of vectors added. -/
  ends : (∃ e, b.ends? v = some e) ↔ v.root.id ∈ Vec.ids vs ∧ v.tail.id ∈ Vec.ids vs
  /-- It has a position exactly if its root and its tail are those of one vector added. -/
  position : (∃ i, b.position? v = some i) ↔ ∃ u ∈ vs, u.ends = v.ends

/-- A builder with the nodes of some vectors knows their ends and their positions. -/
lemma Sound.knows (hb : b.Sound H ∅) (hdedups : b.Dedups vs) (v : Vec α) : b.Knows vs v where
  ends := exists_ends?_iff hdedups.met
  position := by
    rw [exists_position?_iff]
    constructor
    · rintro ⟨e, hmem, he⟩
      have hin := (List.rel_mem hb.biUnique_listed he hdedups.vectors).mp hmem
      exact List.mem_map.mp (List.mem_eraseDups.mp hin)
    · rintro ⟨u, hu, hends⟩
      have hin : v.ends ∈ (vs.map Vec.ends).eraseDups :=
        List.mem_eraseDups.mpr (List.mem_map.mpr ⟨u, hu, hends⟩)
      obtain ⟨n, hn, heq⟩ := List.mem_iff_getElem.mp hin
      have hlisted := hdedups.vectors.get (hdedups.vectors.length_eq ▸ hn) hn
      rw [List.get_eq_getElem, List.get_eq_getElem, heq] at hlisted
      exact ⟨_, List.getElem_mem _, hlisted⟩

/-! ### What is new -/

/-- What adding `c` does to a builder `b` to which `vs` were added: the position `i` is given, and
the builder becomes `b'`. -/
structure Addition (H : Heap α) (vs : List (Vec α)) (c : Vec α) (b : Builder α) (i : Nat)
    (b' : Builder α) : Prop where
  /-- Keys, entries and vectors stay. -/
  grows : b.Grows b'
  /-- New entries of inner nodes stand behind the others. -/
  inners : b.pool.inners.entries <+: b'.pool.inners.entries
  /-- New entries of leaves stand behind the others. -/
  leaves : b.pool.leaves.entries <+: b'.pool.leaves.entries
  /-- The position is an old one exactly if a vector with this root and this tail was added
  before. -/
  old : i < b.pool.vectors.length ↔ ∃ u ∈ vs, u.ends = c.ends
  /-- Such a vector has this position, and nothing changes. -/
  same : ∀ u ∈ vs, u.ends = c.ends → b.position? u = some i ∧ b' = b
  /-- Otherwise the position is the next one. -/
  next : (∀ u ∈ vs, u.ends ≠ c.ends) → i = b.pool.vectors.length ∧
    ∃ e, b'.Listed e c.ends ∧ b'.pool.vectors = b.pool.vectors ++ [e]
  /-- All nodes of the vector have entries now. -/
  entry : ∀ n ∈ c.nodes, ∃ k, b'.key? n.id = some k ∧ b'.Entered k n
  /-- The new entries are those of its nodes that were not met before, one for each of them. -/
  new : Set.BijOn b'.keyOf (Vec.ids [c] \ Vec.ids vs : Finset NodeId)
    {k | b'.pool.contains k = true ∧ b.pool.contains k = false}
  /-- So many entries of inner nodes are new, -/
  newInners : b'.pool.inners.size =
    b.pool.inners.size + (Vec.kindIds false [c] \ Vec.ids vs).card
  /-- and so many entries of leaves. -/
  newLeaves : b'.pool.leaves.size =
    b.pool.leaves.size + (Vec.kindIds true [c] \ Vec.ids vs).card
  /-- At any later time the vector has its position. -/
  position : ∀ us : List (Vec α), (∀ u ∈ us, u.Known H) →
    (b'.addAll us).2.position? c = some i
  /-- At any later time adding it again gives the same position and does nothing. -/
  again : ∀ us : List (Vec α), (∀ u ∈ us, u.Known H) →
    (b'.addAll us).2.add c = (i, (b'.addAll us).2)

/-- The keys of new entries are greater than all keys that were in use before. -/
lemma Dedups.entries_prefix (hb : b.Dedups vs) (hb' : b'.Dedups us) (hgrows : b.Grows b') :
    b.pool.inners.entries <+: b'.pool.inners.entries ∧
      b.pool.leaves.entries <+: b'.pool.leaves.entries := by
  have hinner : ∀ {k}, b.pool.inners.contains k = true → b'.pool.inners.contains k = true := by
    intro k hk
    obtain ⟨e, he⟩ := KeyMap.contains_iff.mp hk
    exact KeyMap.contains_iff.mpr ⟨e, hgrows.inners k e he⟩
  have hleaf : ∀ {k}, b.pool.leaves.contains k = true → b'.pool.leaves.contains k = true := by
    intro k hk
    obtain ⟨items, hitems⟩ := KeyMap.contains_iff.mp hk
    exact KeyMap.contains_iff.mpr ⟨items, hgrows.leaves k items hitems⟩
  have hold : ∀ k, k < b.pool.nodeCount →
      b.pool.inners.contains k = true ∨ b.pool.leaves.contains k = true := by
    intro k hk
    rw [← Bool.or_eq_true]
    exact (hb.used k).mpr hk
  constructor
  · refine hgrows.inners.entries_prefix b.pool.nodeCount (fun k e he => ?_) fun k e he hk => ?_
    · refine (hb.used k).mp ?_
      rw [Pool.contains, KeyMap.contains_iff.mpr ⟨e, he⟩, Bool.true_or]
    · -- a key that was in use before was that of an inner node
      obtain hin | hin := hold k hk
      · obtain ⟨e', he'⟩ := KeyMap.contains_iff.mp hin
        rw [he', ← hgrows.inners k e' he', he]
      · exact absurd ⟨KeyMap.contains_iff.mpr ⟨e, he⟩, hleaf hin⟩ (hb'.kinds k)
  · refine hgrows.leaves.entries_prefix b.pool.nodeCount (fun k items hitems => ?_)
      fun k items hitems hk => ?_
    · refine (hb.used k).mp ?_
      rw [Pool.contains, KeyMap.contains_iff.mpr ⟨items, hitems⟩, Bool.or_true]
    · obtain hin | hin := hold k hk
      · exact absurd ⟨hinner hin, KeyMap.contains_iff.mpr ⟨items, hitems⟩⟩ (hb'.kinds k)
      · obtain ⟨items', hitems'⟩ := KeyMap.contains_iff.mp hin
        rw [hitems', ← hgrows.leaves k items' hitems', hitems]

/-- The new entries are those of the nodes that are new. -/
lemma Dedups.bijOn_new {c : Vec α} (hb : b.Dedups vs) (hb' : b'.Dedups (vs ++ [c]))
    (hgrows : b.Grows b') :
    Set.BijOn b'.keyOf (Vec.ids [c] \ Vec.ids vs : Finset NodeId)
      {k | b'.pool.contains k = true ∧ b.pool.contains k = false} := by
  have hkey : ∀ {i}, i ∈ Vec.ids [c] \ Vec.ids vs → b'.key? i = some (b'.keyOf i) := by
    intro i hi
    refine Sound.key?_eq_keyOf (fun j hj => (hb'.met j).mpr hj) ?_
    rw [Vec.ids_append]
    exact Finset.mem_union_right _ (Finset.mem_sdiff.mp hi).1
  have hused : ∀ {k}, b.pool.contains k = true ↔ ∃ i, b.key? i = some k := by
    intro k
    rw [hb.used, hb.range]
  refine ⟨fun i hi => ⟨?_, ?_⟩, fun i hi j hj heq => ?_, fun k ⟨hnew, hold⟩ => ?_⟩
  · rw [hb'.used, ← hb'.range]
    exact ⟨i, hkey hi⟩
  · by_contra hin
    obtain ⟨j, hj⟩ := hused.mp (Bool.not_eq_false _ ▸ hin)
    obtain rfl := hb'.inj (hgrows.key? hj) (hkey hi)
    exact (Finset.mem_sdiff.mp hi).2 ((hb.met j).mp ⟨_, hj⟩)
  · exact hb'.inj (hkey hi) (heq ▸ hkey hj)
  · obtain ⟨i, hi⟩ := (hb'.range k).mpr ((hb'.used k).mp hnew)
    have hnot : i ∉ Vec.ids vs := by
      intro hmet
      obtain ⟨k', hk'⟩ := (hb.met i).mpr hmet
      obtain rfl := Option.some.inj ((hgrows.key? hk').symm.trans hi)
      rw [hused.mpr ⟨i, hk'⟩] at hold
      cases hold
    have hmem : i ∈ Vec.ids [c] \ Vec.ids vs := by
      have hin := (hb'.met i).mp ⟨k, hi⟩
      rw [Vec.ids_append, Finset.mem_union] at hin
      exact Finset.mem_sdiff.mpr ⟨hin.resolve_left hnot, hnot⟩
    exact ⟨i, hmem, Option.some.inj ((hkey hmem).symm.trans hi)⟩

/-- There are as many new entries of either kind as new nodes. -/
lemma Dedups.size_new {c : Vec α} (hb : b.Dedups vs) (hb' : b'.Dedups (vs ++ [c]))
    (hvs : ∀ v ∈ vs, v.Known H) (hc : c.Known H) :
    b'.pool.inners.size = b.pool.inners.size + (Vec.kindIds false [c] \ Vec.ids vs).card ∧
      b'.pool.leaves.size = b.pool.leaves.size + (Vec.kindIds true [c] \ Vec.ids vs).card := by
  have hsingle : ∀ u ∈ [c], u.Known H := by simpa using hc
  have hall : ∀ u ∈ vs ++ [c], u.Known H := List.forall_mem_append.mpr ⟨hvs, hsingle⟩
  have hold := hb.counts
  have hnew := hb'.counts
  rw [nodeCounts_eq hvs, NodeCounts.mk.injEq] at hold
  rw [nodeCounts_eq hall, NodeCounts.mk.injEq, Vec.card_kindIds_append, Vec.card_kindIds_append,
    hold.1, hold.2, Vec.kindIds_sdiff hvs hsingle, Vec.kindIds_sdiff hvs hsingle] at hnew
  exact ⟨hnew.1.symm, hnew.2.symm⟩

/-- A vector with the root and the tail of one that was added has its position, and adding it does
nothing. -/
lemma Knows.add_of_mem {c u : Vec α} (hknows : b.Knows vs c) (hu : u ∈ vs)
    (hends : u.ends = c.ends) :
    b.position? u = some (b.add c).1 ∧ (b.add c).2 = b := by
  obtain ⟨i, hi⟩ := hknows.position.mpr ⟨u, hu, hends⟩
  rw [position?_congr hends, add_of_position? hi]
  exact ⟨hi, rfl⟩

/-- A vector with another root or another tail than each of those that were added gets the next
position. -/
lemma Knows.add_of_not_mem {c : Vec α} (hknows : b.Knows vs c) (hb : b.Sound H ∅) (hc : c.Known H)
    (hnot : ∀ u ∈ vs, u.ends ≠ c.ends) :
    (b.add c).1 = b.pool.vectors.length ∧
      ∃ e, (b.add c).2.Listed e c.ends ∧ (b.add c).2.pool.vectors = b.pool.vectors ++ [e] := by
  have hnone : b.position? c = none := by
    rw [← Option.not_isSome_iff_eq_none, Option.isSome_iff_exists, hknows.position]
    rintro ⟨u, hu, hends⟩
    exact hnot u hu hends
  obtain ⟨hlen, e, he, -, hvectors⟩ := hb.add_of_position?_eq_none hc hnone
  exact ⟨hlen, e, he, hvectors⟩

/-- A builder to which any vectors were added, in any order, knows their nodes and their positions,
and adding a further vector only appends to it: a position if there is none for this root and this
tail, and entries for the nodes not met before. All that is assumed is that one identity is one
node. -/
theorem knows_and_addition (hvs : ∀ v ∈ vs, v.Known H) :
    (∀ w, ((empty s).addAll vs).2.Knows vs w) ∧
      ∀ c : Vec α, c.Known H → Addition H vs c ((empty s).addAll vs).2
        (((empty s).addAll vs).2.add c).1 (((empty s).addAll vs).2.add c).2 := by
  obtain ⟨hb, -, -⟩ := (Sound.empty (s := s)).addAll hvs
  have hdedups : ((empty s).addAll vs).2.Dedups vs := dedups_addAll hvs
  have hdedups' : ∀ c : Vec α, c.Known H →
      (((empty s).addAll vs).2.add c).2.Dedups (vs ++ [c]) := by
    intro c hc
    have hall : ∀ u ∈ vs ++ [c], u.Known H :=
      List.forall_mem_append.mpr ⟨hvs, by simpa using hc⟩
    have h := dedups_addAll (s := s) hall
    rwa [addAll_concat] at h
  set b := ((empty s).addAll vs).2
  have hknows := hb.knows hdedups
  refine ⟨hknows, fun c hc => ?_⟩
  obtain ⟨hb', hgrows, -⟩ := hb.add hc
  obtain ⟨hinners, hleaves⟩ := hdedups.entries_prefix (hdedups' c hc) hgrows
  obtain ⟨hnewInners, hnewLeaves⟩ := hdedups.size_new (hdedups' c hc) hvs hc
  have hsame : ∀ u ∈ vs, u.ends = c.ends → b.position? u = some (b.add c).1 ∧ (b.add c).2 = b :=
    fun u => (hknows c).add_of_mem
  have hnext := (hknows c).add_of_not_mem hb hc
  have hlater : ∀ us : List (Vec α), (∀ u ∈ us, u.Known H) →
      ((b.add c).2.addAll us).2.position? c = some (b.add c).1 := fun us hus =>
    (hb'.addAll hus).2.1.position? (hb.position?_add hc)
  exact {
    grows := hgrows
    inners := hinners
    leaves := hleaves
    old := by
      constructor
      · intro hlt
        by_contra hnot
        push Not at hnot
        exact absurd (hnext hnot).1 hlt.ne
      · rintro ⟨u, hu, hends⟩
        exact lt_of_position? (hsame u hu hends).1
    same := hsame
    next := hnext
    entry := fun n hn => (hdedups' c hc).entry c (by simp) n hn
    new := hdedups.bijOn_new (hdedups' c hc) hgrows
    newInners := hnewInners
    newLeaves := hnewLeaves
    position := hlater
    again := fun us hus => add_of_position? (hlater us hus) }

/-- A relaxed vector, and the one it has grown into: of the second one the new root, a node beside
the old root and the new tail are new. The old tail, a child of that node, has an entry already. -/
theorem knows_and_addition_grown :
    ∃ (H : Heap Bool) (b b' : Builder Bool), World.grownVec.Known H ∧
      (empty ⟨1, 1⟩).addAll [World.relaxedVec] = ([0], b) ∧ b.add World.grownVec = (1, b') ∧
      b.Knows [World.relaxedVec] World.grownVec ∧ b.position? World.grownVec = none ∧
      Addition H [World.relaxedVec] World.grownVec b 1 b' ∧
      b'.pool.vectors = [⟨0, 1⟩, ⟨4, 5⟩] ∧
      b.pool.inners.entries = [(0, ⟨[2, 3], true⟩)] ∧
      b'.pool.inners.entries = [(0, ⟨[2, 3], true⟩), (4, ⟨[0, 6], true⟩), (6, ⟨[1], false⟩)] ∧
      b'.pool.leaves.entries = b.pool.leaves.entries ++ [(5, [true])] := by
  have hs : Shape.Valid ⟨1, 1⟩ := by decide
  obtain ⟨l, hgrown⟩ := World.Reachable.grown
  obtain ⟨H, hw⟩ := hgrown.sound hs
  have hknown : ∀ v ∈ [World.relaxedVec], v.Known H :=
    fun v hv => hw.known v (List.mem_cons_of_mem _ hv)
  have hc : World.grownVec.Known H := hw.known _ List.mem_cons_self
  obtain ⟨hknows, haddition⟩ := knows_and_addition (s := ⟨1, 1⟩) hknown
  exact ⟨H, _, _, hc, rfl, rfl, hknows _, by decide, haddition _ hc, by decide, by decide,
    by decide, by decide⟩

end Builder

end RadixPool
