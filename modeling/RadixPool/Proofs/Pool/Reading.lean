import Mathlib
import RadixPool.Proofs.Pool.Document

/-!
What is read from the document of a pool.

A pool that is read has words for keys, whatever the document. And a document that was written for a
pool is read as this pool, or not at all.

* `Json.lt_of_natBelow?`, `Json.forall₂_of_listOf?`: what numbers and arrays are read as.
* `PoolDraft.ofJson?_eq_some`: the parts of a document.
* `Pool.lt_of_ofJson`: the keys of a pool that was read.
* `Pool.eq_of_ofJson_toJson`: the pool that is read from a written one.
-/

namespace RadixPool

variable {α β : Type}

/-! ### Numbers and arrays -/

namespace Json

variable {j : Json} {limit n m : Nat}

lemma lt_of_natBelow? (h : j.natBelow? limit = some n) : n < limit := by
  cases j with
  | int i =>
      cases i with
      | ofNat k =>
          rw [natBelow?] at h
          split at h
          · next hlt =>
            rwa [← Option.some.inj h]
          · cases h
      | negSucc k => cases h
  | _ => cases h

lemma eq_of_natBelow?_nat (h : (Json.nat n).natBelow? limit = some m) : m = n := by
  have hif : (if n < limit then some n else none) = some m := h
  split at hif
  · exact (Option.some.inj hif).symm
  · cases hif

variable {item? : Json → Option β}

/-- An array is read item by item. -/
lemma forall₂_of_listOf? {xs : List β} (h : j.listOf? item? = some xs) :
    ∃ items, j = .arr items ∧ List.Forall₂ (fun i x => item? i = some x) items xs := by
  cases j with
  | arr items =>
      refine ⟨items, rfl, ?_⟩
      have hmap : items.mapM item? = some xs := h
      clear h
      induction items generalizing xs with
      | nil =>
          obtain rfl : [] = xs := Option.some.inj hmap
          exact .nil
      | cons i items ih =>
          rw [List.mapM_cons, Option.bind_eq_bind, Option.bind_eq_some_iff] at hmap
          obtain ⟨x, hx, hrest⟩ := hmap
          obtain ⟨xs', hxs, hret⟩ := Option.bind_eq_some_iff.mp hrest
          obtain rfl : x :: xs' = xs := Option.some.inj hret
          exact .cons hx (ih hxs)
  | _ => cases h

/-- Whatever is read from an array comes from one of its items. -/
lemma exists_of_mem_listOf? {xs : List β} (h : j.listOf? item? = some xs) {x : β} (hx : x ∈ xs) :
    ∃ i, item? i = some x := by
  obtain ⟨items, -, hall⟩ := forall₂_of_listOf? h
  obtain ⟨n, hn, rfl⟩ := List.mem_iff_getElem.mp hx
  exact ⟨_, hall.get (hall.length_eq ▸ hn) hn⟩

/-- A written list is read as it was, if this is so for each of its items. -/
lemma eq_of_listOf?_map {write : β → Json} {xs ys : List β}
    (h : ∀ x ∈ xs, ∀ y, item? (write x) = some y → y = x)
    (hys : (Json.arr (xs.map write)).listOf? item? = some ys) : ys = xs := by
  obtain ⟨items, hitems, hall⟩ := forall₂_of_listOf? hys
  obtain rfl := Json.arr.inj hitems
  rw [List.forall₂_map_left_iff] at hall
  rw [← List.forall₂_eq_eq_eq]
  refine List.Forall₂.flip (List.forall₂_iff_zip.mpr ⟨hall.length_eq, fun {x y} hmem => ?_⟩)
  exact h x (List.of_mem_zip hmem).1 y ((List.forall₂_iff_zip.mp hall).2 hmem)

end Json

/-! ### Entries -/

section Entries

variable {value? : Json → Option β} {k : Key} {b : β}

lemma keyedOfJson?_eq_some {j : Json} (h : keyedOfJson? value? j = some (k, b)) :
    ∃ key value, j.fields? ["key", "value"] = some [some key, some value] ∧
      keyOfJson? key = some k ∧ value? value = some b := by
  rw [keyedOfJson?] at h
  obtain ⟨parts, hparts, h⟩ := Option.bind_eq_some_iff.mp h
  split at h
  · next key value =>
    obtain ⟨k', hk, h⟩ := Option.bind_eq_some_iff.mp h
    obtain ⟨b', hb, h⟩ := Option.bind_eq_some_iff.mp h
    cases h
    exact ⟨key, value, hparts, hk, hb⟩
  · cases h

/-- A written entry is read under its key. -/
lemma eq_of_keyedOfJson?_keyedJson {k' : Key} {j : Json}
    (h : keyedOfJson? value? (keyedJson k j) = some (k', b)) : k' = k ∧ value? j = some b := by
  obtain ⟨key, value, hparts, hk, hb⟩ := keyedOfJson?_eq_some h
  simp only [keyedJson, Json.fields?, Assoc.get?, List.map_cons, List.map_nil, Option.some.injEq,
    List.cons.injEq, if_true, and_true] at hparts
  obtain ⟨rfl, hvalue⟩ := hparts
  simp only [String.reduceEq, if_false, Option.some.injEq] at hvalue
  subst hvalue
  exact ⟨Json.eq_of_natBelow?_nat hk, hb⟩

lemma PooledBranch.eq_of_ofJson?_toJson {e e' : PooledBranch}
    (h : PooledBranch.ofJson? e.toJson = some e') : e' = e := by
  simp only [PooledBranch.ofJson?, PooledBranch.toJson, Json.fields?, Assoc.get?, List.map_cons,
    List.map_nil, if_true, String.reduceEq, if_false, Option.bind_eq_bind, Option.bind_some,
    Json.bool?] at h
  obtain ⟨cs, hcs, h⟩ := Option.bind_eq_some_iff.mp h
  have hchildren : cs = e.children :=
    Json.eq_of_listOf?_map (fun k _ k' hk => Json.eq_of_natBelow?_nat hk) hcs
  cases h
  rw [hchildren]

lemma PooledVec.eq_of_ofJson?_toJson {v v' : PooledVec}
    (h : PooledVec.ofJson? v.toJson = some v') : v' = v := by
  simp only [PooledVec.ofJson?, PooledVec.toJson, Json.fields?, Assoc.get?, List.map_cons,
    List.map_nil, if_true, String.reduceEq, if_false, Option.bind_eq_bind, Option.bind_some] at h
  obtain ⟨root, hroot, h⟩ := Option.bind_eq_some_iff.mp h
  obtain ⟨tail, htail, h⟩ := Option.bind_eq_some_iff.mp h
  cases h
  rw [Json.eq_of_natBelow?_nat hroot, Json.eq_of_natBelow?_nat htail]

end Entries

/-! ### Drafts -/

section Drafts

variable {read? : Json → Option α} {write : α → Json} {name : String} {s : Shape} {p q : Pool α}
  {j : Json}

/-- The parts of a document of a pool. -/
lemma PoolDraft.ofJson?_eq_some {d : PoolDraft α} (h : PoolDraft.ofJson? read? j = some d) :
    ∃ bits leafBits inners leaves vectors,
      j.fields? ["B", "BL", "inners", "leaves", "vectors"] =
        some [bits, leafBits, some inners, some leaves, some vectors] ∧
      inners.listOf? (keyedOfJson? PooledBranch.ofJson?) = some d.inners ∧
      leaves.listOf? (keyedOfJson? fun j => j.listOf? read?) = some d.leaves ∧
      vectors.listOf? PooledVec.ofJson? = some d.vectors := by
  rw [PoolDraft.ofJson?] at h
  obtain ⟨parts, hparts, h⟩ := Option.bind_eq_some_iff.mp h
  split at h
  · next bits leafBits inners leaves vectors =>
    obtain ⟨_, -, h⟩ := Option.bind_eq_some_iff.mp h
    obtain ⟨_, -, h⟩ := Option.bind_eq_some_iff.mp h
    obtain ⟨_, hinners, h⟩ := Option.bind_eq_some_iff.mp h
    obtain ⟨_, hleaves, h⟩ := Option.bind_eq_some_iff.mp h
    obtain ⟨_, hvectors, h⟩ := Option.bind_eq_some_iff.mp h
    cases h
    exact ⟨bits, leafBits, inners, leaves, vectors, hparts, hinners, hleaves, hvectors⟩
  · cases h

/-- The keys of a pool that was read are words. -/
theorem Pool.lt_of_ofJson (h : Pool.ofJson read? name s j = .ok p) {k : Key}
    (hk : p.contains k = true) : k < Word.count := by
  obtain ⟨d, hd, -, hnd, -, rfl⟩ := Pool.ofJson_eq_ok_iff.mp h
  obtain ⟨_, _, inners, leaves, _, -, hinners?, hleaves?, -⟩ := PoolDraft.ofJson?_eq_some hd
  have hkey : ∀ {γ : Type} {value? : Json → Option γ} {i : Json} {b : γ},
      keyedOfJson? value? i = some (k, b) → k < Word.count := by
    intro γ value? i b hi
    obtain ⟨_, _, -, hkey, -⟩ := keyedOfJson?_eq_some hi
    exact Json.lt_of_natBelow? hkey
  rcases List.mem_append.mp ((PoolDraft.contains_pool hnd).mp hk) with hk | hk
  · obtain ⟨⟨_, e⟩, he, rfl⟩ := List.mem_map.mp hk
    obtain ⟨i, hi⟩ := Json.exists_of_mem_listOf? hinners? he
    exact hkey hi
  · obtain ⟨⟨_, items⟩, hitems, rfl⟩ := List.mem_map.mp hk
    obtain ⟨i, hi⟩ := Json.exists_of_mem_listOf? hleaves? hitems
    exact hkey hi

/-- The document of a pool is read as the pool, if it is read and its elements are as they were
written. -/
theorem Pool.eq_of_ofJson_toJson (hshape : p.shape = s)
    (hrw : ∀ {k items}, p.leaves.get? k = some items → ∀ x ∈ items, read? (write x) = some x)
    (hq : Pool.ofJson read? name s (p.toJson write) = .ok q) : q = p := by
  obtain ⟨d, hd, -, -, -, rfl⟩ := Pool.ofJson_eq_ok_iff.mp hq
  obtain ⟨_, _, inners, leaves, vectors, hparts, hinners?, hleaves?, hvectors?⟩ :=
    PoolDraft.ofJson?_eq_some hd
  simp only [Pool.toJson_eq, Json.fields?, Assoc.get?, List.map_cons, List.map_nil, String.reduceEq,
    if_true, if_false, Option.some.injEq, List.cons.injEq, and_true] at hparts
  obtain ⟨-, -, rfl, rfl, rfl⟩ := hparts
  have hinnersEq : d.inners = p.inners.entries := by
    refine Json.eq_of_listOf?_map (fun e _ e' he => ?_) hinners?
    obtain ⟨k, e⟩ := e
    obtain ⟨k', e'⟩ := e'
    obtain ⟨rfl, hvalue⟩ := eq_of_keyedOfJson?_keyedJson he
    rw [PooledBranch.eq_of_ofJson?_toJson hvalue]
  have hleavesEq : d.leaves = p.leaves.entries := by
    refine Json.eq_of_listOf?_map (fun e he e' heq => ?_) hleaves?
    obtain ⟨k, items⟩ := e
    obtain ⟨k', items'⟩ := e'
    obtain ⟨rfl, hvalue⟩ := eq_of_keyedOfJson?_keyedJson heq
    have hread : ∀ x ∈ items, ∀ y, read? (write x) = some y → y = x := by
      intro x hx y hy
      have hxs := hrw (KeyMap.mem_entries_iff.mp he) x hx
      exact Option.some.inj (hy.symm.trans hxs)
    rw [Json.eq_of_listOf?_map hread hvalue]
  have hvectorsEq : d.vectors = p.vectors :=
    Json.eq_of_listOf?_map (fun _ _ _ hv => PooledVec.eq_of_ofJson?_toJson hv) hvectors?
  rw [PoolDraft.pool, hinnersEq, hleavesEq, hvectorsEq, KeyMap.ofList_entries,
    KeyMap.ofList_entries, ← hshape]

end Drafts

end RadixPool
