import Mathlib
import RadixPool.Pool.Document
import RadixPool.Proofs.Assoc
import RadixPool.Proofs.Pool.Check

/-!
Pools as documents: what is read is what was written.

* `insertNew_eq_ok_iff`: entries are entered if no key occurs twice.
* `KeyMap.perm_entries_ofList`, `KeyMap.get?_ofList`: a map made of entries with different keys.
* `PoolDraft.keys`, `PoolDraft.HasShape`, `PoolDraft.pool`: what is looked at in a draft, and its
  pool.
* `Pool.ofJson_eq_ok_iff`: a document is read as the pool of its draft.
* `Pool.ofJson_eq_ok`: a pool that was read has the expected shape, no key for two nodes, and passes
  the check.
* `Pool.ofJson_toJson`: such a pool is read back from its document if its keys are words.
-/

namespace RadixPool

variable {α β : Type}

/-! ### Entering keyed values -/

/-- Entries are entered exactly if no key among them occurs twice, is in use, or is taken. -/
lemma insertNew_eq_ok_iff {name : String} {taken : Key → Bool} {m m' : KeyMap β}
    {l : List (Key × β)} :
    insertNew name taken m l = .ok m' ↔
      (l.map Prod.fst).Nodup ∧ (∀ e ∈ l, taken e.1 = false ∧ m.get? e.1 = none) ∧
        m' = l.foldl (fun m e => m.insert e.1 e.2) m := by
  induction l generalizing m with
  | nil =>
      rw [insertNew, Except.ok.injEq, List.foldl_nil]
      exact ⟨fun h => ⟨List.nodup_nil, (fun _ he => nomatch he), h.symm⟩, fun h => h.2.2.symm⟩
  | cons e l ih =>
      obtain ⟨k, b⟩ := e
      rw [insertNew]
      split
      · next hin =>
        refine ⟨(fun h => nomatch h), ?_⟩
        rintro ⟨-, hfree, -⟩
        obtain ⟨htaken, hk⟩ := hfree (k, b) List.mem_cons_self
        rw [htaken, KeyMap.contains_eq_false_iff.mpr hk] at hin
        cases hin
      · next hin =>
        rw [Bool.not_eq_true, Bool.or_eq_false_iff, KeyMap.contains_eq_false_iff] at hin
        rw [ih, List.map_cons, List.nodup_cons, List.forall_mem_cons, List.foldl_cons]
        constructor
        · rintro ⟨hnd, hfree, hm⟩
          have hnotin : k ∉ l.map Prod.fst := by
            intro hmem
            obtain ⟨⟨_, b'⟩, he, rfl⟩ := List.mem_map.mp hmem
            have hk := (hfree _ he).2
            rw [KeyMap.get?_insert_self] at hk
            cases hk
          refine ⟨⟨hnotin, hnd⟩, ⟨hin, fun e he => ⟨(hfree e he).1, ?_⟩⟩, hm⟩
          have hk := (hfree e he).2
          rw [KeyMap.get?_insert] at hk
          split at hk
          · cases hk
          · exact hk
        · rintro ⟨⟨hnotin, hnd⟩, ⟨-, hfree⟩, hm⟩
          refine ⟨hnd, fun e he => ⟨(hfree e he).1, ?_⟩, hm⟩
          rw [KeyMap.get?_insert, if_neg, (hfree e he).2]
          rintro rfl
          exact hnotin (List.mem_map.mpr ⟨e, he, rfl⟩)

/-- Into the empty map entries are entered exactly if no key among them occurs twice or is taken. -/
lemma insertNew_empty_eq_ok_iff {name : String} {taken : Key → Bool} {l : List (Key × β)}
    {m : KeyMap β} : insertNew name taken ∅ l = .ok m ↔
      (l.map Prod.fst).Nodup ∧ (∀ x ∈ l, taken x.1 = false) ∧ m = .ofList l := by
  simp only [insertNew_eq_ok_iff, KeyMap.get?_empty, and_true, KeyMap.ofList]

namespace KeyMap

variable {l : List (Key × β)} {k : Key} {b : β}

/-- Different keys keep all of their entries. -/
lemma perm_entries_ofList (hnd : (l.map Prod.fst).Nodup) : (ofList l).entries.Perm l := by
  have hentries : ∀ (l : List (Key × β)) (m : KeyMap β),
      (l.foldl (fun m e => m.insert e.1 e.2) m).entries =
        l.foldl (fun m e => Assoc.insert e.1 e.2 m) m.entries := by
    intro l
    induction l with
    | nil => exact fun _ => rfl
    | cons e l ih => exact fun m => ih (m.insert e.1 e.2)
  have hperm := Assoc.perm_foldl_insert (m := ([] : List (Key × β))) hnd fun _ _ => rfl
  rw [List.append_nil] at hperm
  rw [ofList, hentries]
  exact hperm

/-- Entries with different keys make up a map. -/
lemma get?_ofList (hnd : (l.map Prod.fst).Nodup) : (ofList l).get? k = some b ↔ (k, b) ∈ l := by
  rw [← mem_entries_iff, (perm_entries_ofList hnd).mem_iff]

lemma contains_ofList (hnd : (l.map Prod.fst).Nodup) :
    (ofList l).contains k = true ↔ k ∈ l.map Prod.fst := by
  rw [contains_iff]
  simp only [get?_ofList hnd, List.mem_map, Prod.exists, exists_and_right, exists_eq_right]

/-- The entries of a map make up the map. -/
lemma ofList_entries (m : KeyMap β) : ofList m.entries = m := by
  refine ext_get? fun k => Option.ext fun b => ?_
  rw [get?_ofList m.keys_nodup, mem_entries_iff]

end KeyMap

/-! ### Reading -/

namespace PoolDraft

variable {name : String} {s : Shape} {d : PoolDraft α} {p : Pool α}

/-- The keys of the entries, those of the inner nodes before those of the leaves. -/
def keys (d : PoolDraft α) : List Key := d.inners.map Prod.fst ++ d.leaves.map Prod.fst

/-- Both parts of the shape are there, and are those of the expected one. -/
def HasShape (s : Shape) (d : PoolDraft α) : Prop :=
  d.bits = some s.bits ∧ d.leafBits = some s.leafBits

/-- The pool with the entries and the vectors of a draft. -/
def pool (s : Shape) (d : PoolDraft α) : Pool α :=
  ⟨s, .ofList d.inners, .ofList d.leaves, d.vectors⟩

/-- No key occurs twice if none occurs twice in either list and no leaf has the key of an inner
node. -/
lemma nodup_keys_iff : d.keys.Nodup ↔
    (d.inners.map Prod.fst).Nodup ∧ (d.leaves.map Prod.fst).Nodup ∧
    ∀ x ∈ d.leaves, (KeyMap.ofList d.inners).contains x.1 = false := by
  rw [keys, List.nodup_append]
  refine and_congr_right fun hnd => and_congr_right fun _ => ?_
  simp only [← Bool.not_eq_true, KeyMap.contains_ofList hnd]
  constructor
  · intro h x hx hmem
    exact h x.1 hmem x.1 (List.mem_map_of_mem hx) rfl
  · rintro h k hk k' hk' rfl
    obtain ⟨x, hx, rfl⟩ := List.mem_map.mp hk'
    exact h x hx hk

section Keys

variable (hnd : d.keys.Nodup)

include hnd

lemma nodup_inners : (d.inners.map Prod.fst).Nodup := (nodup_keys_iff.mp hnd).1

lemma nodup_leaves : (d.leaves.map Prod.fst).Nodup := (nodup_keys_iff.mp hnd).2.1

/-- The keys in use are those of the entries. -/
lemma contains_pool {k : Key} : (d.pool s).contains k = true ↔ k ∈ d.keys := by
  rw [Pool.contains, Bool.or_eq_true, keys, List.mem_append]
  exact or_congr (KeyMap.contains_ofList (nodup_inners hnd))
    (KeyMap.contains_ofList (nodup_leaves hnd))

/-- No key is that of a leaf and of an inner node. -/
lemma disjoint_pool : (d.pool s).Disjoint := by
  intro k items hk
  obtain ⟨-, hnd', hfree⟩ := nodup_keys_iff.mp hnd
  exact KeyMap.contains_eq_false_iff.mp (hfree _ ((KeyMap.get?_ofList hnd').mp hk))

end Keys

/-- A draft makes a pool if it has the expected shape, no key occurs twice, and the pool passes the
check. -/
lemma toPool_eq_ok_iff_check : d.toPool name s = .ok p ↔
    d.HasShape s ∧ d.keys.Nodup ∧ (d.pool s).check name = .ok () ∧ p = d.pool s := by
  rw [toPool, nodup_keys_iff]
  split
  case isFalse hshape => exact ⟨(fun h => nomatch h), fun h => absurd h.1 hshape⟩
  case isTrue hshape =>
    simp only [bind_eq_ok_iff, insertNew_empty_eq_ok_iff]
    constructor
    · rintro ⟨inners, ⟨hnd, -, rfl⟩, leaves, ⟨hnd', hfree, rfl⟩, ⟨⟩, hcheck, h⟩
      exact ⟨hshape, ⟨hnd, hnd', hfree⟩, hcheck, (Except.ok.inj h).symm⟩
    · rintro ⟨-, ⟨hnd, hnd', hfree⟩, hcheck, rfl⟩
      exact ⟨_, ⟨hnd, fun _ _ => trivial, rfl⟩, _, ⟨hnd', hfree, rfl⟩, (), hcheck, rfl⟩

end PoolDraft

namespace Pool

variable {read? : Json → Option α} {name : String} {s : Shape} {p : Pool α} {j : Json}

/-- A document is read as the pool of its draft. -/
lemma ofJson_eq_ok_iff : Pool.ofJson read? name s j = .ok p ↔
    ∃ d, PoolDraft.ofJson? read? j = some d ∧ d.HasShape s ∧ d.keys.Nodup ∧
      (d.pool s).check name = .ok () ∧ p = d.pool s := by
  rw [Pool.ofJson]
  split
  · next d hd => simp only [hd, Option.some.injEq, exists_eq_left',
      PoolDraft.toPool_eq_ok_iff_check]
  · next hd => simp [hd]

/-- A pool that was read from a document has the expected shape, no key for two nodes, and passes
the check. -/
theorem ofJson_eq_ok (hj : Pool.ofJson read? name s j = .ok p) :
    p.shape = s ∧ p.Disjoint ∧ p.Checked := by
  obtain ⟨d, -, -, hnd, hcheck, rfl⟩ := ofJson_eq_ok_iff.mp hj
  exact ⟨rfl, PoolDraft.disjoint_pool hnd, check_eq_ok_iff.mp hcheck⟩

end Pool

/-! ### Reading what was written -/

section RoundTrip

variable {read? : Json → Option α} {write : α → Json}

@[simp] lemma Json.natBelow?_nat {limit n : Nat} (hn : n < limit) :
    (Json.nat n).natBelow? limit = some n := if_pos hn

lemma Json.listOf?_arr_map {item? : Json → Option α} {xs : List α}
    (h : ∀ x ∈ xs, item? (write x) = some x) :
    (Json.arr (xs.map write)).listOf? item? = some xs := by
  rw [Json.listOf?]
  induction xs with
  | nil => rfl
  | cons x xs ih =>
      obtain ⟨hx, hxs⟩ := List.forall_mem_cons.mp h
      rw [List.map_cons, List.mapM_cons, hx, Option.bind_eq_bind, Option.bind_some, ih hxs]
      rfl

lemma keyOfJson?_nat {k : Key} (hk : k < Word.count) : keyOfJson? (.nat k) = some k :=
  Json.natBelow?_nat hk

lemma keyedOfJson?_keyedJson {value? : Json → Option β} {k : Key} (hk : k < Word.count) {j : Json}
    {b : β} (hj : value? j = some b) : keyedOfJson? value? (keyedJson k j) = some (k, b) := by
  simp [keyedOfJson?, keyedJson, Json.fields?, Assoc.get?, keyOfJson?_nat hk, hj]

lemma PooledBranch.ofJson?_toJson {e : PooledBranch} (he : ∀ c ∈ e.children, c < Word.count) :
    PooledBranch.ofJson? e.toJson = some e := by
  have hcs : (Json.arr (e.children.map .nat)).listOf? keyOfJson? = some e.children :=
    Json.listOf?_arr_map fun c hc => keyOfJson?_nat (he c hc)
  simp [PooledBranch.ofJson?, PooledBranch.toJson, Json.fields?, Assoc.get?, hcs, Json.bool?]

lemma PooledVec.ofJson?_toJson {v : PooledVec} (hroot : v.root < Word.count)
    (htail : v.tail < Word.count) : PooledVec.ofJson? v.toJson = some v := by
  simp [PooledVec.ofJson?, PooledVec.toJson, Json.fields?, Assoc.get?, keyOfJson?_nat hroot,
    keyOfJson?_nat htail]

lemma bitsOfJson?_nat {n : Nat} (hn : n < Word.width) :
    bitsOfJson? (some (.nat n)) = some (some n) := by
  have hlt : n < Shape.partLimit := hn.trans (by decide)
  rw [bitsOfJson?]
  · rw [Json.natBelow?_nat hlt]
    rfl
  · intro h
    cases h

/-- The document of a pool, its entries taken apart by projections. -/
lemma Pool.toJson_eq (p : Pool α) : p.toJson write = .obj [
    ("B", .nat p.shape.bits),
    ("BL", .nat p.shape.leafBits),
    ("inners", .arr (p.inners.entries.map fun e => keyedJson e.1 e.2.toJson)),
    ("leaves", .arr (p.leaves.entries.map fun e => keyedJson e.1 (.arr (e.2.map write)))),
    ("vectors", .arr (p.vectors.map PooledVec.toJson))] := rfl

/-- The draft of a written pool lists its entries. -/
lemma PoolDraft.ofJson?_toJson {p : Pool α} (hs : p.shape.Valid) (hc : p.Checked)
    (hk : ∀ k, p.contains k = true → k < Word.count)
    (hrw : ∀ {k items}, p.leaves.get? k = some items → ∀ x ∈ items, read? (write x) = some x) :
    PoolDraft.ofJson? read? (p.toJson write) =
      some ⟨some p.shape.bits, some p.shape.leafBits, p.inners.entries, p.leaves.entries,
        p.vectors⟩ := by
  have hinners : (Json.arr (p.inners.entries.map fun e => keyedJson e.1 e.2.toJson)).listOf?
      (keyedOfJson? PooledBranch.ofJson?) = some p.inners.entries := by
    refine Json.listOf?_arr_map fun e he => ?_
    obtain ⟨k, e⟩ := e
    have he := KeyMap.mem_entries_iff.mp he
    exact keyedOfJson?_keyedJson (hk k (Pool.contains_iff.mpr (.inl ⟨e, he⟩)))
      (PooledBranch.ofJson?_toJson fun c hcm => hk c (hc.child he hcm))
  have hleaves : (Json.arr (p.leaves.entries.map fun e =>
      keyedJson e.1 (.arr (e.2.map write)))).listOf?
      (keyedOfJson? fun j => j.listOf? read?) = some p.leaves.entries := by
    refine Json.listOf?_arr_map fun e he => ?_
    obtain ⟨k, items⟩ := e
    have he := KeyMap.mem_entries_iff.mp he
    exact keyedOfJson?_keyedJson (hk k (Pool.contains_iff.mpr (.inr ⟨items, he⟩)))
      (Json.listOf?_arr_map (hrw he))
  have hvectors : (Json.arr (p.vectors.map PooledVec.toJson)).listOf? PooledVec.ofJson? =
      some p.vectors :=
    Json.listOf?_arr_map fun v hv =>
      PooledVec.ofJson?_toJson (hk _ (hc.root hv)) (hk _ (hc.tail hv))
  simp [PoolDraft.ofJson?, Pool.toJson_eq, Json.fields?, Assoc.get?, bitsOfJson?_nat hs.bits_lt,
    bitsOfJson?_nat hs.leafBits_lt, hinners, hleaves, hvectors]

/-- A pool that passes the check, has no key for two nodes and has words for keys is read back from
its document if its elements are. -/
theorem Pool.ofJson_toJson {name : String} {p : Pool α} (hs : p.shape.Valid) (hc : p.Checked)
    (hd : p.Disjoint) (hk : ∀ k, p.contains k = true → k < Word.count)
    (hrw : ∀ {k items}, p.leaves.get? k = some items → ∀ x ∈ items, read? (write x) = some x) :
    Pool.ofJson read? name p.shape (p.toJson write) = .ok p := by
  have hcheck : p.check name = .ok () := Pool.check_eq_ok_iff.mpr hc
  have hinners : KeyMap.ofList p.inners.entries = p.inners := KeyMap.ofList_entries _
  have hleaves : KeyMap.ofList p.leaves.entries = p.leaves := KeyMap.ofList_entries _
  refine Pool.ofJson_eq_ok_iff.mpr ⟨_, PoolDraft.ofJson?_toJson hs hc hk hrw,
    ⟨rfl, rfl⟩, ?_, ?_, ?_⟩
  · refine PoolDraft.nodup_keys_iff.mpr ⟨p.inners.keys_nodup, p.leaves.keys_nodup, fun x hx => ?_⟩
    rw [hinners, KeyMap.contains_eq_false_iff]
    exact hd (KeyMap.mem_entries_iff.mp hx)
  · rwa [PoolDraft.pool, hinners, hleaves]
  · rw [PoolDraft.pool, hinners, hleaves]

end RoundTrip

end RadixPool
