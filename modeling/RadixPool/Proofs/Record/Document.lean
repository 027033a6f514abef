import Mathlib
import RadixPool.Proofs.Computation
import RadixPool.Proofs.LoaderSet
import RadixPool.Record.Document

/-!
Records as documents: what is read is what was written.

Writing a record adds its containers to a pool set and puts their positions into the document. A
position stays good while further containers are added, so in the end every position in the document
denotes the container it was written for, and reading loads copies of all of them.

* `Schema.Distinct`, `Schema.RoundTrips`: keys differ within each record, and plain values and
  elements are read as they were written.
* `Schema.map`: a value with its containers copied.
* `Schema.Denotes`: a document stands for a value.
* `Schema.Mirrors`: two values agree but for their containers, which are in a relation.
* `Schema.encode_eq_ok`: what is written denotes the value.
* `Schema.decode_eq_ok`: from such a document a value is read that mirrors the one written.
-/

namespace RadixPool

variable [TypeFamily]

/-- The value is read as it was written. -/
def TypeFamily.Kind.RoundTrips (t : TypeFamily.Kind) (x : t.Value) : Prop :=
  t.ofJson? (t.toJson x) = some x

namespace Schema

/-! ### Descriptions and values -/

mutual

/-- Within each record the keys of the fields differ. -/
def Distinct : Schema → Prop
  | .container _ | .value _ => True
  | .record _ fields => DistinctAll fields

/-- The keys of some fields differ, and so they do within each of these. -/
def DistinctAll : List (FieldName × Schema) → Prop
  | [] => True
  | (f, s) :: fields => f.key ∉ fields.map (fun g => g.1.key) ∧ Distinct s ∧ DistinctAll fields

end

mutual

/-- Plain values, and the elements of containers, are read as they were written. -/
def RoundTrips : (s : Schema) → s.Value → Prop
  | .container C, v => ∀ x ∈ v.toList, C.elem.RoundTrips x
  | .value t, x => t.RoundTrips x
  | .record _ fields, vs => RoundTripsAll fields vs

/-- The same for some values. -/
def RoundTripsAll : (fields : List (FieldName × Schema)) → Values fields → Prop
  | [], _ => True
  | (_, s) :: fields, (v, vs) => RoundTrips s v ∧ RoundTripsAll fields vs

end

mutual

/-- A copy of a value, the identities in containers of type `C` sent through `f C`. -/
def map (f : ContainerType → NodeId → NodeId) : (s : Schema) → s.Value → s.Value
  | .container C, v => Vec.map (f C) id v
  | .value _, x => x
  | .record _ fields, vs => mapAll f fields vs

/-- Copies of some values. -/
def mapAll (f : ContainerType → NodeId → NodeId) :
    (fields : List (FieldName × Schema)) → Values fields → Values fields
  | [], vs => vs
  | (_, s) :: fields, (v, vs) => (map f s v, mapAll f fields vs)

end

mutual

/-- A document stands for a value; `D C v i` says that position `i` denotes the container `v`. -/
def Denotes (D : (C : ContainerType) → Vec C.Elem → Nat → Prop) :
    (s : Schema) → s.Value → Json → Prop
  | .container C, v, j => ∃ i, j = .nat i ∧ D C v i
  | .value t, x, j => j = t.toJson x
  | .record _ fields, vs, j => ∃ members, j = .obj members ∧ DenotesAll D fields vs members

/-- The members of an object stand for some values. -/
def DenotesAll (D : (C : ContainerType) → Vec C.Elem → Nat → Prop) :
    (fields : List (FieldName × Schema)) → Values fields → List (String × Json) → Prop
  | [], _, _ => True
  | (f, s) :: fields, (v, vs), members =>
    (∃ j, Assoc.get? f.key members = some j ∧ Denotes D s v j) ∧ DenotesAll D fields vs members

end

mutual

/-- Two values agree but for their containers, which are in a relation. -/
def Mirrors (M : (C : ContainerType) → Vec C.Elem → Vec C.Elem → Prop) :
    (s : Schema) → s.Value → s.Value → Prop
  | .container C, v, u => M C v u
  | .value _, x, y => y = x
  | .record _ fields, vs, us => MirrorsAll M fields vs us

/-- Some values agree but for their containers. -/
def MirrorsAll (M : (C : ContainerType) → Vec C.Elem → Vec C.Elem → Prop) :
    (fields : List (FieldName × Schema)) → Values fields → Values fields → Prop
  | [], _, _ => True
  | (_, s) :: fields, (v, vs), (u, us) => Mirrors M s v u ∧ MirrorsAll M fields vs us

end

mutual

/-- The elements of all containers are read as they were written. -/
theorem RoundTrips.elem : (s : Schema) → {v : s.Value} → RoundTrips s v →
    ∀ c ∈ containers s v, ∀ x ∈ c.2.toList, c.1.elem.RoundTrips x
  | .container C, v, hrw, c, hc => by
      rw [containers, List.mem_singleton] at hc
      rw [hc]
      exact hrw
  | .value _, _, _, c, hc => by
      rw [containers] at hc
      cases hc
  | .record _ fields, vs, hrw, c, hc => by
      rw [containers] at hc
      exact RoundTripsAll.elem fields hrw c hc

/-- The same for some values. -/
theorem RoundTripsAll.elem : (fields : List (FieldName × Schema)) → {vs : Values fields} →
    RoundTripsAll fields vs → ∀ c ∈ containersAll fields vs, ∀ x ∈ c.2.toList, c.1.elem.RoundTrips x
  | [], _, _, c, hc => nomatch hc
  | (_, s) :: fields, (v, vs), hrw, c, hc => by
      rw [containersAll, List.mem_append] at hc
      rcases hc with hc | hc
      · exact RoundTrips.elem s hrw.1 c hc
      · exact RoundTripsAll.elem fields hrw.2 c hc

end

lemma DistinctAll.nodup {fields : List (FieldName × Schema)} (h : DistinctAll fields) :
    (fields.map fun f => f.1.key).Nodup := by
  induction fields with
  | nil => exact List.nodup_nil
  | cons f fields ih =>
      obtain ⟨f, s⟩ := f
      rw [DistinctAll] at h
      exact List.nodup_cons.mpr ⟨h.1, ih h.2.2⟩

section Relations

variable {D D' : (C : ContainerType) → Vec C.Elem → Nat → Prop}
  {M M' : (C : ContainerType) → Vec C.Elem → Vec C.Elem → Prop}

mutual

/-- What a document stands for does not change while positions keep their meaning. -/
theorem Denotes.imp (h : ∀ {C v i}, D C v i → D' C v i) :
    (s : Schema) → {v : s.Value} → {j : Json} → Denotes D s v j → Denotes D' s v j
  | .container C, v, j, hj => by
      obtain ⟨i, rfl, hi⟩ := hj
      exact ⟨i, rfl, h hi⟩
  | .value t, x, j, hj => hj
  | .record _ fields, vs, j, hj => by
      obtain ⟨members, rfl, hall⟩ := hj
      exact ⟨members, rfl, DenotesAll.imp h fields hall⟩

/-- The same for the members of an object. -/
theorem DenotesAll.imp (h : ∀ {C v i}, D C v i → D' C v i) :
    (fields : List (FieldName × Schema)) → {vs : Values fields} → {members : List (String × Json)} →
      DenotesAll D fields vs members → DenotesAll D' fields vs members
  | [], _, _, _ => trivial
  | (f, s) :: fields, (v, vs), members, hall => by
      obtain ⟨⟨j, hj, hs⟩, hrest⟩ := hall
      exact ⟨⟨j, hj, Denotes.imp h s hs⟩, DenotesAll.imp h fields hrest⟩

end

mutual

/-- Values still mirror each other in a weaker relation. -/
theorem Mirrors.imp (h : ∀ {C v u}, M C v u → M' C v u) :
    (s : Schema) → {v u : s.Value} → Mirrors M s v u → Mirrors M' s v u
  | .container _, _, _, hm => h hm
  | .value _, _, _, hm => hm
  | .record _ fields, _, _, hm => MirrorsAll.imp h fields hm

/-- The same for some values. -/
theorem MirrorsAll.imp (h : ∀ {C v u}, M C v u → M' C v u) :
    (fields : List (FieldName × Schema)) → {vs us : Values fields} →
      MirrorsAll M fields vs us → MirrorsAll M' fields vs us
  | [], _, _, _ => trivial
  | (_, s) :: fields, (_, _), (_, _), hm => ⟨Mirrors.imp h s hm.1, MirrorsAll.imp h fields hm.2⟩

end

mutual

/-- A value that mirrors another one with copies for containers is a copy. -/
theorem Mirrors.eq_map {f : ContainerType → NodeId → NodeId} :
    (s : Schema) → {v u : s.Value} →
      (∀ c ∈ containers s v, ∀ u, M c.1 c.2 u → u = c.2.map (f c.1) id) → Mirrors M s v u →
      u = map f s v
  | .container C, v, u, h, hm => by
      rw [map]
      exact h ⟨C, v⟩ (by rw [containers]; exact List.mem_singleton_self _) u hm
  | .value _, _, _, _, hm => by
      rw [map]
      exact hm
  | .record _ fields, vs, us, h, hm => by
      rw [map]
      exact MirrorsAll.eq_map fields (by rw [containers] at h; exact h) hm

/-- The same for some values. -/
theorem MirrorsAll.eq_map {f : ContainerType → NodeId → NodeId} :
    (fields : List (FieldName × Schema)) → {vs us : Values fields} →
      (∀ c ∈ containersAll fields vs, ∀ u, M c.1 c.2 u → u = c.2.map (f c.1) id) →
      MirrorsAll M fields vs us → us = mapAll f fields vs
  | [], _, _, _, _ => rfl
  | (_, s) :: fields, (v, vs), (u, us), h, hm => by
      rw [containersAll] at h
      have hu : u = map f s v :=
        Mirrors.eq_map s (fun c hc => h c (List.mem_append_left _ hc)) hm.1
      have hus : us = mapAll f fields vs :=
        MirrorsAll.eq_map fields (fun c hc => h c (List.mem_append_right _ hc)) hm.2
      rw [mapAll, hu, hus]

end

end Relations

/-! ### Writing -/

section Writing

variable {H : (C : ContainerType) → Heap C.Elem} {S S' : PoolSet}

/-- A container that is added stands at the position given. -/
lemma add_eq_ok (hS : S.Sound H) {C : ContainerType} {v : Vec C.Elem} (hv : v.Known (H C)) {i : Nat}
    (hadd : Saving.add C v S = (.ok i, S')) : S'.Sound H ∧ S.Grows S' 1 ∧ S'.Holds C v i := by
  rw [Saving.add] at hadd
  split at hadd
  · next hok =>
    cases hadd
    exact hS.add hv hok
  · cases hadd

mutual

/-- What is written denotes the value, also after all that is added later. -/
theorem encode_eq_ok : (s : Schema) → s.Distinct → {v : s.Value} →
    (∀ c ∈ containers s v, c.2.Known (H c.1)) → {S S' : PoolSet} → S.Sound H → {j : Json} →
    encode s v S = (.ok j, S') →
      S'.Sound H ∧ S.Grows S' (containers s v).length ∧ Denotes S'.Holds s v j
  | .container C, _, v, hk, S, S', hS, j, h => by
      rw [encode] at h
      obtain ⟨i, S₁, hadd, hret⟩ := run_bind_eq_ok_iff.mp h
      cases hret
      have hv : v.Known (H C) := hk ⟨C, v⟩ (by rw [containers]; exact List.mem_singleton_self _)
      obtain ⟨hsound, hgrows, hholds⟩ := add_eq_ok hS hv hadd
      rw [containers]
      exact ⟨hsound, hgrows, i, rfl, hholds⟩
  | .value t, _, x, _, S, S', hS, j, h => by
      rw [encode] at h
      cases h
      rw [containers]
      exact ⟨hS, .refl S, rfl⟩
  | .record _ fields, hdist, vs, hk, S, S', hS, j, h => by
      rw [encode] at h
      rw [Distinct] at hdist
      rw [containers] at hk ⊢
      obtain ⟨ms, S₁, hms, hret⟩ := run_bind_eq_ok_iff.mp h
      cases hret
      obtain ⟨hsound, hgrows, hkeys, hall⟩ := encodeAll_eq_ok fields hdist hk hS hms
      refine ⟨hsound, hgrows, _, rfl, hall _ fun e he => ?_⟩
      exact Assoc.get?_foldl_insert (hkeys ▸ hdist.nodup) he

/-- The same for some values: any members that agree with those written denote them. -/
theorem encodeAll_eq_ok : (fields : List (FieldName × Schema)) → DistinctAll fields →
    {vs : Values fields} → (∀ c ∈ containersAll fields vs, c.2.Known (H c.1)) →
    {S S' : PoolSet} → S.Sound H → {ms : List (String × Json)} →
    encodeAll fields vs S = (.ok ms, S') →
      S'.Sound H ∧ S.Grows S' (containersAll fields vs).length ∧
        ms.map Prod.fst = fields.map (fun f => f.1.key) ∧
        ∀ members, (∀ e ∈ ms, Assoc.get? e.1 members = some e.2) →
          DenotesAll S'.Holds fields vs members
  | [], _, vs, _, S, S', hS, ms, h => by
      rw [encodeAll] at h
      cases h
      rw [containersAll]
      exact ⟨hS, .refl S, rfl, fun _ _ => trivial⟩
  | (f, s) :: fields, hdist, (v, vs), hk, S, S', hS, ms, h => by
      rw [encodeAll] at h
      rw [DistinctAll] at hdist
      rw [containersAll] at hk ⊢
      obtain ⟨j, S₁, hj, hrest⟩ := run_bind_eq_ok_iff.mp h
      obtain ⟨ms', S₂, hms, hret⟩ := run_bind_eq_ok_iff.mp hrest
      cases hret
      obtain ⟨hsound, hgrows, hdenotes⟩ :=
        encode_eq_ok s hdist.2.1 (fun c hc => hk c (List.mem_append_left _ hc)) hS hj
      obtain ⟨hsound', hgrows', hkeys, hall⟩ :=
        encodeAll_eq_ok fields hdist.2.2 (fun c hc => hk c (List.mem_append_right _ hc)) hsound hms
      refine ⟨hsound', ?_, by rw [List.map_cons, List.map_cons, hkeys], fun members hmem => ?_⟩
      · rw [List.length_append]
        exact hgrows.trans hgrows'
      · obtain ⟨hhead, htail⟩ := List.forall_mem_cons.mp hmem
        -- the first value was written before the others were added
        exact ⟨⟨j, hhead, hdenotes.imp (fun hi => hi.mono hgrows') s⟩, hall members htail⟩

end

end Writing

/-! ### Reading -/

section Reading

variable {H : (C : ContainerType) → Heap C.Elem} {S : PoolSet}

/-- The container at a position is loaded. -/
lemma load_eq_ok {C : ContainerType} {i : Nat} {ls ls' : LoaderSet} {next next' : NodeId}
    {u : Vec C.Elem} (hload : ls.load C i next = ((.ok u, ls'), next')) :
    Loading.load C i (ls, next) = (.ok u, ls', next') := by
  simp only [Loading.load, hload]

mutual

/-- From what denotes a value another one is read, which has copies of the containers. -/
theorem decode_eq_ok (hS : S.Sound H)
    (hcount : ∀ {C b}, S.get? C = some b → b.pool.vectors.length ≤ Word.count) :
    (s : Schema) → {v : s.Value} → s.RoundTrips v → {j : Json} → Denotes S.Holds s v j →
    (key : String) → {ls : LoaderSet} → {next : NodeId} → ls.Serves S next →
      ∃ u ls' next', decode key s j (ls, next) = (.ok u, ls', next') ∧ ls'.Serves S next' ∧
        ls.Sub ls' ∧ Mirrors (ls'.Copies S) s v u
  | .container C, v, _, j, hj, key, ls, next, hls => by
      obtain ⟨i, rfl, b, hb, hi⟩ := hj
      obtain ⟨u, ls', next', hload, hserves, hsub, hcopies⟩ :=
        hls.load hb (hS hb).1.disjoint hi
      obtain ⟨e, he, -⟩ := hi
      have hlt : i < Word.count :=
        (List.getElem?_eq_some_iff.mp he).1.trans_le (hcount hb)
      refine ⟨u, ls', next', ?_, hserves, hsub, hcopies⟩
      rw [decode, Json.natBelow?_nat hlt]
      exact load_eq_ok hload
  | .value t, x, hrw, j, hj, key, ls, next, hls => by
      obtain rfl : j = t.toJson x := hj
      refine ⟨x, ls, next, ?_, hls, LoaderSet.Sub.refl ls, rfl⟩
      have hread : t.ofJson? (t.toJson x) = some x := hrw
      rw [decode, hread]
      rfl
  | .record label fields, vs, hrw, j, hj, key, ls, next, hls => by
      obtain ⟨members, rfl, hall⟩ := hj
      obtain ⟨us, ls', next', hdecode, hserves, hsub, hmirrors⟩ :=
        decodeAll_eq_ok hS hcount fields hrw hall hls
      refine ⟨us, ls', next', ?_, hserves, hsub, hmirrors⟩
      rw [decode]
      exact (run_bind_of_ok rfl).trans hdecode

/-- The same for the members of an object. -/
theorem decodeAll_eq_ok (hS : S.Sound H)
    (hcount : ∀ {C b}, S.get? C = some b → b.pool.vectors.length ≤ Word.count) :
    (fields : List (FieldName × Schema)) → {vs : Values fields} → RoundTripsAll fields vs →
    {members : List (String × Json)} → DenotesAll S.Holds fields vs members →
    {ls : LoaderSet} → {next : NodeId} → ls.Serves S next →
      ∃ us ls' next', decodeAll members fields (ls, next) = (.ok us, ls', next') ∧
        ls'.Serves S next' ∧ ls.Sub ls' ∧ MirrorsAll (ls'.Copies S) fields vs us
  | [], vs, _, members, _, ls, next, hls => ⟨(), ls, next, rfl, hls, LoaderSet.Sub.refl ls, trivial⟩
  | (f, s) :: fields, (v, vs), hrw, members, hall, ls, next, hls => by
      obtain ⟨⟨j, hj, hdenotes⟩, hrest⟩ := hall
      obtain ⟨u, ls₁, next₁, hu, hserves, hsub, hmirrors⟩ :=
        decode_eq_ok hS hcount s hrw.1 hdenotes f.key hls
      obtain ⟨us, ls₂, next₂, hus, hserves', hsub', hmirrors'⟩ :=
        decodeAll_eq_ok hS hcount fields hrw.2 hrest hserves
      refine ⟨(u, us), ls₂, next₂, ?_, hserves', hsub.trans hsub', ?_, hmirrors'⟩
      · rw [decodeAll, hj]
        exact (run_bind_of_ok hu).trans ((run_bind_of_ok hus).trans rfl)
      · exact hmirrors.imp (fun hcopy => hcopy.mono hsub') s

end

end Reading

end Schema

end RadixPool
