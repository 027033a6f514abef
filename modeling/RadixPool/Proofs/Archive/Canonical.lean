import Mathlib
import RadixPool.Proofs.Archive.Loaders
import RadixPool.Proofs.Record.Reading
import RadixPool.Proofs.Record.Writing

/-!
The archive of a record is canonical.

It does not depend on the identities of the nodes, so a record and its copy have one archive. And
what is loaded from the archive of a record, whatever the record, is its copy up to what the
archive does not tell; so it has this archive again.

* `toArchive_eq_of_resembles`, `toArchive_renamed`: a record and its copy have one archive.
* `PoolSet.Packed.serves`: the loaders made from the documents of finished pools serve these.
* `exists_renaming`: what is loaded from an archive resembles a copy of what was saved.
* `toArchive_of_ofArchive`: it has the same archive.
-/

namespace RadixPool

variable [TypeFamily] {R : RecordType} {P : Policy R} {C : ContainerType}
  {f : ContainerType → NodeId → NodeId} {r u : R.Value}

/-- A record whose containers resemble copies of those of another one has the same archive, if the
policy wants the same pools for both. -/
theorem toArchive_eq_of_resembles (htypes : P.types u = P.types r)
    (hf : ∀ C, Function.Injective (f C))
    (hu : Schema.MirrorsAll (Schema.Resembles f) R.fields r u) : toArchive P u = toArchive P r := by
  rw [toArchive, toArchive, packRecord, packRecord, htypes]
  cases hdecl : declareAll P 0 .empty (P.types r) with
  | error e => rfl
  | ok S₀ =>
      obtain ⟨hS₀, -⟩ := declareAll_eq_ok .empty hdecl
      obtain ⟨hresult, hstep⟩ :=
        Schema.encode_renamed hf (.record R.label R.fields) hu hS₀.renames
      have hrun : ∀ v : R.Value,
          (R.encode v).run.run S₀ = Schema.encode (.record R.label R.fields) v S₀ := fun _ => rfl
      simp only [bind, Except.bind, hrun]
      cases hr : Schema.encode (.record R.label R.fields) r S₀ with
      | mk x S =>
          cases hu : Schema.encode (.record R.label R.fields) u S₀ with
          | mk x' T =>
              rw [hr, hu] at hresult hstep
              obtain rfl : x' = x := hresult
              cases x' with
              | error e => rfl
              | ok j =>
                  have hmembers : T.toMembers = S.toMembers := hstep.toMembers_eq
                  simp only [pure, Except.pure, hmembers]

/-- A record and its copy have one archive. -/
theorem toArchive_renamed (hP : P.Faithful) (hf : ∀ C, Function.Injective (f C))
    (hu : Schema.MirrorsAll (Schema.Resembles f) R.fields r u) : toArchive P u = toArchive P r :=
  toArchive_eq_of_resembles (hP.types u r) hf hu

/-! ### Loading from the archive of a record -/

section Loading

variable {r : R.Value} {H : (C : ContainerType) → Heap C.Elem} {S : PoolSet} {j : Json}

/-- The elements of the nodes of a record are read as they were written. -/
lemma Schema.RoundTripsAll.of_known (hrw : Schema.RoundTripsAll R.fields r)
    (hknown : ∀ c ∈ R.containers r, c.2.Known (H c.1)) {l : Leaf C.Elem}
    (hl : (Node.leaf l).Known (R.heap r H C)) : ∀ x ∈ l.items, C.elem.RoundTrips x := by
  intro x hx
  obtain ⟨-, v, hv, hmem⟩ := Heap.exists_mem_of_known_only
    (fun v hv => hknown ⟨C, v⟩ (RecordType.mem_vecs.mp hv)) hl
  exact hrw.elem R.fields ⟨C, v⟩ (RecordType.mem_vecs.mp hv) x (Vec.elements_subset hmem hx)

/-- The nodes of a record are known to the heap that knows no others. -/
lemma RecordType.known_heap_of_known (hknown : ∀ c ∈ R.containers r, c.2.Known (H c.1)) :
    ∀ c ∈ R.containers r, c.2.Known (R.heap r H c.1) :=
  fun c hc => Heap.known_only (RecordType.mem_vecs.mpr hc) (hknown c hc)

/-- The pool of a type is one of the pools. -/
lemma PoolSet.exists_mem_of_builderIn {ps : List DeclaredPool} {b : Builder C.Elem}
    (hb : builderIn C ps = some b) : ∃ name, ⟨name, C, b⟩ ∈ ps := by
  induction ps with
  | nil => cases hb
  | cons p ps ih =>
      obtain ⟨name, D, b'⟩ := p
      by_cases hD : D = C
      · subst hD
        have hself := builderIn_cons_self ⟨name, D, b'⟩ ps
        obtain rfl : b' = b := Option.some.inj (hself.symm.trans hb)
        exact ⟨name, List.mem_cons_self⟩
      · have hne : (⟨name, D, b'⟩ : DeclaredPool).type ≠ C := hD
        rw [builderIn_cons_of_ne hne] at hb
        obtain ⟨name', hmem⟩ := ih hb
        exact ⟨name', List.mem_cons_of_mem _ hmem⟩

/-- With different sources the loader of a type is the one taken for it. -/
lemma LoaderSet.loader?_of_mem {ls : LoaderSet}
    (hnd : (ls.loaders.map RegisteredLoader.source).Nodup) {name : String} {l : Loader C.Elem}
    (hmem : ⟨C, name, C, l⟩ ∈ ls.loaders) : ls.loader? C C = some l := by
  have hfind : ls.loaders.find? (fun r => r.source = C) = some ⟨C, name, C, l⟩ := by
    cases hr : ls.loaders.find? fun r => r.source = C with
    | none =>
        have hnot := List.find?_eq_none.mp hr _ hmem
        simp at hnot
    | some r =>
        have hsource : r.source = C := by simpa using List.find?_some hr
        rw [List.inj_on_of_nodup_map hnd (List.mem_of_find?_eq_some hr) hmem hsource]
  rw [loader?, hfind, Option.bind_some]
  exact loader?_registered ⟨C, name, C, l⟩

/-- Loaders made from the documents of finished pools serve these. -/
theorem PoolSet.Packed.serves (hS : S.Packed P r (R.heap r H) j)
    (hknown : ∀ c ∈ R.containers r, c.2.Known (H c.1)) (hrw : Schema.RoundTripsAll R.fields r)
    {ls : LoaderSet} (hls : ls.Opened P S.toMembers (P.types r)) (next : NodeId) :
    ls.Serves S next := by
  intro C b hb
  obtain ⟨hsound, hshape⟩ := hS.sound hb
  obtain ⟨name, hp⟩ := exists_mem_of_builderIn hb
  -- the policy gave the same names to the pools and to the loaders
  have hheaders : ls.loaders.map RegisteredLoader.header = S.pools.map DeclaredPool.header := by
    refine hls.asked.unique hS.asked ?_
    rw [List.map_map, List.map_map]
    exact hls.sources.trans hS.types.symm
  have hheader : (name, C) ∈ ls.loaders.map RegisteredLoader.header :=
    hheaders ▸ List.mem_map.mpr ⟨_, hp, rfl⟩
  obtain ⟨m, hm, hmheader⟩ := List.mem_map.mp hheader
  obtain @⟨name', C', j', q, l, hj', hread, haccepted⟩ := hls.made m hm
  obtain ⟨rfl, rfl⟩ : name' = name ∧ C' = C := Prod.mk.inj hmheader
  obtain ⟨p, hp', hpair⟩ := List.mem_map.mp ((perm_toMembers hS.names_nodup).mem_iff.mp hj')
  obtain ⟨hname, rfl⟩ := Prod.mk.inj hpair
  obtain rfl := List.inj_on_of_nodup_map hS.names_nodup hp' hp hname
  have hpool : q = b.pool := by
    refine Pool.eq_of_ofJson_toJson hshape (fun {k items} hitems x hx => ?_) hread
    obtain ⟨leaf, hleaf, -, rfl⟩ := hsound.leaf hitems
    exact hrw.of_known hknown hleaf x hx
  exact ⟨l, fun _ => none, LoaderSet.loader?_of_mem hls.sources_nodup hm, .ofPool haccepted _,
    fun _ _ => rfl, (Loader.eq_of_ofPool haccepted).2.trans hpool⟩

/-- What is loaded from the archive of a record agrees with the record, and its containers resemble
copies, for each type by one injective renaming of the nodes. -/
theorem exists_renaming (hP : P.Faithful) (hkeys : Schema.DistinctAll R.fields)
    (hknown : ∀ c ∈ R.containers r, c.2.Known (H c.1)) (hrw : Schema.RoundTripsAll R.fields r)
    {d : Json} (hd : toArchive P r = .ok d) {next : NodeId} {u : R.Value} {unused : List String}
    (hu : (ofArchive P d next).1 = .ok (u, unused)) :
    ∃ f : ContainerType → NodeId → NodeId, (∀ C, Function.Injective (f C)) ∧
      Schema.MirrorsAll (Schema.Resembles f) R.fields r u := by
  obtain ⟨S, j, members, hpack, hwrap, hfree, rfl⟩ := toArchive_eq_ok hd
  have hknown' := RecordType.known_heap_of_known hknown
  have hS := packed_of_packRecord hkeys hknown' hpack
  obtain ⟨members', pools, ls, left, j', ls', next', heq, hpools, hloaders, hunwrap, hdecode⟩ :=
    exists_of_ofArchive hu
  obtain rfl := Json.obj.inj heq
  rw [Assoc.get?_insert, if_pos rfl, Option.some.injEq, Json.obj.injEq] at hpools
  subst hpools
  rw [Assoc.erase_insert _ hfree, hP.unwrap hwrap, Except.ok.injEq] at hunwrap
  subst hunwrap
  have hls : ls.Opened P S.toMembers (P.types r) :=
    hP.types (R.default next).1 r ▸ opened_of_loadersOf hloaders
  obtain ⟨hlater, hreads⟩ :=
    Schema.reads_of_decode (.record R.label R.fields) "" (hls.sound _) hdecode
  have hserves : ls'.Serves S next' :=
    LoaderSet.Serves.later (hS.serves hknown hrw hls (R.default next).2) hlater
  refine ⟨LoaderSet.copyId S ls' next', LoaderSet.copyId_injective hS.sound hserves, ?_⟩
  refine Schema.MirrorsAll.imp_of_mem R.fields (fun c hc u hu => ?_)
    (hreads.mirrors (.record R.label R.fields) hrw hS.denotes)
  obtain ⟨i, ⟨b, hb, e, he, hroot, htail⟩, l, e', h, hl, he', hloads⟩ := hu
  obtain ⟨l', -, hl', -, -, hpool⟩ := hserves hb
  obtain rfl := Option.some.inj (hl.symm.trans hl')
  obtain rfl : e = e' := Option.some.inj (he.symm.trans (hpool ▸ he'))
  have hcopies : LoaderSet.Copies S ls' c.1 c.2 u := ⟨b, l, e, h, hb, hl, hroot, htail, hloads⟩
  exact hcopies.resembles hS.sound hserves (hknown' c hc)

/-- What is loaded from the archive of a record has this archive. -/
theorem toArchive_of_ofArchive (hP : P.Faithful) (hkeys : Schema.DistinctAll R.fields)
    (hknown : ∀ c ∈ R.containers r, c.2.Known (H c.1)) (hrw : Schema.RoundTripsAll R.fields r)
    {d : Json} (hd : toArchive P r = .ok d) {next : NodeId} {u : R.Value} {unused : List String}
    (hu : (ofArchive P d next).1 = .ok (u, unused)) : toArchive P u = .ok d := by
  obtain ⟨f, hf, hmirrors⟩ := exists_renaming hP hkeys hknown hrw hd hu
  rw [toArchive_renamed hP hf hmirrors, hd]

end Loading

end RadixPool
