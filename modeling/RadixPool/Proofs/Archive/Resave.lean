import Mathlib
import RadixPool.DataType
import RadixPool.Proofs.Archive.Canonical
import RadixPool.Proofs.Pool.Loaded

/-!
Saving what was loaded.

An archive of any origin may number its keys as it likes and hold nodes, vectors, pools and
members that nobody refers to. A record that is loaded from it can be saved, and what is saved
then is loaded and saved again without a change.

* `RecordType.Lasting`: values that can be saved and loaded, with lengths that may have wrapped.
* `RecordType.Lasting.exists_ofArchive`: a lasting record is loaded from its archive as a copy.
* `lasting_of_ofArchive`: what is loaded is lasting, and can be saved.
* `toArchive_ofArchive`: saving again changes an archive once, and then no more.
-/

namespace RadixPool

section Records

variable [TypeFamily] {R : RecordType} {P : Policy R} {C : ContainerType} {r : R.Value}
  {H : (C : ContainerType) → Heap C.Elem}

/-- Values that can be saved and loaded. The containers of each type share one heap and are
formed, and their nodes may stand in a pool; there are no more nodes, and no more different
containers, than machine words. -/
structure RecordType.Lasting (R : RecordType) (r : R.Value)
    (H : (C : ContainerType) → Heap C.Elem) : Prop where
  known : ∀ c ∈ R.containers r, c.2.Known (H c.1)
  formed : ∀ c ∈ R.containers r, ∃ h, c.2.Formed c.1.shape h
  storable : ∀ c ∈ R.containers r, ∀ n ∈ c.2.nodes, n.Storable c.1.shape
  ids : ∀ C, (Vec.ids (R.vecs r C)).card ≤ Word.count
  ends : ∀ C, ((R.vecs r C).map Vec.ends).eraseDups.length ≤ Word.count

/-! ### Packing -/

/-- A record is packed if the policy wants pools for all of its containers. -/
lemma exists_packRecord {S₀ : PoolSet} (hdecl : declareAll P 0 .empty (P.types r) = .ok S₀)
    (htypes : ∀ c ∈ R.containers r, c.1 ∈ P.types r) :
    ∃ S j, packRecord P r = .ok (S, j) ∧ S₀.Adds (R.containers r) S := by
  obtain ⟨-, hs, hheaders, hsnd, -⟩ := declareAll_eq_ok .empty hdecl
  have hdeclared : S₀.pools.map DeclaredPool.type = P.types r := by
    rw [DeclaredPool.map_type_eq, hheaders, List.map_append, hsnd]
    rfl
  obtain ⟨j, S, hrun, hadds⟩ :=
    Schema.encode_addAll (.record R.label R.fields) r (S := S₀) fun c hc =>
      PoolSet.exists_builderIn_iff.mpr (hdeclared ▸ htypes c hc)
  refine ⟨S, j, ?_, hadds⟩
  have hrun' : (R.encode r).run.run S₀ = (.ok j, S) := hrun
  rw [packRecord, bind_of_ok hdecl, hrun']
  rfl

/-- The pool of a type lists the different containers of the type. -/
lemma PoolSet.Adds.length_vectors {S₀ S : PoolSet} (hadds : S₀.Adds (R.containers r) S)
    (hS₀ : S₀.Declared) (hknown : ∀ c ∈ R.containers r, c.2.Known (H c.1)) {b : Builder C.Elem}
    (hb : S.get? C = some b) :
    b.pool.vectors.length = ((R.vecs r C).map Vec.ends).eraseDups.length := by
  have hC : C ∈ S₀.pools.map DeclaredPool.type := by
    rw [DeclaredPool.map_type_eq, ← hadds.headers, ← DeclaredPool.map_type_eq]
    exact exists_builderIn_iff.mp ⟨b, hb⟩
  obtain ⟨b₀, hb₀⟩ := exists_builderIn_iff.mpr hC
  obtain rfl := hS₀.get? hb₀
  obtain rfl := Option.some.inj ((hadds.get? hb₀).symm.trans hb)
  have hvs : ∀ v ∈ R.vecs r C, v.Known (H C) :=
    fun v hv => hknown ⟨C, v⟩ (RecordType.mem_vecs.mp hv)
  have hlisted : List.Forall₂ ((Builder.empty C.shape).addAll (R.vecs r C)).2.Listed
      ((Builder.empty C.shape).addAll (R.vecs r C)).2.pool.vectors
      (([] ++ R.vecs r C).map Vec.ends).eraseDups :=
    Builder.Sound.empty.listed_addAll hvs .nil
  exact hlisted.length_eq

namespace RecordType.Lasting

variable {S : PoolSet} {j : Json}

/-- The pools of a lasting record are read from their documents and accepted. -/
lemma loadable (hr : R.Lasting r H) (hrw : Schema.RoundTripsAll R.fields r)
    (hS : S.Packed P r (R.heap r H) j) : ∀ p ∈ S.pools, p.Loadable := by
  intro p hp
  have hb : S.get? p.type = some p.builder := PoolSet.builderIn_of_mem hS.types_nodup hp
  obtain ⟨hsound, hshape⟩ := hS.sound hb
  have hvs : ∀ v ∈ R.vecs r p.type, v.Known (H p.type) :=
    fun v hv => hr.known ⟨p.type, v⟩ (mem_vecs.mp hv)
  have hst : ∀ {n : Node p.type.Elem} {k}, n.Known (R.heap r H p.type) →
      p.builder.key? n.id = some k → n.Storable p.type.shape := by
    intro n k hn _
    obtain ⟨-, v, hv, hmem⟩ := Heap.exists_mem_of_known_only hvs hn
    exact hr.storable ⟨p.type, v⟩ (mem_vecs.mp hv) n hmem
  have hsize : p.builder.keys.size ≤ Word.count := (hsound.size_le hvs).trans (hr.ids p.type)
  obtain ⟨plan, hl⟩ := hsound.ofPool_eq_ok p.type.valid hshape hst p.name
  exact ⟨hsound.ofJson_toJson p.type.valid hshape hst hsize (hrw.of_known hr.known) p.name, _, hl⟩

/-- A lasting record that is packed is loaded from its archive, as a copy by an injective renaming
of the nodes of each type. -/
theorem exists_ofArchive (hP : P.Faithful) (hkeys : Schema.DistinctAll R.fields)
    (hrw : Schema.RoundTripsAll R.fields r) (hr : R.Lasting r H) {S₀ : PoolSet}
    (hdecl : declareAll P 0 .empty (P.types r) = .ok S₀)
    (htypes : ∀ c ∈ R.containers r, c.1 ∈ P.types r) {d : Json} (hd : toArchive P r = .ok d)
    (next : NodeId) :
    ∃ f : ContainerType → NodeId → NodeId, (∀ C, Function.Injective (f C)) ∧
      (ofArchive P d next).1 = .ok (Schema.mapAll f R.fields r, []) := by
  obtain ⟨S, j, members, hpack, hwrap, hfree, rfl⟩ := toArchive_eq_ok hd
  obtain ⟨S', j', hpack', hadds⟩ := exists_packRecord hdecl htypes
  obtain ⟨rfl, rfl⟩ := Prod.mk.inj (Except.ok.inj (hpack'.symm.trans hpack))
  have hknown := RecordType.known_heap_of_known hr.known
  have hS := packed_of_packRecord hkeys hknown hpack
  obtain ⟨ls, hls, hserves⟩ := hS.exists_serves (hr.loadable hrw hS) (R.default next).2
  have hcount : ∀ {C b}, S'.get? C = some b → b.pool.vectors.length ≤ Word.count := by
    intro C b hb
    rw [hadds.length_vectors (declareAll_eq_ok .empty hdecl).1 hr.known hb]
    exact hr.ends C
  obtain ⟨u, ls', next', hdecode, hserves', -, hmirrors⟩ :=
    Schema.decode_eq_ok hS.sound hcount (.record R.label R.fields) hrw hS.denotes "" hserves
  have hcopy : u = Schema.mapAll (LoaderSet.copyId S' ls' next') R.fields r := by
    refine Schema.MirrorsAll.eq_map R.fields (fun c hc w hw => ?_) hmirrors
    obtain ⟨h, hformed⟩ := hr.formed c hc
    exact hw.eq_map_of_formed hS.sound hserves' hformed (hknown c hc)
  refine ⟨LoaderSet.copyId S' ls' next', LoaderSet.copyId_injective hS.sound hserves', ?_⟩
  have hpools : Assoc.get? Policy.poolsKey
      (Assoc.insert Policy.poolsKey (.obj S'.toMembers) members) = some (.obj S'.toMembers) := by
    rw [Assoc.get?_insert, if_pos rfl]
  have hunwrap : P.unwrap (Assoc.erase Policy.poolsKey
      (Assoc.insert Policy.poolsKey (.obj S'.toMembers) members)) = .ok j' := by
    rw [Assoc.erase_insert _ hfree]
    exact hP.unwrap hwrap
  rw [← hP.types (R.default next).1 r] at hls
  rw [ofArchive_eq_ok hpools hls hunwrap hdecode, hcopy]
  rfl

end RecordType.Lasting

/-! ### What is loaded -/

/-- A record that was loaded is lasting, and there are pools for its containers. -/
theorem lasting_of_ofArchive {d : Json} {next : NodeId} {unused : List String}
    (h : (ofArchive P d next).1 = .ok (r, unused)) :
    ∃ H S₀, R.Lasting r H ∧ declareAll P 0 .empty (P.types (R.default next).1) = .ok S₀ ∧
      ∀ c ∈ R.containers r, c.1 ∈ P.types (R.default next).1 := by
  obtain ⟨members, pools, ls, left, j, ls', next', -, -, hloaders, -, hdecode⟩ :=
    exists_of_ofArchive h
  have hls := opened_of_loadersOf hloaders
  obtain ⟨S₀, hS₀, -⟩ := hls.exists_declareAll
  obtain ⟨hlater, hreads⟩ :=
    Schema.reads_of_decode (.record R.label R.fields) "" (hls.sound _) hdecode
  have hheap : ∀ C, ∃ G : Heap C.Elem, ∀ l, ls'.loader? C C = some l → l.Sound C.shape G := by
    intro C
    cases hl : ls'.loader? C C with
    | none => exact ⟨fun _ => none, fun _ hl' => nomatch hl'⟩
    | some l =>
        obtain ⟨G, hsound, -⟩ := hlater.sound hl
        exact ⟨G, fun l' hl' => Option.some.inj hl' ▸ hsound⟩
  choose H hH using hheap
  have hgives : ∀ c ∈ R.containers r, ∃ i, i < Word.count ∧ ls'.Gives c.1 c.2 i :=
    hreads.container (.record R.label R.fields)
  -- the containers of one type come from one loader
  have hvecs : ∀ C, R.vecs r C = [] ∨ ∃ l, ls'.loader? C C = some l ∧ ∀ v ∈ R.vecs r C,
      ∃ i e h, i < Word.count ∧ l.pool.vectors[i]? = some e ∧
        Loader.Loads C.shape l.built e h v := by
    intro C
    cases hl : ls'.loader? C C with
    | none =>
        left
        rw [List.eq_nil_iff_forall_not_mem]
        intro v hv
        obtain ⟨i, -, l, e, n, hl', -⟩ := hgives ⟨C, v⟩ (RecordType.mem_vecs.mp hv)
        rw [hl] at hl'
        cases hl'
    | some l =>
        refine .inr ⟨l, rfl, fun v hv => ?_⟩
        obtain ⟨i, hi, l', e, n, hl', he, hloads⟩ := hgives ⟨C, v⟩ (RecordType.mem_vecs.mp hv)
        obtain rfl := Option.some.inj (hl.symm.trans hl')
        exact ⟨i, e, n, hi, he, hloads⟩
  refine ⟨H, S₀, ⟨fun c hc => ?_, fun c hc => ?_, fun c hc n hn => ?_, fun C => ?_, fun C => ?_⟩,
    hS₀, fun c hc => ?_⟩
  · obtain ⟨i, -, l, e, n, hl, -, hloads⟩ := hgives c hc
    exact hloads.known (hH c.1 l hl).built
  · obtain ⟨i, -, l, e, n, hl, -, hloads⟩ := hgives c hc
    exact ⟨n, hloads.formed⟩
  · obtain ⟨i, -, l, e, m, hl, -, hloads⟩ := hgives c hc
    exact hloads.storable c.1.valid (hH c.1 l hl) hn
  · rcases hvecs C with hnil | ⟨l, hl, hall⟩
    · rw [hnil]
      exact Nat.zero_le _
    · obtain ⟨l₀, hl₀, hpool⟩ := hlater.old hl
      obtain ⟨-, name, j, -, hread, -⟩ := hls.of_loader? hl₀
      refine Loader.card_ids_le (hH C l hl) (fun k hk => ?_) fun v hv => ?_
      · exact Pool.lt_of_ofJson hread (hpool ▸ hk)
      · obtain ⟨i, e, n, -, -, hloads⟩ := hall v hv
        exact ⟨e, n, hloads⟩
  · rcases hvecs C with hnil | ⟨l, hl, hall⟩
    · rw [hnil]
      exact Nat.zero_le _
    · exact Loader.length_eraseDups_ends_le hall
  · obtain ⟨i, -, l, e, n, hl, -⟩ := hgives c hc
    obtain ⟨l₀, hl₀, -⟩ := hlater.old hl
    exact (hls.of_loader? hl₀).1

/-- A record that was loaded from an archive, of whatever origin, is saved; from what was saved it
is loaded as a copy, with the same values, elements and shifts and, for each type by one injective
renaming of the nodes, the same sharing; and the copy is saved as the same archive. What is loaded
from the archive of a record whose containers lie in one memory is saved as this archive right
away. Objects have no name for two members, and elements and plain values are read as they are
written. -/
theorem toArchive_ofArchive (hP : P = .auto R ∨ ∃ key pools, P = .named R key pools)
    (hkeys : Schema.DistinctAll R.fields) :
    (∀ {d : Json} {next : NodeId} {r : R.Value} {unused : List String},
      (∀ members, d = .obj members → (members.map Prod.fst).Nodup) →
      (ofArchive P d next).1 = .ok (r, unused) → Schema.RoundTripsAll R.fields r →
      ∃ d', toArchive P r = .ok d' ∧ ∀ next', ∃ f : ContainerType → NodeId → NodeId,
        (∀ C, Function.Injective (f C)) ∧
        (ofArchive P d' next').1 = .ok (Schema.mapAll f R.fields r, []) ∧
        toArchive P (Schema.mapAll f R.fields r) = .ok d') ∧
    ∀ {r : R.Value} {H : (C : ContainerType) → Heap C.Elem} {d : Json} {next : NodeId} {u : R.Value}
      {unused : List String}, (∀ c ∈ R.containers r, c.2.Known (H c.1)) →
      Schema.RoundTripsAll R.fields r → toArchive P r = .ok d →
      (ofArchive P d next).1 = .ok (u, unused) → toArchive P u = .ok d := by
  have hrooted : P.Rooted := by
    rcases hP with rfl | ⟨key, pools, rfl⟩
    · exact Policy.Rooted.auto R
    · exact Policy.Rooted.named key pools
  have hfaithful := hrooted.faithful
  refine ⟨fun {d next r unused} hnames hr hrw => ?_, fun hknown hrw hd hu =>
    toArchive_of_ofArchive hfaithful hkeys hknown hrw hd hu⟩
  obtain ⟨H, S₀, hlasting, hdecl, htypes⟩ := lasting_of_ofArchive hr
  rw [hfaithful.types _ r] at hdecl htypes
  obtain ⟨members, -, -, -, j, -, -, rfl, -, -, hunwrap, -⟩ := exists_of_ofArchive hr
  obtain ⟨S, j', hpack, -⟩ := exists_packRecord hdecl htypes
  obtain ⟨members', hwrap, hfree⟩ := hrooted.exists_wrap (hnames members rfl) hunwrap j'
  have hsave : toArchive P r =
      .ok (.obj (Assoc.insert Policy.poolsKey (.obj S.toMembers) members')) := by
    rw [toArchive, bind_of_ok hpack]
    dsimp only
    rw [bind_of_ok hwrap, hfree]
    rfl
  refine ⟨_, hsave, fun next' => ?_⟩
  obtain ⟨f, hf, hload⟩ :=
    hlasting.exists_ofArchive hfaithful hkeys hrw hdecl htypes hsave next'
  exact ⟨f, hf, hload, toArchive_of_ofArchive hfaithful hkeys hlasting.known hrw hsave hload⟩

end Records

/-- An archive that numbers its keys in its own way and has a node, a vector, a pool and a member
that are not used. The two vectors of the record share their root, which is relaxed; the tail of
the second one is a leaf of the tree. -/
theorem toArchive_ofArchive_sharedRoot :
    ∃ (C : ContainerType) (u v : Vec C.Elem) (R : RecordType) (r : R.Value) (d d' : Json),
      R.containers r = [⟨C, v⟩, ⟨C, u⟩] ∧ u.root = v.root ∧ v.root.isRelaxed = true ∧
        .leaf u.tail ∈ v.root.children ∧ d' ≠ d ∧
        (ofArchive (.auto R) d 0).1 = .ok (r, ["other"]) ∧ toArchive (.auto R) r = .ok d' ∧
        (∀ next', ∃ f : ContainerType → NodeId → NodeId, (∀ C, Function.Injective (f C)) ∧
          (ofArchive (.auto R) d' next').1 = .ok (Schema.mapAll f R.fields r, []) ∧
          toArchive (.auto R) (Schema.mapAll f R.fields r) = .ok d') ∧
        ∃ r', (ofArchive (.auto R) d' 0).1 = .ok (r', []) ∧ toArchive (.auto R) r' = .ok d' := by
  let C : ContainerType := ⟨"Flags", .flag, ⟨1, 1⟩, by decide⟩
  let inner : List (FieldName × Schema) :=
    [(⟨"old", "old"⟩, .container C), (⟨"done", "done"⟩, .value .flag)]
  let R : RecordType :=
    ⟨"Pair", [(⟨"new", "new"⟩, .container C), (⟨"rest", "rest"⟩, .record "Rest" inner)]⟩
  let pool : Pool Bool :=
    ⟨⟨1, 1⟩, .ofList [(7, ⟨[5, 6], true⟩), (9, ⟨[], false⟩)],
      .ofList [(3, []), (4, [false]), (5, [true]), (6, [true, false])], [⟨7, 4⟩, ⟨9, 3⟩, ⟨7, 6⟩]⟩
  let members : List (String × Json) := [("extra", .null),
    ("pools", .obj [("new", pool.toJson .bool), ("other", .null)]),
    ("value0", .obj [("new", .nat 0), ("rest", .obj [("done", .bool true), ("old", .nat 2)])])]
  let root : Branch Bool := ⟨6, [.leaf ⟨4, [true]⟩, .leaf ⟨5, [true, false]⟩], some [1, 3]⟩
  let v : Vec C.Elem := ⟨4, 1, root, ⟨7, [false]⟩⟩
  let u : Vec C.Elem := ⟨5, 1, root, ⟨5, [true, false]⟩⟩
  let r : R.Value := (v, (u, (show Bool from true), ()), ())
  have hkeys : Schema.DistinctAll R.fields := by
    simp [R, inner, Schema.DistinctAll, Schema.Distinct]
  have hnames : ∀ ms, Json.obj members = .obj ms → (ms.map Prod.fst).Nodup := by
    intro ms hms
    rw [← Json.obj.inj hms]
    simp [members]
  have hrw : Schema.RoundTripsAll R.fields r :=
    ⟨fun _ _ => rfl, ⟨fun _ _ => rfl, rfl, trivial⟩, trivial⟩
  have hload : (ofArchive (.auto R) (.obj members) 0).1 = .ok (r, ["other"]) := rfl
  have hleaf : .leaf u.tail ∈ v.root.children := List.mem_cons_of_mem _ List.mem_cons_self
  obtain ⟨d', hsave, hagain⟩ := (toArchive_ofArchive (.inl rfl) hkeys).1 hnames hload hrw
  have hne : d' ≠ .obj members := by
    rintro rfl
    obtain ⟨S, j, ms, -, hwrap, -, hd'⟩ := toArchive_eq_ok hsave
    cases hwrap
    have hextra := congrArg (Json.member? "extra") hd'
    rw [Json.member?, Json.member?, Assoc.get?_insert] at hextra
    simp [members, Policy.poolsKey, Policy.defaultRootKey, Assoc.get?] at hextra
  obtain ⟨H, -, hlasting, -⟩ := lasting_of_ofArchive hload
  obtain ⟨f, -, hcopy, -⟩ := hagain 0
  exact ⟨C, u, v, R, r, .obj members, d', rfl, rfl, rfl, hleaf, hne, hload, hsave, hagain, _, hcopy,
    (toArchive_ofArchive (.inl rfl) hkeys).2 hlasting.known hrw hsave hcopy⟩

end RadixPool
