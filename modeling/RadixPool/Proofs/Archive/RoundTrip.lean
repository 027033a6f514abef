import Mathlib
import RadixPool.DataType
import RadixPool.Proofs.Archive.Pools
import RadixPool.Proofs.Record.Document

/-!
Archives: what is read is what was saved.

Saving declares empty pools and writes the record, which adds its containers. The finished pools are
read back and accepted, and the record is read from a document that denotes it.

* `RecordType.vecs`: the containers of one type in a value.
* `RecordType.Storable`: values whose containers have some history.
* `toArchive_eq_ok`, `ofArchive_eq_ok`: the steps of saving and of loading.
* `RecordType.Storable.loadable`: the finished pools are read and accepted.
* `ofArchive_toArchive`: a record is read from its archive with copies for containers, which share
  what the containers share.
-/

namespace RadixPool

section Records

variable [TypeFamily] {R : RecordType} {P : Policy R} {C : ContainerType}

/-! ### The containers of one type -/

namespace RecordType

/-- The containers of one type in a value, in the order of the fields. -/
def vecs (R : RecordType) (r : R.Value) (C : ContainerType) : List (Vec C.Elem) :=
  (R.containers r).filterMap fun c => if h : c.1 = C then some (h ▸ c.2) else none

lemma mem_vecs {r : R.Value} {v : Vec C.Elem} : v ∈ R.vecs r C ↔ ⟨C, v⟩ ∈ R.containers r := by
  rw [vecs, List.mem_filterMap]
  constructor
  · rintro ⟨⟨D, u⟩, hmem, hu⟩
    split at hu
    · next h =>
      subst h
      obtain rfl := Option.some.inj hu
      exact hmem
    · cases hu
  · intro hmem
    exact ⟨⟨C, v⟩, hmem, dif_pos rfl⟩

/-- Values that can be saved. The containers of each type have some history, in which identities may
be drawn for other types as well, and their roots address elements. There are no more nodes, and no
more containers, than machine words. -/
structure Storable (R : RecordType) (r : R.Value) : Prop where
  history : ∀ C : ContainerType, ∃ w : World C.Elem, w.Reachable C.shape ∧
    ∀ v ∈ R.vecs r C, v ∈ w.vecs
  shift : ∀ C, ∀ v ∈ R.vecs r C, v.shift < Word.width
  ids : ∀ C, (Vec.ids (R.vecs r C)).card ≤ Word.count
  length : (R.containers r).length ≤ Word.count

/-- The nodes of the containers of each type. -/
def heap (R : RecordType) (r : R.Value) (H : (C : ContainerType) → Heap C.Elem)
    (C : ContainerType) : Heap C.Elem :=
  (H C).only (Vec.ids (R.vecs r C))

section Heap

variable {r : R.Value} {w : (C : ContainerType) → World C.Elem}
  {H : (C : ContainerType) → Heap C.Elem}

/-- The nodes of all containers are known. -/
lemma known_heap (hw : ∀ C, (w C).Sound C.shape (H C)) (hvs : ∀ C, ∀ v ∈ R.vecs r C, v ∈ (w C).vecs)
    {c : (C : ContainerType) × Vec C.Elem} (hc : c ∈ R.containers r) :
    c.2.Known (R.heap r H c.1) := by
  have hmem : c.2 ∈ R.vecs r c.1 := mem_vecs.mpr hc
  exact Heap.known_only hmem ((hw c.1).known c.2 (hvs c.1 c.2 hmem))

/-- The pools made of the containers are read from their documents and accepted. -/
theorem Storable.loadable (hr : R.Storable r) (hw : ∀ C, (w C).Sound C.shape (H C))
    (hvs : ∀ C, ∀ v ∈ R.vecs r C, v ∈ (w C).vecs) {S : PoolSet} (hS : S.Sound (R.heap r H))
    (hrw : Schema.RoundTripsAll R.fields r) {b : Builder C.Elem} (hb : S.get? C = some b)
    (name : String) :
    Pool.ofJson C.elem.ofJson? name C.shape (b.pool.toJson C.elem.toJson) = .ok b.pool ∧
      ∃ l, Loader.ofPool C.shape name b.pool = .ok l := by
  obtain ⟨hsound, hshape⟩ := hS hb
  have hst : ∀ {n : Node C.Elem} {k}, n.Known (R.heap r H C) → b.key? n.id = some k →
      n.Storable C.shape := by
    intro n k hn _
    exact (hw C).storable C.valid (hvs C) (hr.shift C) hn
  have hsize : b.keys.size ≤ Word.count :=
    calc b.keys.size ≤ (Vec.ids (R.vecs r C)).card :=
          hsound.size_le fun v hv => (hw C).known v (hvs C v hv)
      _ ≤ Word.count := hr.ids C
  have helems : ∀ {l : Leaf C.Elem}, (Node.leaf l).Known (R.heap r H C) →
      ∀ x ∈ l.items, C.elem.RoundTrips x := by
    intro l hl x hx
    obtain ⟨-, v, hv, hmem⟩ :=
      Heap.exists_mem_of_known_only (fun v hv => (hw C).known v (hvs C v hv)) hl
    exact hrw.elem R.fields ⟨C, v⟩ (mem_vecs.mp hv) x (Vec.elements_subset hmem hx)
  obtain ⟨plan, hl⟩ := hsound.ofPool_eq_ok C.valid hshape hst name
  exact ⟨hsound.ofJson_toJson C.valid hshape hst hsize helems name, _, hl⟩

end Heap

end RecordType

/-! ### The steps of saving and loading -/

/-- A record is packed by declaring pools and writing the record. -/
lemma packRecord_eq_ok {r : R.Value} {S : PoolSet} {j : Json}
    (hpack : packRecord P r = .ok (S, j)) :
    ∃ S₀, declareAll P 0 .empty (P.types r) = .ok S₀ ∧ R.encode r S₀ = (.ok j, S) := by
  rw [packRecord] at hpack
  obtain ⟨S₀, hdecl, hencode⟩ := bind_eq_ok_iff.mp hpack
  refine ⟨S₀, hdecl, ?_⟩
  have hrun : (R.encode r).run.run S₀ = R.encode r S₀ := rfl
  rw [hrun] at hencode
  split at hencode
  · next heq =>
    cases hencode
    exact heq
  · cases hencode

/-- An archive has the members that the policy wants and the pools. -/
lemma toArchive_eq_ok {r : R.Value} {d : Json} (hd : toArchive P r = .ok d) :
    ∃ S j members, packRecord P r = .ok (S, j) ∧ P.wrap j = .ok members ∧
      Assoc.get? Policy.poolsKey members = none ∧
      d = .obj (Assoc.insert Policy.poolsKey (.obj S.toMembers) members) := by
  rw [toArchive] at hd
  obtain ⟨⟨S, j⟩, hpack, hd⟩ := bind_eq_ok_iff.mp hd
  obtain ⟨members, hwrap, hd⟩ := bind_eq_ok_iff.mp hd
  refine ⟨S, j, members, hpack, hwrap, ?_⟩
  split at hd
  · cases hd
  · next hnone =>
    cases hd
    exact ⟨Option.not_isSome_iff_eq_none.mp hnone, rfl⟩

/-- A record is loaded if there are loaders for its pools and it is read with them. -/
lemma ofArchive_eq_ok {members pools : List (String × Json)} {next next' : NodeId}
    {ls ls' : LoaderSet} {unused : List (String × Json)} {j : Json} {r : R.Value}
    (hpools : Assoc.get? Policy.poolsKey members = some (.obj pools))
    (hloaders : loadersOf P 0 pools .empty (P.types (R.default next).1) = .ok (ls, unused))
    (hunwrap : P.unwrap (Assoc.erase Policy.poolsKey members) = .ok j)
    (hdecode : R.decode j (ls, (R.default next).2) = (.ok r, ls', next')) :
    ofArchive P (.obj members) next = (.ok (r, unused.map Prod.fst), next') := by
  have hrun : (R.decode j).run.run (ls, (R.default next).2) = (.ok r, ls', next') := hdecode
  rw [ofArchive]
  simp only [bind, StateT.bind, Except.bind, hpools]
  split
  next initial next₀ hinit =>
  rw [hinit] at hloaders hrun
  simp only [hloaders, hunwrap, hrun, pure, Except.pure]
  rfl

/-! ### Round trip -/

/-- Finished pools with the document of a record: a policy declared them, they are sound, and the
document denotes the record. -/
structure PoolSet.Packed (P : Policy R) (r : R.Value) (H : (C : ContainerType) → Heap C.Elem)
    (S : PoolSet) (j : Json) : Prop where
  types : S.pools.map DeclaredPool.type = P.types r
  asked : P.Names 0 (S.pools.map DeclaredPool.header)
  types_nodup : (S.pools.map DeclaredPool.type).Nodup
  names_nodup : (S.pools.map DeclaredPool.name).Nodup
  sound : S.Sound H
  length : ∀ {C b}, S.get? C = some b → b.pool.vectors.length ≤ (R.containers r).length
  denotes : Schema.Denotes S.Holds (.record R.label R.fields) r j

/-- Packing a record gives its pools and a document for it. -/
theorem packed_of_packRecord {r : R.Value} {H : (C : ContainerType) → Heap C.Elem} {S : PoolSet}
    {j : Json} (hkeys : Schema.DistinctAll R.fields)
    (hknown : ∀ c ∈ R.containers r, c.2.Known (H c.1)) (hpack : packRecord P r = .ok (S, j)) :
    S.Packed P r H j := by
  obtain ⟨S₀, hdecl, hencode⟩ := packRecord_eq_ok hpack
  obtain ⟨hS₀, hs, hheaders, htypes, hnames⟩ := declareAll_eq_ok .empty hdecl
  obtain ⟨hS, hgrows, hdenotes⟩ :=
    Schema.encode_eq_ok (.record R.label R.fields) hkeys hknown hS₀.sound hencode
  have hall : S.pools.map DeclaredPool.header = hs := hgrows.headers.trans hheaders
  refine ⟨?_, hall ▸ hnames, ?_, ?_, hS, fun {C b} hb => ?_, hdenotes⟩
  · rw [DeclaredPool.map_type_eq, hall, htypes]
  · exact hgrows.types ▸ hS₀.types
  · exact hgrows.names ▸ hS₀.names
  · obtain ⟨b₀, hb₀, hlen⟩ := hgrows.exists_get? hb
    obtain rfl := hS₀.get? hb₀
    exact hlen.trans_eq (Nat.zero_add _)

/-- The loaders made for finished pools serve them. -/
lemma PoolSet.Packed.exists_serves {r : R.Value} {H : (C : ContainerType) → Heap C.Elem}
    {S : PoolSet} {j : Json} (hS : S.Packed P r H j) (hload : ∀ p ∈ S.pools, p.Loadable)
    (next : NodeId) :
    ∃ ls, loadersOf P 0 S.toMembers .empty (P.types r) = .ok (ls, []) ∧ ls.Serves S next := by
  have hnew : ∀ l ∈ LoaderSet.empty.loaders, l.source ∉ S.pools.map DeclaredPool.type ∧
      l.name ∉ S.pools.map DeclaredPool.name := fun _ hl => nomatch hl
  obtain ⟨ls, hls, -, hserve⟩ := loadersOf_eq_ok hS.asked (PoolSet.perm_toMembers hS.names_nodup)
    hS.types_nodup hS.names_nodup hload hnew
  refine ⟨ls, hS.types ▸ hls, fun {C b} hb => ?_⟩
  obtain ⟨name, l, hl, hok⟩ := hserve hb
  have hpool : l.pool = b.pool := by
    obtain ⟨-, -, -, plan, -, rfl⟩ := Loader.ofPool_eq_ok_iff.mp hok
    rfl
  exact ⟨l, fun _ => none, hl, .ofPool hok _, fun _ _ => rfl, hpool⟩

/-- A record is read from its archive. Its plain values are those that were saved, and each
container is a copy of the one that was saved, with the same elements, length and shift. For each
container type all copies are made by one injective renaming of the nodes, so wherever two
containers of one type stand they share what the containers saved there share. No pool is left
over. -/
theorem ofArchive_toArchive {r : R.Value} {d : Json}
    (hP : P = .auto R ∨ (∃ key pools, P = .named R key pools) ∨ P.Faithful)
    (hkeys : Schema.DistinctAll R.fields) (hrw : Schema.RoundTripsAll R.fields r)
    (hr : R.Storable r) (hd : toArchive P r = .ok d) (next : NodeId) :
    ∃ f : ContainerType → NodeId → NodeId, (∀ C, Function.Injective (f C)) ∧
      (ofArchive P d next).1 = .ok (Schema.mapAll f R.fields r, []) := by
  have hfaithful : P.Faithful := by
    rcases hP with rfl | ⟨key, pools, rfl⟩ | hP
    · exact Policy.faithful_auto R
    · exact Policy.faithful_named key pools
    · exact hP
  choose w hreach hvs using hr.history
  choose H hw using fun C => (hreach C).sound C.valid
  have hknown : ∀ c ∈ R.containers r, c.2.Known (R.heap r H c.1) :=
    fun c hc => RecordType.known_heap hw hvs hc
  obtain ⟨S, j, members, hpack, hwrap, hfree, rfl⟩ := toArchive_eq_ok hd
  have hS := packed_of_packRecord hkeys hknown hpack
  have hload : ∀ p ∈ S.pools, p.Loadable := by
    intro p hp
    have hb : S.get? p.type = some p.builder := PoolSet.builderIn_of_mem hS.types_nodup hp
    obtain ⟨hread, haccepted⟩ := hr.loadable hw hvs hS.sound hrw hb p.name
    exact ⟨hread, haccepted⟩
  obtain ⟨ls, hls, hserves⟩ := hS.exists_serves hload (R.default next).2
  have hcount : ∀ {C b}, S.get? C = some b → b.pool.vectors.length ≤ Word.count :=
    fun hb => (hS.length hb).trans hr.length
  obtain ⟨r', ls', next', hdecode, hserves', -, hmirrors⟩ :=
    Schema.decode_eq_ok hS.sound hcount (.record R.label R.fields) hrw hS.denotes "" hserves
  have hcopy : r' = Schema.mapAll (LoaderSet.copyId S ls' next') R.fields r := by
    refine Schema.MirrorsAll.eq_map R.fields (fun c hc u hu => ?_) hmirrors
    have hv : c.2 ∈ (w c.1).vecs := hvs c.1 c.2 (RecordType.mem_vecs.mpr hc)
    obtain ⟨h, hsound⟩ := (hw c.1).vec c.2 hv
    exact hu.eq_map hS.sound hserves' hsound (hknown c hc)
  refine ⟨LoaderSet.copyId S ls' next', LoaderSet.copyId_injective hS.sound hserves', ?_⟩
  have hpools : Assoc.get? Policy.poolsKey
      (Assoc.insert Policy.poolsKey (.obj S.toMembers) members) = some (.obj S.toMembers) := by
    rw [Assoc.get?_insert, if_pos rfl]
  have hunwrap : P.unwrap (Assoc.erase Policy.poolsKey
      (Assoc.insert Policy.poolsKey (.obj S.toMembers) members)) = .ok j := by
    rw [Assoc.erase_insert _ hfree]
    exact hfaithful.unwrap hwrap
  rw [← hfaithful.types (R.default next).1 r] at hls
  rw [ofArchive_eq_ok hpools hls hunwrap hdecode, hcopy]
  rfl

end Records

/-- A relaxed vector, and in a record within the record the vector it was made from, of which the
root and the tail stand in its tree. -/
theorem ofArchive_toArchive_grown :
    ∃ (C : ContainerType) (u v : Vec C.Elem) (R : RecordType) (r : R.Value) (d : Json),
      R.containers r = [⟨C, v⟩, ⟨C, u⟩] ∧ u.root.isRelaxed = true ∧ u.root.node ∈ v.root.children ∧
        .leaf u.tail ∈ v.root.node.nodes ∧ toArchive (.auto R) r = .ok d ∧
        ∀ next, ∃ f : ContainerType → NodeId → NodeId, (∀ C, Function.Injective (f C)) ∧
          (ofArchive (.auto R) d next).1 = .ok (Schema.mapAll f R.fields r, []) := by
  let C : ContainerType := ⟨"Flags", .flag, ⟨1, 1⟩, by decide⟩
  let inner : List (FieldName × Schema) :=
    [(⟨"old", "old"⟩, .container C), (⟨"done", "done"⟩, .value .flag)]
  let R : RecordType :=
    ⟨"Pair", [(⟨"new", "new"⟩, .container C), (⟨"rest", "rest"⟩, .record "Rest" inner)]⟩
  let u : Vec C.Elem := World.relaxedVec
  let v : Vec C.Elem := World.grownVec
  let r : R.Value := (v, (u, (show Bool from true), ()), ())
  obtain ⟨l, hw⟩ := World.Reachable.grown
  have hself : R.vecs r C = [v, u] := rfl
  have hvecs : ∀ D, D = C ∨ R.vecs r D = [] := by
    intro D
    by_cases hD : D = C
    · exact .inl hD
    · right
      rw [List.eq_nil_iff_forall_not_mem]
      intro x hx
      have hmem : (⟨D, x⟩ : (C : ContainerType) × Vec C.Elem) ∈ [⟨C, v⟩, ⟨C, u⟩] :=
        RecordType.mem_vecs.mp hx
      simp [hD] at hmem
  have hr : R.Storable r := by
    refine ⟨fun D => ?_, fun D => ?_, fun D => ?_, by decide⟩
    · rcases hvecs D with hD | hnil
      · subst hD
        exact ⟨_, hw, fun x hx => hx⟩
      · exact ⟨_, .refl, by simp [hnil]⟩
    · rcases hvecs D with hD | hnil
      · subst hD
        rw [hself]
        decide
      · simp [hnil]
    · rcases hvecs D with hD | hnil
      · subst hD
        rw [hself]
        decide
      · rw [hnil]
        exact Nat.zero_le _
  have hkeys : Schema.DistinctAll R.fields := by
    simp [R, inner, Schema.DistinctAll, Schema.Distinct]
  have hrw : Schema.RoundTripsAll R.fields r :=
    ⟨fun _ _ => rfl, ⟨fun _ _ => rfl, rfl, trivial⟩, trivial⟩
  have hok : (toArchive (.auto R) r).isOk = true := by decide +kernel
  obtain ⟨d, hd⟩ : ∃ d, toArchive (.auto R) r = .ok d := by
    cases hsave : toArchive (.auto R) r with
    | ok d => exact ⟨d, rfl⟩
    | error e =>
        rw [hsave] at hok
        cases hok
  exact ⟨C, u, v, R, r, d, rfl, rfl, World.shared_grownVec.1, World.shared_grownVec.2, hd,
    fun next => ofArchive_toArchive (.inl rfl) hkeys hrw hr hd next⟩

end RadixPool
