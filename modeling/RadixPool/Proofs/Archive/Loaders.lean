import Mathlib
import RadixPool.Proofs.Archive.RoundTrip
import RadixPool.Proofs.Pool.Limits

/-!
What an archive was loaded from.

If a record was loaded from an archive then there is a loader for each type that the policy wants,
made from the document under the name that the policy gives; types and names differ, so the same
pools can be declared.

* `RegisteredLoader.MadeFrom`: a loader that was made from one of some documents.
* `LoaderSet.Opened`: the loaders made from the documents of an archive; `opened_of_loadersOf`.
* `exists_declareAll`, `LoaderSet.Opened.exists_declareAll`: the same pools are declared.
* `exists_of_ofArchive`: the steps of loading.
* `Policy.Rooted`: policies that put the record under a key.
-/

namespace RadixPool

variable [TypeFamily] {R : RecordType} {P : Policy R} {C : ContainerType}

/-! ### Declarations -/

/-- What a policy is asked for determines the names. -/
lemma Policy.Names.unique {asked : Nat} {hs hs' : List (String × ContainerType)}
    (h : P.Names asked hs) (h' : P.Names asked hs') (heq : hs.map Prod.snd = hs'.map Prod.snd) :
    hs = hs' := by
  induction hs generalizing asked hs' with
  | nil => exact (List.map_eq_nil_iff.mp heq.symm).symm
  | cons e hs ih =>
      obtain ⟨name, C⟩ := e
      cases hs' with
      | nil => cases heq
      | cons e' hs' =>
          obtain ⟨name', C'⟩ := e'
          rw [List.map_cons, List.map_cons, List.cons.injEq] at heq
          obtain ⟨hC, hrest⟩ := heq
          obtain rfl : C = C' := hC
          obtain ⟨hname, hnames⟩ := h
          obtain ⟨hname', hnames'⟩ := h'
          obtain rfl : name = name' := Except.ok.inj (hname.symm.trans hname')
          rw [ih hnames hnames' hrest]

/-- A new type is declared under a new name. -/
lemma PoolSet.declare_of_new {S : PoolSet} {name : String} (hC : C ∉ S.pools.map DeclaredPool.type)
    (hname : name ∉ S.pools.map DeclaredPool.name) :
    S.declare C name = .ok ⟨S.pools ++ [⟨name, C, .empty C.shape⟩]⟩ := by
  have hnone : S.nameOf? C = none := by
    rw [nameOf?, Option.map_eq_none_iff, List.find?_eq_none]
    intro p hp htype
    exact hC (List.mem_map.mpr ⟨p, hp, by simpa using htype⟩)
  rw [declare, hnone]
  dsimp only
  rw [if_neg]
  simpa [names] using hname

/-- Different types are declared under different names. -/
theorem exists_declareAll {asked : Nat} {S : PoolSet} {hs : List (String × ContainerType)}
    (hnames : P.Names asked hs) (htypes : (S.pools.map DeclaredPool.type ++ hs.map Prod.snd).Nodup)
    (hdistinct : (S.pools.map DeclaredPool.name ++ hs.map Prod.fst).Nodup) :
    ∃ S', declareAll P asked S (hs.map Prod.snd) = .ok S' := by
  induction hs generalizing asked S with
  | nil => exact ⟨S, rfl⟩
  | cons e hs ih =>
      obtain ⟨name, C⟩ := e
      obtain ⟨hname, hnames⟩ := hnames
      rw [List.map_cons, List.nodup_middle, List.nodup_cons, List.mem_append, not_or] at htypes
      rw [List.map_cons, List.nodup_middle, List.nodup_cons, List.mem_append, not_or] at hdistinct
      obtain ⟨⟨hC, hC'⟩, htypes⟩ := htypes
      obtain ⟨⟨hnew, hnew'⟩, hdistinct⟩ := hdistinct
      have hdecl := PoolSet.declare_of_new hC hnew
      obtain ⟨S', hS'⟩ := ih (S := ⟨S.pools ++ [⟨name, C, .empty C.shape⟩]⟩) hnames
        (by
          rw [List.map_append, List.append_assoc, List.map_singleton, List.singleton_append,
            List.nodup_middle, List.nodup_cons, List.mem_append, not_or]
          exact ⟨⟨hC, hC'⟩, htypes⟩)
        (by
          rw [List.map_append, List.append_assoc, List.map_singleton, List.singleton_append,
            List.nodup_middle, List.nodup_cons, List.mem_append, not_or]
          exact ⟨⟨hnew, hnew'⟩, hdistinct⟩)
      exact ⟨S', by rw [List.map_cons, declareAll, bind_of_ok hname, bind_of_ok hdecl, hS']⟩

/-! ### Loaders -/

/-- Name and source of a loader. -/
def RegisteredLoader.header (r : RegisteredLoader) : String × ContainerType := (r.name, r.source)

/-- A loader into the type it stands for, made from the document under its name. -/
inductive RegisteredLoader.MadeFrom (pools : List (String × Json)) : RegisteredLoader → Prop where
  | mk {name : String} {C : ContainerType} {j : Json} {p : Pool C.Elem} {l : Loader C.Elem}
      (mem : (name, j) ∈ pools) (read : Pool.ofJson C.elem.ofJson? name C.shape j = .ok p)
      (accepted : Loader.ofPool C.shape name p = .ok l) : MadeFrom pools ⟨C, name, C, l⟩

/-- The loaders for some types, made from the documents under the names that the policy gives. -/
structure LoaderSet.Opened (P : Policy R) (pools : List (String × Json)) (Cs : List ContainerType)
    (ls : LoaderSet) : Prop where
  sources : ls.loaders.map RegisteredLoader.source = Cs
  asked : P.Names 0 (ls.loaders.map RegisteredLoader.header)
  sources_nodup : (ls.loaders.map RegisteredLoader.source).Nodup
  names_nodup : (ls.loaders.map RegisteredLoader.name).Nodup
  made : ∀ r ∈ ls.loaders, r.MadeFrom pools
  sound : ∀ next, ls.Sound next

/-- Loaders are made one after the other, and differ from all before in type and name. -/
lemma exists_of_loadersOf {asked : Nat} {pools unused : List (String × Json)} {ls ls' : LoaderSet}
    {Cs : List ContainerType} (h : loadersOf P asked pools ls Cs = .ok (ls', unused)) :
    ∃ rs, ls'.loaders = ls.loaders ++ rs ∧ rs.map RegisteredLoader.source = Cs ∧
      P.Names asked (rs.map RegisteredLoader.header) ∧ (∀ r ∈ rs, r.MadeFrom pools) ∧
      ((ls.loaders.map RegisteredLoader.source).Nodup →
        (ls'.loaders.map RegisteredLoader.source).Nodup) ∧
      ((ls.loaders.map RegisteredLoader.name).Nodup →
        (ls'.loaders.map RegisteredLoader.name).Nodup) ∧
      ∀ next, ls.Sound next → ls'.Sound next := by
  induction Cs generalizing asked pools ls with
  | nil =>
      cases h
      exact ⟨[], (List.append_nil _).symm, rfl, trivial, (fun _ hr => nomatch hr), id, id,
        fun _ => id⟩
  | cons C Cs ih =>
      rw [loadersOf] at h
      obtain ⟨name, hname, h⟩ := bind_eq_ok_iff.mp h
      cases hj : Assoc.get? name pools with
      | none =>
          rw [hj] at h
          cases h
      | some j =>
          rw [hj] at h
          obtain ⟨p, hp, h⟩ := bind_eq_ok_iff.mp h
          obtain ⟨l, hl, h⟩ := bind_eq_ok_iff.mp h
          obtain ⟨ls₁, hinsert, h⟩ := bind_eq_ok_iff.mp h
          obtain ⟨rfl, hnew⟩ := LoaderSet.of_insert_eq_ok hinsert
          obtain ⟨rs, hloaders, hsources, hnames, hmade, hnd, hnd', hsound⟩ := ih h
          refine ⟨⟨C, name, C, l⟩ :: rs, ?_, by rw [List.map_cons, hsources], ⟨hname, hnames⟩,
            fun r hr => ?_, fun hold => hnd ?_, fun hold => hnd' ?_, fun next hold =>
              hsound next (hold.append (fun r hr => (hnew r hr).1) hl)⟩
          · rw [hloaders, List.append_assoc, List.singleton_append]
          · rcases List.mem_cons.mp hr with rfl | hr
            · exact .mk (Assoc.mem_of_get?_eq_some hj) hp hl
            · obtain ⟨hmem, hread, haccepted⟩ := hmade r hr
              exact .mk (Assoc.mem_of_mem_erase hmem) hread haccepted
          · rw [List.map_append, List.map_singleton, ← List.concat_eq_append]
            refine hold.concat fun hmem => ?_
            obtain ⟨r, hr, hsource⟩ := List.mem_map.mp hmem
            exact (hnew r hr).1 hsource
          · rw [List.map_append, List.map_singleton, ← List.concat_eq_append]
            refine hold.concat fun hmem => ?_
            obtain ⟨r, hr, hrname⟩ := List.mem_map.mp hmem
            exact (hnew r hr).2 hrname

/-- The loaders that are made for an archive. -/
theorem opened_of_loadersOf {pools unused : List (String × Json)} {ls : LoaderSet}
    {Cs : List ContainerType} (h : loadersOf P 0 pools .empty Cs = .ok (ls, unused)) :
    ls.Opened P pools Cs := by
  obtain ⟨rs, hloaders, hsources, hnames, hmade, hnd, hnd', hsound⟩ := exists_of_loadersOf h
  obtain rfl : ls.loaders = rs := hloaders
  exact ⟨hsources, hnames, hnd List.nodup_nil, hnd' List.nodup_nil, hmade,
    fun next => hsound next LoaderSet.Sound.empty⟩

namespace LoaderSet.Opened

variable {pools : List (String × Json)} {Cs : List ContainerType} {ls : LoaderSet}

/-- The loader of a type is among those wanted, and was made from a document. -/
lemma of_loader? (h : ls.Opened P pools Cs) {l : Loader C.Elem} (hl : ls.loader? C C = some l) :
    C ∈ Cs ∧ ∃ name j, (name, j) ∈ pools ∧
      Pool.ofJson C.elem.ofJson? name C.shape j = .ok l.pool ∧
        Loader.ofPool C.shape name l.pool = .ok l := by
  obtain ⟨name, hmem⟩ := exists_mem_of_loader? hl
  refine ⟨h.sources ▸ List.mem_map.mpr ⟨_, hmem, rfl⟩, ?_⟩
  obtain ⟨hj, hread, haccepted⟩ := h.made _ hmem
  obtain ⟨-, rfl⟩ := Loader.eq_of_ofPool haccepted
  exact ⟨name, _, hj, hread, haccepted⟩

/-- The types for which there are loaders are declared under the names of the loaders. -/
theorem exists_declareAll (h : ls.Opened P pools Cs) :
    ∃ S, declareAll P 0 .empty Cs = .ok S ∧ S.Declared ∧
      S.pools.map DeclaredPool.header = ls.loaders.map RegisteredLoader.header := by
  have htypes : (ls.loaders.map RegisteredLoader.header).map Prod.snd = Cs := by
    rw [List.map_map]
    exact h.sources
  have hnames : (ls.loaders.map RegisteredLoader.header).map Prod.fst =
      ls.loaders.map RegisteredLoader.name := List.map_map
  obtain ⟨S, hS⟩ := RadixPool.exists_declareAll (S := .empty) h.asked
    (htypes ▸ h.sources ▸ h.sources_nodup) (hnames ▸ h.names_nodup)
  rw [htypes] at hS
  obtain ⟨hdecl, hs, hheaders, hsnd, hasked⟩ := declareAll_eq_ok .empty hS
  refine ⟨S, hS, hdecl, ?_⟩
  rw [hheaders, hasked.unique h.asked (hsnd.trans htypes.symm)]
  rfl

end LoaderSet.Opened

/-! ### Loading -/

/-- If a record was loaded then all steps of loading went well. -/
lemma exists_of_ofArchive {d : Json} {next : NodeId} {r : R.Value} {unused : List String}
    (h : (ofArchive P d next).1 = .ok (r, unused)) :
    ∃ members pools ls left j ls' next', d = .obj members ∧
      Assoc.get? Policy.poolsKey members = some (.obj pools) ∧
      loadersOf P 0 pools .empty (P.types (R.default next).1) = .ok (ls, left) ∧
      P.unwrap (Assoc.erase Policy.poolsKey members) = .ok j ∧
      R.decode j (ls, (R.default next).2) = (.ok r, ls', next') := by
  rw [ofArchive] at h
  simp only [bind, StateT.bind, Except.bind] at h
  generalize R.default next = start at h ⊢
  obtain ⟨initial, next₀⟩ := start
  obtain ⟨members, rfl⟩ : ∃ members, d = .obj members := by
    cases d with
    | obj members => exact ⟨members, rfl⟩
    | _ => cases h
  obtain ⟨pools, hpools⟩ : ∃ pools, Assoc.get? Policy.poolsKey members = some (.obj pools) := by
    cases hget : Assoc.get? Policy.poolsKey members with
    | none =>
        simp only [hget] at h
        cases h
    | some j =>
        cases j with
        | obj pools => exact ⟨pools, rfl⟩
        | _ =>
            simp only [hget] at h
            cases h
  simp only [hpools] at h
  obtain ⟨⟨ls, left⟩, hloaders⟩ :
      ∃ opened, loadersOf P 0 pools .empty (P.types initial) = .ok opened := by
    cases hloaders : loadersOf P 0 pools .empty (P.types initial) with
    | error e =>
        simp only [hloaders] at h
        cases h
    | ok opened => exact ⟨opened, rfl⟩
  obtain ⟨j, hunwrap⟩ : ∃ j, P.unwrap (Assoc.erase Policy.poolsKey members) = .ok j := by
    cases hunwrap : P.unwrap (Assoc.erase Policy.poolsKey members) with
    | error e =>
        simp only [hloaders, hunwrap] at h
        cases h
    | ok j => exact ⟨j, rfl⟩
  simp only [hloaders, hunwrap, pure, Except.pure] at h
  cases hdecode : R.decode j (ls, next₀) with
  | mk result state =>
      have hrun : (R.decode j).run.run (ls, next₀) = (result, state) := hdecode
      rw [hrun] at h
      cases result with
      | error e => cases h
      | ok r' =>
          cases h
          exact ⟨members, pools, ls, left, j, state.1, state.2, rfl, hpools, hloaders, hunwrap,
            hdecode⟩

/-! ### Where the record stands -/

/-- The policies that put the record under a key and want the same pools for all records. -/
def Policy.Rooted (P : Policy R) : Prop :=
  ∃ key types nameFor, P = under key (fun _ => types) nameFor

namespace Policy.Rooted

lemma auto (R : RecordType) : (Policy.auto R).Rooted := ⟨_, _, _, rfl⟩

lemma named (key : String) (pools : List (ContainerType × String)) :
    (Policy.named R key pools).Rooted :=
  ⟨_, _, _, rfl⟩

lemma faithful (h : P.Rooted) : P.Faithful := by
  obtain ⟨key, types, nameFor, rfl⟩ := h
  exact faithful_under key types nameFor

/-- If a record was found next to the pools then its key is not that of the pools. -/
lemma exists_wrap (h : P.Rooted) {members : List (String × Json)} {j : Json}
    (hmembers : (members.map Prod.fst).Nodup)
    (hj : P.unwrap (Assoc.erase poolsKey members) = .ok j) (j' : Json) :
    ∃ members', P.wrap j' = .ok members' ∧ Assoc.get? poolsKey members' = none := by
  obtain ⟨key, types, nameFor, rfl⟩ := h
  refine ⟨[(key, j')], rfl, ?_⟩
  have hne : poolsKey ≠ key := by
    rintro rfl
    simp only [under, Assoc.get?_erase_self hmembers] at hj
    cases hj
  rw [Assoc.get?, if_neg hne, Assoc.get?_nil]

end Policy.Rooted

end RadixPool
