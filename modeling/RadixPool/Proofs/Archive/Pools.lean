import Mathlib
import RadixPool.Archive.Basic
import RadixPool.Proofs.LoaderSet

/-!
The pools of an archive and their loaders.

Saving and loading ask the policy for the same names in the same order, so every loader is made from
the pool that was declared for its type.

* `Policy.Faithful`: policies that find a record where they have put it, and want the same pools
  for all records; `Policy.faithful_auto`, `Policy.faithful_under`: the automatic one and those
  that list their pools.
* `Policy.Names`: the names that a policy gives when it is asked in turn.
* `declareAll_eq_ok`: the pools declared.
* `DeclaredPool.Loadable`: a pool that is read from its document and accepted.
* `loadersOf_eq_ok`: the loaders made from the documents of the pools.
-/

namespace RadixPool

variable [TypeFamily] {R : RecordType} {P : Policy R}

namespace Policy

/-- The policy wants the same pools for all records, and finds a record where it has put it. -/
structure Faithful (P : Policy R) : Prop where
  types : ∀ r r', P.types r = P.types r'
  unwrap : ∀ {j members}, P.wrap j = .ok members → P.unwrap members = .ok j

/-- A policy that puts the record under a key finds it there. -/
lemma faithful_under (key : String) (types : List ContainerType)
    (nameFor : Nat → ContainerType → Except Error String) :
    (under (R := R) key (fun _ => types) nameFor).Faithful := by
  refine ⟨fun _ _ => rfl, fun {j members} hwrap => ?_⟩
  cases hwrap
  simp [under, Assoc.get?]

lemma faithful_auto (R : RecordType) : (auto R).Faithful := faithful_under _ _ _

lemma faithful_named (key : String) (pools : List (ContainerType × String)) :
    (named R key pools).Faithful :=
  faithful_under _ _ _

/-- The policy gives these names when it is asked for them in turn. -/
def Names (P : Policy R) : Nat → List (String × ContainerType) → Prop
  | _, [] => True
  | asked, (name, C) :: hs => P.nameFor asked C = .ok name ∧ Names P (asked + 1) hs

end Policy

/-! ### Declarations -/

/-- The pools that a policy wants are declared, with the names it gives. -/
theorem declareAll_eq_ok {asked : Nat} {S S' : PoolSet} {Cs : List ContainerType}
    (hS : S.Declared) (hdecl : declareAll P asked S Cs = .ok S') :
    S'.Declared ∧ ∃ hs, S'.pools.map DeclaredPool.header = S.pools.map DeclaredPool.header ++ hs ∧
      hs.map Prod.snd = Cs ∧ P.Names asked hs := by
  induction Cs generalizing asked S with
  | nil =>
      cases hdecl
      exact ⟨hS, [], (List.append_nil _).symm, rfl, trivial⟩
  | cons C Cs ih =>
      rw [declareAll] at hdecl
      obtain ⟨name, hname, hdecl⟩ := bind_eq_ok_iff.mp hdecl
      obtain ⟨S₁, hS₁, hdecl⟩ := bind_eq_ok_iff.mp hdecl
      obtain ⟨hS', hs, hheaders, htypes, hnames⟩ := ih (hS.declare hS₁) hdecl
      refine ⟨hS', (name, C) :: hs, ?_, by rw [List.map_cons, htypes], hname, hnames⟩
      rw [hheaders, (PoolSet.declare_eq_ok hS₁).1, List.map_append, List.append_assoc]
      rfl

/-! ### Loaders -/

/-- A pool that is read from its document and accepted. -/
structure DeclaredPool.Loadable (p : DeclaredPool) : Prop where
  read : Pool.ofJson p.type.elem.ofJson? p.name p.type.shape p.toJson = .ok p.builder.pool
  accepted : ∃ l, Loader.ofPool p.type.shape p.name p.builder.pool = .ok l

/-- A loader is made from the document under the name of a pool, which is taken away. -/
lemma loadersOf_cons {p : DeclaredPool} {asked : Nat} {pools : List (String × Json)}
    {ls : LoaderSet} {l : Loader p.type.Elem} (hname : P.nameFor asked p.type = .ok p.name)
    (hget : Assoc.get? p.name pools = some p.toJson)
    (hread : Pool.ofJson p.type.elem.ofJson? p.name p.type.shape p.toJson = .ok p.builder.pool)
    (hl : Loader.ofPool p.type.shape p.name p.builder.pool = .ok l)
    (hnew : ∀ r ∈ ls.loaders, r.source ≠ p.type ∧ r.name ≠ p.name) (Cs : List ContainerType) :
    loadersOf P asked pools ls (p.type :: Cs) =
      loadersOf P (asked + 1) (Assoc.erase p.name pools)
        ⟨ls.loaders ++ [⟨p.type, p.name, p.type, l⟩]⟩ Cs := by
  rw [loadersOf, bind_of_ok hname, hget]
  dsimp only
  rw [bind_of_ok hread, bind_of_ok hl, bind_of_ok (LoaderSet.insert_eq_ok l hnew)]

/-- Loaders are made from the documents of all pools, each from the pool of its type, and no
document is left. -/
theorem loadersOf_eq_ok {asked : Nat} {ps : List DeclaredPool} {pools : List (String × Json)}
    {ls : LoaderSet} (hnames : P.Names asked (ps.map DeclaredPool.header))
    (hpools : pools.Perm (ps.map fun p => (p.name, p.toJson)))
    (htypes : (ps.map DeclaredPool.type).Nodup) (hdistinct : (ps.map DeclaredPool.name).Nodup)
    (hload : ∀ p ∈ ps, p.Loadable)
    (hnew : ∀ l ∈ ls.loaders, l.source ∉ ps.map DeclaredPool.type ∧
      l.name ∉ ps.map DeclaredPool.name) :
    ∃ ls', loadersOf P asked pools ls (ps.map DeclaredPool.type) = .ok (ls', []) ∧
      (∀ {C} {l : Loader C.Elem}, ls.loader? C C = some l → ls'.loader? C C = some l) ∧
      ∀ {C b}, PoolSet.builderIn C ps = some b → ∃ name l, ls'.loader? C C = some l ∧
        Loader.ofPool C.shape name b.pool = .ok l := by
  induction ps generalizing asked pools ls with
  | nil =>
      obtain rfl : pools = [] := hpools.eq_nil
      exact ⟨ls, rfl, id, fun hb => nomatch hb⟩
  | cons p ps ih =>
      obtain ⟨hname, hnames⟩ := hnames
      obtain ⟨⟨hread, l, hl⟩, hload⟩ := List.forall_mem_cons.mp hload
      rw [List.map_cons, List.nodup_cons] at htypes hdistinct
      have hkeys : (pools.map Prod.fst).Perm ((p :: ps).map DeclaredPool.name) := by
        have hperm := hpools.map Prod.fst
        rwa [List.map_map] at hperm
      have hget : Assoc.get? p.name pools = some p.toJson := by
        refine Assoc.get?_of_mem (hkeys.nodup_iff.mpr (List.nodup_cons.mpr hdistinct)) ?_
        exact hpools.mem_iff.mpr List.mem_cons_self
      have hrest : (Assoc.erase p.name pools).Perm (ps.map fun p => (p.name, p.toJson)) :=
        ((Assoc.perm_erase hget).symm.trans hpools).cons_inv
      have hfree : ∀ r ∈ ls.loaders, r.source ≠ p.type ∧ r.name ≠ p.name := by
        intro r hr
        obtain ⟨hsource, hname⟩ := hnew r hr
        exact ⟨List.ne_of_not_mem_cons hsource, List.ne_of_not_mem_cons hname⟩
      have hnew' : ∀ r ∈ (⟨ls.loaders ++ [⟨p.type, p.name, p.type, l⟩]⟩ : LoaderSet).loaders,
          r.source ∉ ps.map DeclaredPool.type ∧ r.name ∉ ps.map DeclaredPool.name := by
        intro r hr
        rcases List.mem_append.mp hr with hr | hr
        · obtain ⟨hsource, hname⟩ := hnew r hr
          exact ⟨List.not_mem_of_not_mem_cons hsource, List.not_mem_of_not_mem_cons hname⟩
        · obtain rfl := List.mem_singleton.mp hr
          exact ⟨htypes.1, hdistinct.1⟩
      obtain ⟨ls', hls', hkeep, hserve⟩ :=
        ih hnames hrest htypes.2 hdistinct.2 hload hnew'
      have hself : ls'.loader? p.type p.type = some l :=
        hkeep (LoaderSet.loader?_append_self l fun r hr => (hfree r hr).1)
      refine ⟨ls', ?_, fun hold => hkeep (LoaderSet.loader?_append hold _), fun {C b} hb => ?_⟩
      · rw [List.map_cons, loadersOf_cons hname hget hread hl hfree, hls']
      · by_cases hC : p.type = C
        · subst hC
          rw [PoolSet.builderIn_cons_self] at hb
          obtain rfl := Option.some.inj hb
          exact ⟨p.name, l, hself, hl⟩
        · rw [PoolSet.builderIn_cons_of_ne hC] at hb
          exact hserve hb

end RadixPool
