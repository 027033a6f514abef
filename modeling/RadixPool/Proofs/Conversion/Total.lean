import Mathlib
import RadixPool.Proofs.Conversion.Session
import RadixPool.Proofs.Pool.Renaming

/-!
Conversions that never fail.

If all element functions are total, then converting a pool does no more than sending its elements
through the function of its type, and converting a pool set gives a loader for each of the pools
that come out.

* `Conversion.Total`: an element function without failures and effects, between types of one shape.
* `Conversion.Total.convert_eq`: the pool converted by it.
* `PoolSet.convert_eq`: the loaders for the converted pools of a set.
-/

namespace RadixPool

variable {m : Type → Type} [Monad m] {ε : Type}

/-! ### One pool -/

namespace Pool

variable [LawfulMonad m] {α β : Type} {g : α → β}

lemma convertLeaves_pure (g : α → β) (done : KeyMap (List β)) (leaves : List (Key × List α)) :
    convertLeaves (m := m) (ε := ε) (fun x => pure (g x)) done leaves =
      pure (leaves.foldl (fun done e => done.insert e.1 (e.2.map g)) done) := by
  induction leaves generalizing done with
  | nil => rfl
  | cons e leaves ih =>
      rw [convertLeaves, List.mapM_pure, pure_bind, ih, List.foldl_cons]

/-- The leaves are converted under the same keys. -/
lemma foldl_insert_map (g : α → β) (leaves : KeyMap (List α)) :
    leaves.entries.foldl (fun done e => done.insert e.1 (e.2.map g)) ∅ =
      leaves.mapValues (List.map g) := by
  calc leaves.entries.foldl (fun done e => done.insert e.1 (e.2.map g)) ∅
    _ = KeyMap.ofList (leaves.entries.map fun e => (e.1, e.2.map g)) := by
          rw [KeyMap.ofList, List.foldl_map]
    _ = leaves.mapValues (List.map g) :=
          KeyMap.ofList_entries (leaves.mapValues (List.map g))

/-- With a total function the pool is converted element by element. -/
theorem convert_pure [ToString ε] (name : String) (g : α → β) (p : Pool α) :
    p.convert (m := m) (ε := ε) name (fun x => pure (g x)) = pure (p.map g) := by
  rw [convert, convertLeaves_pure, foldl_insert_map]
  exact pure_bind (m := m) _ _

end Pool

variable [TypeFamily]

/-- A conversion that sends elements through `g`, with neither failures nor effects, and keeps the
shape. -/
structure Conversion.Total (c : Conversion m ε) (g : c.source.Elem → c.target.Elem) : Prop where
  apply : ∀ x, c.apply x = pure (g x)
  shape : c.target.shape = c.source.shape

variable [ToString ε]

namespace Conversion

variable {c : Conversion m ε}

/-- With one shape the pool is converted, and the result must be accepted. -/
lemma load_of_eq (hshape : c.target.shape = c.source.shape) (name : String)
    (p : Pool c.source.Elem) :
    c.load name p = (do
      let pool ← p.convert name c.apply
      ExceptT.mk (pure (Loader.ofPool c.target.shape name pool))) := by
  rw [load]
  exact if_neg (not_not.mpr hshape)

/-- With two shapes nothing is converted. -/
lemma load_of_ne [LawfulMonad m] (hshape : c.target.shape ≠ c.source.shape) (name : String)
    (p : Pool c.source.Elem) :
    c.load name p = throw (.shapeMismatch name c.source.shape (some c.target.shape.bits)
      (some c.target.shape.leafBits)) := by
  rw [load]
  simp only [hshape, ne_eq, not_false_eq_true, if_true]
  exact ExceptT.ext (by simp)

end Conversion

variable [LawfulMonad m]

namespace Conversion.Total

variable {c : Conversion m ε} {g : c.source.Elem → c.target.Elem}

/-- The pool converted by a total function. -/
theorem convert_eq (hc : c.Total g) (name : String) (p : Pool c.source.Elem) :
    p.convert name c.apply = pure (p.map g) := by
  rw [funext hc.apply, Pool.convert_pure]

/-- The loader for the converted pool. -/
lemma load_eq (hc : c.Total g) {name : String} {p : Pool c.source.Elem}
    {l : Loader c.target.Elem} (hl : Loader.ofPool c.source.shape name (p.map g) = .ok l) :
    c.load name p = pure l := by
  rw [load_of_eq hc.shape, hc.convert_eq, hc.shape, pure_bind, hl]
  rfl

end Conversion.Total

/-! ### Converted pool sets -/

namespace PoolSet

variable {t : Conversions m ε} {g : (c : Conversion m ε) → c.source.Elem → c.target.Elem}

omit [LawfulMonad m] in
/-- A pool with a conversion is loaded, and the loader is registered. -/
lemma convertAll_of_find? {c : Conversion m ε} (hfind : t.find? c.source = some c) (ls : LoaderSet)
    (name : String) (b : Builder c.source.Elem) (ps : List DeclaredPool) :
    convertAll t ls (⟨name, c.source, b⟩ :: ps) = (do
      let loader ← c.load name b.pool
      convertAll t (← ExceptT.mk (pure (ls.insert c.source name c.target loader))) ps) := by
  have hbuilder : DeclaredPool.builder? ⟨name, c.source, b⟩ c.source = some b :=
    DeclaredPool.builder?_self _
  rw [convertAll, hfind]
  dsimp only
  rw [hbuilder]

/-- The loader for the first pool is taken, and the others follow. -/
lemma convertAll_cons {c : Conversion m ε} (hfind : t.find? c.source = some c)
    {f : c.source.Elem → c.target.Elem} (hc : c.Total f) {name : String}
    {b : Builder c.source.Elem} {l : Loader c.target.Elem}
    (hl : Loader.ofPool c.source.shape name (b.pool.map f) = .ok l) {ls : LoaderSet}
    (hnew : ∀ r ∈ ls.loaders, r.source ≠ c.source ∧ r.name ≠ name) (ps : List DeclaredPool) :
    convertAll t ls (⟨name, c.source, b⟩ :: ps) =
      convertAll t ⟨ls.loaders ++ [⟨c.source, name, c.target, l⟩]⟩ ps := by
  rw [convertAll_of_find? hfind, hc.load_eq hl, pure_bind, LoaderSet.insert_eq_ok l hnew]
  exact pure_bind _ _

/-- The pools of a set are converted in turn, and each gives its loader. -/
theorem convertAll_eq {ps : List DeclaredPool} {ls : LoaderSet}
    (htypes : (ps.map DeclaredPool.type).Nodup) (hnames : (ps.map DeclaredPool.name).Nodup)
    (hnew : ∀ r ∈ ls.loaders, r.source ∉ ps.map DeclaredPool.type ∧
      r.name ∉ ps.map DeclaredPool.name)
    (ht : ∀ p ∈ ps, ∃ c, t.find? p.type = some c ∧ c.Total (g c))
    (haccepted : ∀ p ∈ ps, ∃ l, Loader.ofPool p.type.shape p.name p.builder.pool = .ok l)
    (hls : ∀ next, ls.Sound next) :
    ∃ converted, convertAll t ls ps = pure converted ∧ (∀ next, converted.Sound next) ∧
      (∀ {C D} {l : Loader D.Elem}, ls.loader? C D = some l → converted.loader? C D = some l) ∧
      ∀ {c b}, t.find? c.source = some c → builderIn c.source ps = some b →
        converted.Converts b (g c) := by
  induction ps generalizing ls with
  | nil => exact ⟨ls, rfl, hls, id, fun _ hb => nomatch hb⟩
  | cons p ps ih =>
      obtain ⟨name, C, b⟩ := p
      rw [List.map_cons, List.nodup_cons] at htypes hnames
      obtain ⟨⟨c, hfind, hc⟩, htail⟩ := List.forall_mem_cons.mp ht
      obtain ⟨⟨l₀, hl₀⟩, hacceptedTail⟩ := List.forall_mem_cons.mp haccepted
      obtain rfl : c.source = C := by simpa [Conversions.find?] using List.find?_some hfind
      obtain ⟨plan, hl⟩ := Loader.ofPool_map hl₀ (g c) name
      set l : Loader c.target.Elem := ⟨name, b.pool.map (g c), plan, ∅⟩
      have hfree : ∀ r ∈ ls.loaders, r.source ≠ c.source ∧ r.name ≠ name := by
        intro r hr
        obtain ⟨hsource, hname⟩ := hnew r hr
        exact ⟨List.ne_of_not_mem_cons hsource, List.ne_of_not_mem_cons hname⟩
      have hsources : ∀ r ∈ ls.loaders, r.source ≠ c.source := fun r hr => (hfree r hr).1
      have hnew' : ∀ r ∈ ls.loaders ++ [⟨c.source, name, c.target, l⟩],
          r.source ∉ ps.map DeclaredPool.type ∧ r.name ∉ ps.map DeclaredPool.name := by
        intro r hr
        rcases List.mem_append.mp hr with hr | hr
        · obtain ⟨hsource, hname⟩ := hnew r hr
          exact ⟨List.not_mem_of_not_mem_cons hsource, List.not_mem_of_not_mem_cons hname⟩
        · obtain rfl := List.mem_singleton.mp hr
          exact ⟨htypes.1, hnames.1⟩
      obtain ⟨converted, hrest, hsound, hkeep, hconverts⟩ :=
        ih htypes.2 hnames.2 hnew' htail hacceptedTail fun next => (hls next).append hsources hl
      refine ⟨converted, (convertAll_cons hfind hc hl hfree ps).trans hrest, hsound,
        fun hold => hkeep (LoaderSet.loader?_append hold _), fun {c' b'} hfind' hb' => ?_⟩
      by_cases hsame : c.source = c'.source
      · obtain rfl : c = c' := by
          rw [← hsame, hfind] at hfind'
          exact Option.some.inj hfind'
        rw [builderIn_cons_self ⟨name, c.source, b⟩] at hb'
        obtain rfl := Option.some.inj hb'
        exact ⟨l, hkeep (LoaderSet.loader?_append_self l hsources), rfl⟩
      · rw [builderIn_cons_of_ne hsame] at hb'
        exact hconverts hfind' hb'

/-- Total functions for all types of a set convert it, and there is a loader for each converted
pool. -/
theorem convert_eq {S : PoolSet} (htypes : (S.pools.map DeclaredPool.type).Nodup)
    (hnames : (S.pools.map DeclaredPool.name).Nodup)
    (ht : ∀ p ∈ S.pools, ∃ c, t.find? p.type = some c ∧ c.Total (g c))
    (haccepted : ∀ p ∈ S.pools,
      ∃ l, Loader.ofPool p.type.shape p.name p.builder.pool = .ok l) :
    ∃ converted, S.convert t = pure converted ∧ (∀ next, converted.Sound next) ∧
      ∀ {c b}, t.find? c.source = some c → S.get? c.source = some b →
        converted.Converts b (g c) := by
  obtain ⟨converted, hconvert, hsound, -, hconverts⟩ := convertAll_eq htypes hnames
    (fun r hr => absurd hr List.not_mem_nil) ht haccepted fun _ => LoaderSet.Sound.empty
  exact ⟨converted, hconvert, hsound, hconverts⟩

end PoolSet

end RadixPool
