import Mathlib
import RadixPool.LoaderSet
import RadixPool.Proofs.Pool.RoundTrip
import RadixPool.Proofs.PoolSet

/-!
Loader sets as loaders, one for each container type.

* `LoaderSet.Sound`, `LoaderSet.Later`: sound loader sets, and what asking them for vectors does.
* `LoaderSet.Serves`: a loader set that has loaders for the pools of a pool set.
* `LoaderSet.Sub`: a loader set from which vectors were loaded.
* `LoaderSet.Copies`: a vector is loaded in place of one that was added.
* `LoaderSet.Serves.load`: what was added at a position is loaded from there.
* `LoaderSet.Serves.later`: loaders still have the pools after they were asked for vectors.
* `LoaderSet.Copies.eq_map`: loaded vectors are copies, and all of one type by one renaming;
  `LoaderSet.Copies.resembles` tells what remains of this when the length may have wrapped.
-/

namespace RadixPool

variable [TypeFamily]

namespace LoaderSet

variable {C D : ContainerType} {S : PoolSet} {ls ls' ls'' : LoaderSet} {next next' : NodeId}

/-! ### The loader of a type -/

@[simp] lemma loader?_registered (r : RegisteredLoader) : r.loader? r.type = some r.loader :=
  dif_pos rfl

lemma registered_loader?_of_ne {r : RegisteredLoader} (hne : r.type ≠ D) : r.loader? D = none :=
  dif_neg hne

lemma find?_update (l : Loader D.Elem) (p : ContainerType → Bool) :
    ((ls.update C D l).loaders.find? fun r => p r.source) =
      (ls.loaders.find? fun r => p r.source).map fun r =>
        if r.source = C then ⟨C, r.name, D, l⟩ else r := by
  rw [update, List.find?_map]
  congr 2
  funext r
  rw [Function.comp]
  split
  · next h => rw [h]
  · rfl

lemma loader?_update_self {l : Loader D.Elem} (hl : ls.loader? C D = some l) (l' : Loader D.Elem) :
    (ls.update C D l').loader? C D = some l' := by
  obtain ⟨r, hr, -⟩ := Option.bind_eq_some_iff.mp hl
  have hsource : r.source = C := by simpa using List.find?_some hr
  rw [loader?, find?_update l' fun T => T = C, hr, Option.map_some, if_pos hsource,
    Option.bind_some]
  exact loader?_registered ⟨C, r.name, D, l'⟩

lemma loader?_update_of_ne {C' D' : ContainerType} (hne : C' ≠ C) (l' : Loader D.Elem) :
    (ls.update C D l').loader? C' D' = ls.loader? C' D' := by
  rw [loader?, find?_update l' fun T => T = C', loader?]
  cases hr : ls.loaders.find? fun r => r.source = C' with
  | none => rfl
  | some r =>
      have hsource : r.source = C' := by simpa using List.find?_some hr
      rw [Option.map_some, if_neg fun h => hne (hsource.symm.trans h)]

/-- One type has loaders to one type only. -/
lemma loader?_unique {D' : ContainerType} {l : Loader D.Elem} {l' : Loader D'.Elem}
    (hl : ls.loader? C D = some l) (hl' : ls.loader? C D' = some l') : D' = D := by
  obtain ⟨r, hr, hrl⟩ := Option.bind_eq_some_iff.mp hl
  obtain ⟨r', hr', hrl'⟩ := Option.bind_eq_some_iff.mp hl'
  obtain rfl := Option.some.inj (hr.symm.trans hr')
  have htype : ∀ {T} {m : Loader T.Elem}, r.loader? T = some m → r.type = T := by
    intro T m hm
    by_contra hne
    rw [registered_loader?_of_ne hne] at hm
    cases hm
  exact (htype hrl').symm.trans (htype hrl)

/-- A step is run on the loader of a type, which is then replaced. -/
lemma withLoader_eq {β : Type} {l l' : Loader D.Elem} (missing : Error) {r : Except Error β}
    {step : Loader D.Elem → Fresh (Except Error β × Loader D.Elem)} (hl : ls.loader? C D = some l)
    (hstep : step l next = ((r, l'), next')) :
    ls.withLoader C D missing step next = ((r, ls.update C D l'), next') := by
  rw [withLoader, hl]
  simp only [bind, StateT.bind, hstep]
  rfl

/-- A vector is loaded by the loader of its type. -/
lemma load_eq {l l' : Loader C.Elem} {i : Nat} {r : Except Error (Vec C.Elem)}
    (hl : ls.loader? C C = some l) (hload : l.load i next = ((r, l'), next')) :
    ls.load C i next = ((r, ls.update C C l'), next') :=
  withLoader_eq _ hl hload

/-! ### Registration -/

/-- A loader with a new source and a new name is taken. -/
lemma insert_eq_ok {name : String} (l : Loader D.Elem)
    (hnew : ∀ r ∈ ls.loaders, r.source ≠ C ∧ r.name ≠ name) :
    ls.insert C name D l = .ok ⟨ls.loaders ++ [⟨C, name, D, l⟩]⟩ := by
  rw [insert, if_neg]
  simp only [List.any_eq_true, Bool.or_eq_true, decide_eq_true_eq, not_exists, not_and, not_or]
  exact hnew

/-- A loader that is taken has a new source and a new name. -/
lemma of_insert_eq_ok {name : String} {l : Loader D.Elem} (h : ls.insert C name D l = .ok ls') :
    ls' = ⟨ls.loaders ++ [⟨C, name, D, l⟩]⟩ ∧ ∀ r ∈ ls.loaders, r.source ≠ C ∧ r.name ≠ name := by
  rw [insert] at h
  split at h
  · cases h
  · next hnew =>
    simp only [List.any_eq_true, Bool.or_eq_true, decide_eq_true_eq, not_exists, not_and,
      not_or] at hnew
    exact ⟨(Except.ok.inj h).symm, hnew⟩

/-- The loader of a type was taken for it. -/
lemma exists_mem_of_loader? {l : Loader D.Elem} (hl : ls.loader? C D = some l) :
    ∃ name, ⟨C, name, D, l⟩ ∈ ls.loaders := by
  obtain ⟨r, hr, hrl⟩ := Option.bind_eq_some_iff.mp hl
  have hsource : r.source = C := by simpa using List.find?_some hr
  obtain ⟨source, name, T, m⟩ := r
  obtain rfl : source = C := hsource
  by_cases hT : T = D
  · subst hT
    have hself := loader?_registered ⟨source, name, T, m⟩
    obtain rfl : m = l := Option.some.inj (hself.symm.trans hrl)
    exact ⟨name, List.mem_of_find?_eq_some hr⟩
  · have hne : (⟨source, name, T, m⟩ : RegisteredLoader).type ≠ D := hT
    rw [registered_loader?_of_ne hne] at hrl
    cases hrl

/-- Loaders stay when others come. -/
lemma loader?_append {l : Loader D.Elem} (hl : ls.loader? C D = some l)
    (rs : List RegisteredLoader) : loader? ⟨ls.loaders ++ rs⟩ C D = some l := by
  obtain ⟨r, hr, hrl⟩ := Option.bind_eq_some_iff.mp hl
  rw [loader?, List.find?_append, hr, Option.some_or, Option.bind_some, hrl]

/-- The loader that came for a new source. -/
lemma loader?_append_self {name : String} (l : Loader D.Elem)
    (hnew : ∀ r ∈ ls.loaders, r.source ≠ C) :
    loader? ⟨ls.loaders ++ [⟨C, name, D, l⟩]⟩ C D = some l := by
  have hnone : (ls.loaders.find? fun r => r.source = C) = none := by
    rw [List.find?_eq_none]
    intro r hr
    simpa using hnew r hr
  rw [loader?, List.find?_append, hnone, Option.none_or, List.find?_singleton, if_pos (by simp),
    Option.bind_some]
  exact loader?_registered ⟨C, name, D, l⟩

/-! ### Loader sets in use -/

/-- All loaders of the set are sound, and none has built a node with an identity from `next` on. -/
def Sound (ls : LoaderSet) (next : NodeId) : Prop :=
  ∀ ⦃C D⦄ ⦃l : Loader D.Elem⦄, ls.loader? C D = some l → ∃ H, l.Sound C.shape H ∧ H.FreeFrom next

/-- A loader set that has been asked for something: it has the same loaders, each with the same
pool, and more is built. -/
structure Later (ls : LoaderSet) (next : NodeId) (ls' : LoaderSet) (next' : NodeId) : Prop where
  le : next ≤ next'
  sound : ls'.Sound next'
  sub : ∀ {C D} {l : Loader D.Elem}, ls.loader? C D = some l →
    ∃ l', ls'.loader? C D = some l' ∧ l'.pool = l.pool ∧ l.built.Sub l'.built
  old : ∀ {C D} {l' : Loader D.Elem}, ls'.loader? C D = some l' →
    ∃ l, ls.loader? C D = some l ∧ l'.pool = l.pool

/-- The loader from one type to another has built a vector for two keys. -/
def Loaded (ls : LoaderSet) (C D : ContainerType) (e : PooledVec) (u : Vec D.Elem) : Prop :=
  ∃ l h, ls.loader? C D = some l ∧ Loader.Loads C.shape l.built e h u

lemma Sound.mono (hls : ls.Sound next) (hle : next ≤ next') : ls.Sound next' := by
  intro C D l hl
  obtain ⟨H, hsound, hfree⟩ := hls hl
  exact ⟨H, hsound, fun i hi => hfree i (hle.trans hi)⟩

lemma Sound.empty : LoaderSet.empty.Sound next := fun _ _ _ hl => nomatch hl

/-- A further loader, made from a pool that was accepted. -/
lemma Sound.append (hls : ls.Sound next) (hnew : ∀ r ∈ ls.loaders, r.source ≠ C) {name : String}
    {p : Pool D.Elem} {l : Loader D.Elem} (hl : Loader.ofPool C.shape name p = .ok l) :
    Sound ⟨ls.loaders ++ [⟨C, name, D, l⟩]⟩ next := by
  intro C' D' l' hl'
  by_cases hC : C' = C
  · subst hC
    have hself : loader? ⟨ls.loaders ++ [⟨C', name, D, l⟩]⟩ C' D = some l :=
      loader?_append_self l hnew
    obtain rfl := loader?_unique hself hl'
    obtain rfl := Option.some.inj (hself.symm.trans hl')
    exact ⟨fun _ => none, .ofPool hl _, fun _ _ => rfl⟩
  · refine @hls C' D' l' ?_
    rwa [loader?, List.find?_append, List.find?_singleton, if_neg (by simpa using Ne.symm hC),
      Option.or_none] at hl'

/-- Identities may be drawn elsewhere. -/
lemma Sound.elsewhere (hls : ls.Sound next) (hle : next ≤ next') : ls.Later next ls next' :=
  ⟨hle, hls.mono hle, fun hl => ⟨_, hl, rfl, .refl _⟩, fun hl => ⟨_, hl, rfl⟩⟩

lemma Sound.refl (hls : ls.Sound next) : ls.Later next ls next := hls.elsewhere le_rfl

lemma Later.trans {next'' : NodeId} (h : ls.Later next ls' next')
    (h' : ls'.Later next' ls'' next'') :
    ls.Later next ls'' next'' := by
  refine ⟨h.le.trans h'.le, h'.sound, fun hl => ?_, fun hl'' => ?_⟩
  · obtain ⟨l', hl', hpool, hsub⟩ := h.sub hl
    obtain ⟨l'', hl'', hpool', hsub'⟩ := h'.sub hl'
    exact ⟨l'', hl'', hpool'.trans hpool, hsub.trans hsub'⟩
  · obtain ⟨l', hl', hpool'⟩ := h'.old hl''
    obtain ⟨l, hl, hpool⟩ := h.old hl'
    exact ⟨l, hl, hpool'.trans hpool⟩

lemma Loaded.mono {e : PooledVec} {u : Vec D.Elem} (hu : Loaded ls C D e u)
    (h : ls.Later next ls' next') : Loaded ls' C D e u := by
  obtain ⟨l, n, hl, hloads⟩ := hu
  obtain ⟨l', hl', -, hsub⟩ := h.sub hl
  exact ⟨l', n, hl', hloads.mono hsub⟩

/-- One of the loaders has been asked for something. -/
lemma Sound.update (hls : ls.Sound next) {l l' : Loader D.Elem} {H H' : Heap D.Elem}
    (hl : ls.loader? C D = some l) (hlater : l.Later C.shape H next H' l' next') :
    ls.Later next (ls.update C D l') next' := by
  have hself := loader?_update_self hl l'
  have hle : next ≤ next' := hlater.grows.le
  refine ⟨hle, fun C' D' m hm => ?_, fun {C' D' m} hm => ?_, fun {C' D' m} hm => ?_⟩
  · by_cases hC : C' = C
    · subst hC
      obtain rfl := loader?_unique hself hm
      obtain rfl := Option.some.inj (hself.symm.trans hm)
      exact ⟨H', hlater.sound, hlater.grows.free⟩
    · rw [loader?_update_of_ne hC] at hm
      exact hls.mono hle hm
  · by_cases hC : C' = C
    · subst hC
      obtain rfl := loader?_unique hl hm
      obtain rfl := Option.some.inj (hl.symm.trans hm)
      exact ⟨l', hself, hlater.pool, hlater.sub⟩
    · exact ⟨m, (loader?_update_of_ne hC l').trans hm, rfl, .refl _⟩
  · by_cases hC : C' = C
    · subst hC
      obtain rfl := loader?_unique hself hm
      obtain rfl := Option.some.inj (hself.symm.trans hm)
      exact ⟨l, hl, hlater.pool⟩
    · exact ⟨m, (loader?_update_of_ne hC l').symm.trans hm, rfl⟩

/-- Whatever is asked of a loader set, it stays sound and only grows, if this is so for each of its
loaders. -/
lemma Sound.withLoader {β : Type} (hls : ls.Sound next) (missing : Error)
    {step : Loader D.Elem → Fresh (Except Error β × Loader D.Elem)}
    (hstep : ∀ {l : Loader D.Elem} {H}, l.Sound C.shape H → H.FreeFrom next →
      ∃ H', l.Later C.shape H next H' (step l next).1.2 (step l next).2) :
    ls.Later next (ls.withLoader C D missing step next).1.2
      (ls.withLoader C D missing step next).2 := by
  cases hl : ls.loader? C D with
  | none =>
      rw [LoaderSet.withLoader, hl]
      exact hls.refl
  | some l =>
      obtain ⟨H, hsound, hfree⟩ := hls hl
      obtain ⟨H', hlater⟩ := hstep hsound hfree
      rw [withLoader_eq missing hl rfl]
      exact hls.update hl hlater

/-! ### Loaders for the pools of a set -/

/-- For each pool of the pool set there is a sound loader of that pool. -/
def Serves (S : PoolSet) (next : NodeId) (ls : LoaderSet) : Prop :=
  ∀ {C b}, S.get? C = some b → ∃ l H, ls.loader? C C = some l ∧ l.Sound C.shape H ∧
    H.FreeFrom next ∧ l.pool = b.pool

/-- A loader set from which vectors were loaded: more is built. -/
def Sub (ls ls' : LoaderSet) : Prop :=
  ∀ {C l}, ls.loader? C C = some l → ∃ l', ls'.loader? C C = some l' ∧ l.built.Sub l'.built

/-- A vector is loaded for the keys of one that was added. -/
def Copies (S : PoolSet) (ls : LoaderSet) (C : ContainerType) (v u : Vec C.Elem) : Prop :=
  ∃ b l e h, S.get? C = some b ∧ ls.loader? C C = some l ∧ b.key? v.root.id = some e.root ∧
    b.key? v.tail.id = some e.tail ∧ Loader.Loads C.shape l.built e h u

lemma Sub.refl (ls : LoaderSet) : ls.Sub ls := fun hl => ⟨_, hl, .refl _⟩

lemma Sub.trans (h : ls.Sub ls') (h' : ls'.Sub ls'') : ls.Sub ls'' := by
  intro C l hl
  obtain ⟨l', hl', hsub⟩ := h hl
  obtain ⟨l'', hl'', hsub'⟩ := h' hl'
  exact ⟨l'', hl'', hsub.trans hsub'⟩

/-- Loaders that serve a pool set go on doing so when they are asked for vectors. -/
lemma Serves.later (hserves : Serves S next ls) (h : ls.Later next ls' next') :
    Serves S next' ls' := by
  intro C b hb
  obtain ⟨l, -, hl, -, -, hpool⟩ := hserves hb
  obtain ⟨l', hl', hpool', -⟩ := h.sub hl
  obtain ⟨H', hsound', hfree'⟩ := h.sound hl'
  exact ⟨l', H', hl', hsound', hfree', hpool'.trans hpool⟩

lemma Copies.mono {v u : Vec C.Elem} (h : Copies S ls C v u) (hsub : ls.Sub ls') :
    Copies S ls' C v u := by
  obtain ⟨b, l, e, h, hb, hl, hroot, htail, hu⟩ := h
  obtain ⟨l', hl', hbuilt⟩ := hsub hl
  exact ⟨b, l', e, h, hb, hl', hroot, htail, hu.mono hbuilt⟩

/-- What was added at a position is loaded from there. -/
theorem Serves.load (hserves : Serves S next ls) {b : Builder C.Elem} (hb : S.get? C = some b)
    (hd : b.pool.Disjoint) {v : Vec C.Elem} {i : Nat} (hi : b.Holds i v) :
    ∃ u ls' next', ls.load C i next = ((.ok u, ls'), next') ∧ Serves S next' ls' ∧ ls.Sub ls' ∧
      Copies S ls' C v u := by
  obtain ⟨l, H, hl, hsound, hfree, hpool⟩ := hserves hb
  obtain ⟨e, he, hroot, htail⟩ := hi
  obtain ⟨u, h, H', l', next', hload, hlater, hu⟩ :=
    hsound.load_eq_ok C.valid hfree (hpool ▸ hd) (hpool ▸ he)
  have hself := loader?_update_self hl l'
  refine ⟨u, ls.update C C l', next', load_eq hl hload, fun {D c} hc => ?_, fun {D c} hc => ?_,
    ⟨b, l', e, h, hb, hself, hroot, htail, hu⟩⟩
  · by_cases hD : D = C
    · subst hD
      obtain rfl := Option.some.inj (hb.symm.trans hc)
      exact ⟨l', H', hself, hlater.sound, hlater.grows.free, hlater.pool.trans hpool⟩
    · obtain ⟨m, G, hm, hmsound, hmfree, hmpool⟩ := hserves hc
      exact ⟨m, G, (loader?_update_of_ne hD l').trans hm, hmsound,
        fun j hj => hmfree j (hlater.grows.le.trans hj), hmpool⟩
  · by_cases hD : D = C
    · subst hD
      obtain rfl := Option.some.inj (hl.symm.trans hc)
      exact ⟨l', hself, hlater.sub⟩
    · exact ⟨c, (loader?_update_of_ne hD l').trans hc, .refl _⟩

/-! ### Renaming -/

/-- The identities that the nodes of each type have after loading. -/
def copyId (S : PoolSet) (ls : LoaderSet) (next : NodeId) (C : ContainerType) : NodeId → NodeId :=
  match S.get? C, ls.loader? C C with
  | some b, some l => b.copyId l.built next
  | _, _ => id

variable {H : (C : ContainerType) → Heap C.Elem}

/-- Different nodes of one type have different copies. -/
theorem copyId_injective (hS : S.Sound H) (hserves : Serves S next ls) (C : ContainerType) :
    Function.Injective (copyId S ls next C) := by
  rw [copyId]
  split
  · next b l hb hl =>
    obtain ⟨l', G, hl', hsound, hfree, hpool⟩ := hserves hb
    obtain rfl := Option.some.inj (hl.symm.trans hl')
    exact (hS hb).1.copyId_injective (hpool ▸ hsound.built) hfree
  · exact Function.injective_id

/-- A vector that is loaded resembles the copy of the one that was added. -/
lemma Copies.resembles (hS : S.Sound H) (hserves : Serves S next ls) {v u : Vec C.Elem}
    (hcopies : Copies S ls C v u) (hk : v.Known (H C)) :
    u.Resembles (v.map (copyId S ls next C) id) := by
  obtain ⟨b, l, e, h', hb, hl, hroot, htail, hu⟩ := hcopies
  obtain ⟨l', G, hl', hsound, hfree, hpool⟩ := hserves hb
  obtain rfl := Option.some.inj (hl.symm.trans hl')
  have hbuilt : (b.pool.map id).Built l.plan G l.built := b.pool.map_id.symm ▸ hpool ▸ hsound.built
  have hid : copyId S ls next C = b.copyId l.built next := by rw [copyId, hb, hl]
  rw [hid]
  exact (hS hb).1.resembles_of_loads hbuilt hk hroot htail hu

/-- It is the copy if the vector that was added is formed. -/
theorem Copies.eq_map_of_formed (hS : S.Sound H) (hserves : Serves S next ls) {v u : Vec C.Elem}
    (hcopies : Copies S ls C v u) {h : Nat} (hv : v.Formed C.shape h) (hk : v.Known (H C)) :
    u = v.map (copyId S ls next C) id := by
  have hresembles := hcopies.resembles hS hserves hk
  obtain ⟨b, l, e, h', hb, hl, hroot, htail, hu⟩ := hcopies
  exact hu.formed.eq_of_resembles (hv.map _ id) hresembles

/-- A vector that is loaded is the copy of the sound one that was added. -/
theorem Copies.eq_map (hS : S.Sound H) (hserves : Serves S next ls) {v u : Vec C.Elem}
    (hcopies : Copies S ls C v u) {h : Nat} (hv : v.Sound C.shape h) (hk : v.Known (H C)) :
    u = v.map (copyId S ls next C) id :=
  hcopies.eq_map_of_formed hS hserves hv.formed hk

end LoaderSet

end RadixPool
