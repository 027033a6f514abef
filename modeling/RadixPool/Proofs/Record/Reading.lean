import Mathlib
import RadixPool.Proofs.Pool.Reading
import RadixPool.Proofs.Record.Document

/-!
Records as documents: what was read.

A record is read from a document of any origin. Whatever it says, every container that was read is
the one that a loader gives for the position in its place, and stays so while others are read.

* `Schema.Reads`: a value was read from a document.
* `LoaderSet.Gives`: a loader gives a container for a position.
* `Schema.reads_of_decode`: what is read, with what becomes of the loaders.
* `Schema.Reads.mirrors`: what is read from a document that stands for a value mirrors the value.
-/

namespace RadixPool

variable [TypeFamily]

namespace Schema

mutual

/-- A value was read from a document; `D C u i` says that position `i` gave the container `u`. -/
def Reads (D : (C : ContainerType) → Vec C.Elem → Nat → Prop) : (s : Schema) → s.Value → Json → Prop
  | .container C, u, j => ∃ i, j.natBelow? Word.count = some i ∧ D C u i
  | .value t, x, j => t.ofJson? j = some x
  | .record _ fields, us, j => ∃ members, j = .obj members ∧ ReadsAll D fields us members

/-- Some values were read from the members of an object. -/
def ReadsAll (D : (C : ContainerType) → Vec C.Elem → Nat → Prop) :
    (fields : List (FieldName × Schema)) → Values fields → List (String × Json) → Prop
  | [], _, _ => True
  | (f, s) :: fields, (u, us), members =>
    (∃ j, Assoc.get? f.key members = some j ∧ Reads D s u j) ∧ ReadsAll D fields us members

end

variable {D D' : (C : ContainerType) → Vec C.Elem → Nat → Prop}

mutual

/-- What was read does not change while positions keep their meaning. -/
theorem Reads.imp (h : ∀ {C u i}, D C u i → D' C u i) :
    (s : Schema) → {u : s.Value} → {j : Json} → Reads D s u j → Reads D' s u j
  | .container C, u, j, hj => by
      obtain ⟨i, hi, hu⟩ := hj
      exact ⟨i, hi, h hu⟩
  | .value t, x, j, hj => hj
  | .record _ fields, us, j, hj => by
      obtain ⟨members, rfl, hall⟩ := hj
      exact ⟨members, rfl, ReadsAll.imp h fields hall⟩

/-- The same for the members of an object. -/
theorem ReadsAll.imp (h : ∀ {C u i}, D C u i → D' C u i) :
    (fields : List (FieldName × Schema)) → {us : Values fields} → {members : List (String × Json)} →
      ReadsAll D fields us members → ReadsAll D' fields us members
  | [], _, _, _ => trivial
  | (f, s) :: fields, (u, us), members, hall => by
      obtain ⟨⟨j, hj, hs⟩, hrest⟩ := hall
      exact ⟨⟨j, hj, Reads.imp h s hs⟩, ReadsAll.imp h fields hrest⟩

end

mutual

/-- Every container that was read was given for a position that is a word. -/
theorem Reads.container : (s : Schema) → {u : s.Value} → {j : Json} → Reads D s u j →
    ∀ c ∈ containers s u, ∃ i, i < Word.count ∧ D c.1 c.2 i
  | .container C, u, j, hj, c, hc => by
      rw [containers, List.mem_singleton] at hc
      subst hc
      obtain ⟨i, hi, hu⟩ := hj
      exact ⟨i, Json.lt_of_natBelow? hi, hu⟩
  | .value _, _, _, _, c, hc => by
      rw [containers] at hc
      cases hc
  | .record _ fields, us, j, hj, c, hc => by
      rw [containers] at hc
      obtain ⟨members, -, hall⟩ := hj
      exact ReadsAll.container fields hall c hc

/-- The same for some values. -/
theorem ReadsAll.container : (fields : List (FieldName × Schema)) → {us : Values fields} →
    {members : List (String × Json)} → ReadsAll D fields us members →
    ∀ c ∈ containersAll fields us, ∃ i, i < Word.count ∧ D c.1 c.2 i
  | [], _, _, _, c, hc => nomatch hc
  | (_, s) :: fields, (u, us), members, hall, c, hc => by
      rw [containersAll, List.mem_append] at hc
      obtain ⟨⟨j, -, hs⟩, hrest⟩ := hall
      rcases hc with hc | hc
      · exact Reads.container s hs c hc
      · exact ReadsAll.container fields hrest c hc

end

mutual

/-- What is read from a document that stands for a value mirrors the value: containers in one place
belong to one position. -/
theorem Reads.mirrors : (s : Schema) → {v u : s.Value} → {j : Json} → s.RoundTrips v →
    Denotes D s v j → Reads D' s u j → Mirrors (fun C v u => ∃ i, D C v i ∧ D' C u i) s v u
  | .container C, v, u, j, _, hv, hu => by
      obtain ⟨i, rfl, hv⟩ := hv
      obtain ⟨i', hi, hu⟩ := hu
      obtain rfl := Json.eq_of_natBelow?_nat hi
      exact ⟨_, hv, hu⟩
  | .value t, x, y, j, hrw, hx, hy => by
      obtain rfl : j = t.toJson x := hx
      exact Option.some.inj (Eq.trans (Eq.symm hy) hrw)
  | .record _ fields, vs, us, j, hrw, hvs, hus => by
      obtain ⟨members, rfl, hall⟩ := hvs
      obtain ⟨members', heq, hall'⟩ := hus
      obtain rfl := Json.obj.inj heq
      exact ReadsAll.mirrors fields hrw hall hall'

/-- The same for the members of an object. -/
theorem ReadsAll.mirrors : (fields : List (FieldName × Schema)) → {vs us : Values fields} →
    {members : List (String × Json)} → RoundTripsAll fields vs → DenotesAll D fields vs members →
    ReadsAll D' fields us members → MirrorsAll (fun C v u => ∃ i, D C v i ∧ D' C u i) fields vs us
  | [], _, _, _, _, _, _ => trivial
  | (f, s) :: fields, (v, vs), (u, us), members, hrw, hvs, hus => by
      obtain ⟨⟨j, hj, hv⟩, hvs⟩ := hvs
      obtain ⟨⟨j', hj', hu⟩, hus⟩ := hus
      obtain rfl := Option.some.inj (hj.symm.trans hj')
      exact ⟨Reads.mirrors s hrw.1 hv hu, ReadsAll.mirrors fields hrw.2 hvs hus⟩

end

variable {M M' : (C : ContainerType) → Vec C.Elem → Vec C.Elem → Prop}

mutual

/-- Values still mirror each other in a relation that is weaker on the containers of the first
one. -/
theorem Mirrors.imp_of_mem : (s : Schema) → {v u : s.Value} →
    (∀ c ∈ containers s v, ∀ u, M c.1 c.2 u → M' c.1 c.2 u) → Mirrors M s v u → Mirrors M' s v u
  | .container C, v, u, h, hm =>
      h ⟨C, v⟩ (by rw [containers]; exact List.mem_singleton_self _) u hm
  | .value _, _, _, _, hm => hm
  | .record _ fields, vs, us, h, hm =>
      MirrorsAll.imp_of_mem fields (by rw [containers] at h; exact h) hm

/-- The same for some values. -/
theorem MirrorsAll.imp_of_mem : (fields : List (FieldName × Schema)) → {vs us : Values fields} →
    (∀ c ∈ containersAll fields vs, ∀ u, M c.1 c.2 u → M' c.1 c.2 u) →
      MirrorsAll M fields vs us → MirrorsAll M' fields vs us
  | [], _, _, _, _ => trivial
  | (_, s) :: fields, (v, vs), (u, us), h, hm => by
      rw [containersAll] at h
      exact ⟨Mirrors.imp_of_mem s (fun c hc => h c (List.mem_append_left _ hc)) hm.1,
        MirrorsAll.imp_of_mem fields (fun c hc => h c (List.mem_append_right _ hc)) hm.2⟩

end

end Schema

/-! ### Reading -/

variable {ls ls' : LoaderSet} {next next' : NodeId}

namespace LoaderSet

/-- The loader of a type has built a container for the keys at a position of its pool. -/
def Gives (ls : LoaderSet) (C : ContainerType) (u : Vec C.Elem) (i : Nat) : Prop :=
  ∃ l e h, ls.loader? C C = some l ∧ l.pool.vectors[i]? = some e ∧
    Loader.Loads C.shape l.built e h u

lemma Gives.mono {C : ContainerType} {u : Vec C.Elem} {i : Nat} (hu : ls.Gives C u i)
    (h : ls.Later next ls' next') : ls'.Gives C u i := by
  obtain ⟨l, e, n, hl, he, hloads⟩ := hu
  obtain ⟨l', hl', hpool, hsub⟩ := h.sub hl
  exact ⟨l', e, n, hl', hpool ▸ he, hloads.mono hsub⟩

end LoaderSet

namespace Schema

/-- A container that is loaded is given for its position. -/
lemma gives_of_load (hls : ls.Sound next) {C : ContainerType} {i : Nat} {u : Vec C.Elem}
    (hload : Loading.load C i (ls, next) = (.ok u, ls', next')) :
    ls.Later next ls' next' ∧ ls'.Gives C u i := by
  have hrun : ((ls.load C i next).1.1, (ls.load C i next).1.2, (ls.load C i next).2) =
      (.ok u, ls', next') := hload
  cases hl : ls.loader? C C with
  | none =>
      rw [LoaderSet.load, LoaderSet.withLoader, hl] at hrun
      cases hrun
  | some l =>
      obtain ⟨H, hsound, hfree⟩ := hls hl
      cases he : l.pool.vectors[i]? with
      | none =>
          have hnone : l.load i next = ((.error (.dangling l.name (.vector i)), l), next) := by
            rw [Loader.load, he]
            rfl
          rw [LoaderSet.load_eq hl hnone] at hrun
          cases hrun
      | some e =>
          obtain ⟨H', hlater, hloads⟩ := hsound.vecOf C.valid hfree e
          rw [LoaderSet.load_eq hl (Loader.load_of_getElem? he), Prod.mk.injEq,
            Prod.mk.injEq] at hrun
          obtain ⟨hu, rfl, rfl⟩ := hrun
          obtain ⟨h, hu⟩ := hloads u hu
          exact ⟨hls.update hl hlater, _, e, h, LoaderSet.loader?_update_self hl _,
            hlater.pool ▸ he, hu⟩

mutual

/-- Whatever is read, each container is given for its position, also after all that is read
later. -/
theorem reads_of_decode : (s : Schema) → (key : String) → {j : Json} → {u : s.Value} →
    {ls ls' : LoaderSet} → {next next' : NodeId} → ls.Sound next →
    decode key s j (ls, next) = (.ok u, ls', next') →
      ls.Later next ls' next' ∧ Reads ls'.Gives s u j
  | .container C, key, j, u, ls, ls', next, next', hls, h => by
      cases hi : j.natBelow? Word.count with
      | none =>
          rw [decode, hi] at h
          cases h
      | some i =>
          rw [decode, hi] at h
          obtain ⟨hlater, hu⟩ := gives_of_load hls h
          exact ⟨hlater, i, hi, hu⟩
  | .value t, key, j, x, ls, ls', next, next', hls, h => by
      cases hx : t.ofJson? j with
      | none =>
          rw [decode, hx] at h
          cases h
      | some y =>
          rw [decode, hx] at h
          cases h
          exact ⟨hls.refl, hx⟩
  | .record label fields, key, j, us, ls, ls', next, next', hls, h => by
      rw [decode] at h
      obtain ⟨members, st, hmembers, hall⟩ := run_bind_eq_ok_iff.mp h
      cases j <;> cases hmembers
      obtain ⟨hlater, hreads⟩ := readsAll_of_decodeAll fields hls hall
      exact ⟨hlater, _, rfl, hreads⟩

/-- The same for the members of an object. -/
theorem readsAll_of_decodeAll : (fields : List (FieldName × Schema)) →
    {members : List (String × Json)} → {us : Values fields} → {ls ls' : LoaderSet} →
    {next next' : NodeId} → ls.Sound next →
    decodeAll members fields (ls, next) = (.ok us, ls', next') →
      ls.Later next ls' next' ∧ ReadsAll ls'.Gives fields us members
  | [], members, us, ls, ls', next, next', hls, h => by
      rw [decodeAll] at h
      cases h
      exact ⟨hls.refl, trivial⟩
  | (f, s) :: fields, members, us, ls, ls', next, next', hls, h => by
      cases hj : Assoc.get? f.key members with
      | none =>
          rw [decodeAll, hj] at h
          cases h
      | some j =>
          rw [decodeAll, hj] at h
          obtain ⟨u, ⟨ls₁, next₁⟩, hu, hrest⟩ := run_bind_eq_ok_iff.mp h
          obtain ⟨us', ⟨ls₂, next₂⟩, hus, hret⟩ := run_bind_eq_ok_iff.mp hrest
          cases hret
          obtain ⟨hlater, hreads⟩ := reads_of_decode s f.key hls hu
          obtain ⟨hlater', hall⟩ := readsAll_of_decodeAll fields hlater.sound hus
          -- the first value was read before the others were loaded
          exact ⟨hlater.trans hlater', ⟨j, hj, hreads.imp (fun hg => hg.mono hlater') s⟩, hall⟩

end

end Schema

end RadixPool
