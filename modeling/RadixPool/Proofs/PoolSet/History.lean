import Mathlib
import RadixPool.Proofs.Pool.Dedup
import RadixPool.Proofs.Pool.RoundTrip
import RadixPool.Proofs.PoolSet

/-!
Histories of pool sets.

A pool set is made by declarations and additions, in any order. The pool of each type is then what a
builder makes of the vectors that were added for the type, in their order.

* `World.Sound.met`: the nodes that a builder meets, and the vectors that it holds.
* `PoolSet.Fed`: the builders of a set, by what was added for each type.
* `PoolSet.Made`: the pool sets that histories lead to, with the vectors added for each type.
* `PoolSet.Made.addAll`: the builder of a type.
* `PoolSet.Made.met`, `PoolSet.Made.accepted`: what it has met, and that its pool is accepted.
-/

namespace RadixPool

/-- A builder to which vectors of a world were added has met their nodes and no others, and holds
each vector at the position that was given. -/
lemma World.Sound.met {α : Type} {s : Shape} {H : Heap α} {w : World α} (hw : w.Sound s H)
    {vs : List (Vec α)} (hvs : ∀ v ∈ vs, v ∈ w.vecs) {is : List Nat} {b : Builder α}
    (hadd : (Builder.empty s).addAll vs = (is, b)) :
    b.Sound H ∅ ∧ List.Forall₂ b.Holds is vs ∧
      ∀ i, (∃ k, b.key? i = some k) ↔ i ∈ Vec.ids vs := by
  have hknown : ∀ v ∈ vs, v.Known H := fun v hv => hw.known v (hvs v hv)
  have hall := (Builder.Sound.empty (s := s)).addAll hknown
  have honly := (Builder.Sound.empty (s := s)).addAll fun v hv => Heap.known_only hv (hknown v hv)
  rw [hadd] at hall honly
  obtain ⟨hsound, -, hholds⟩ := hall
  exact ⟨hsound, hholds, honly.1.exists_key?_iff hknown fun v hv =>
    Builder.exists_holds hholds hv⟩

variable [TypeFamily]

namespace PoolSet

/-- What was added for each type, in order, with the positions that were given. -/
abbrev Log : Type := (C : ContainerType) → List (Nat × Vec C.Elem)

/-- The builder of each type is the one to which the vectors of a log were added in turn, and it
gave the positions of the log. Nothing was added for other types. -/
structure Fed (S : PoolSet) (log : Log) : Prop where
  nothing : ∀ {C}, S.get? C = none → log C = []
  builder : ∀ {C b}, S.get? C = some b →
    (Builder.empty C.shape).addAll ((log C).map Prod.snd) = ((log C).map Prod.fst, b)

namespace Fed

variable {S S' : PoolSet} {log : Log} {C : ContainerType}

lemma empty : Fed .empty fun _ => [] := ⟨fun _ => rfl, fun hb => nomatch hb⟩

/-- A declaration adds an empty builder. -/
lemma declare (h : S.Fed log) {name : String} (hdecl : S.declare C name = .ok S') : S'.Fed log := by
  refine ⟨fun {D} hD => h.nothing ?_, fun {D b} hb => ?_⟩
  · obtain ⟨hpools, -⟩ := declare_eq_ok hdecl
    rw [get?_eq, hpools, builderIn, List.findSome?_append, Option.or_eq_none_iff] at hD
    exact hD.1
  · rcases get?_of_declare hdecl hb with hold | ⟨hnone, rfl⟩
    · exact h.builder hold
    · rw [h.nothing hnone]
      rfl

/-- An addition gives a vector to the builder of its type. -/
lemma add (h : S.Fed log) {v : Vec C.Elem} {i : Nat} (hadd : S.add C v = .ok (i, S')) :
    S'.Fed (Function.update log C (log C ++ [(i, v)])) := by
  obtain ⟨-, ⟨b₀, hb₀, hb', rfl⟩, hothers⟩ := add_eq_ok hadd
  refine ⟨fun {D} hD => ?_, fun {D b} hb => ?_⟩
  · have hne : D ≠ C := by
      rintro rfl
      rw [hb'] at hD
      cases hD
    rw [Function.update_of_ne hne]
    exact h.nothing ((hothers D hne).symm.trans hD)
  · by_cases hD : D = C
    · subst hD
      obtain rfl := Option.some.inj (hb'.symm.trans hb)
      rw [Function.update_self, List.map_append, List.map_append, List.map_singleton,
        List.map_singleton, Builder.addAll_concat, h.builder hb₀]
    · rw [Function.update_of_ne hD]
      exact h.builder ((hothers D hD).symm.trans hb)

end Fed

/-- The pool sets that are made by declarations and additions. The vectors of type `C` have a
history that leads to the world `w C`, and their roots address elements. -/
inductive Made (w : (C : ContainerType) → World C.Elem) : PoolSet → Log → Prop where
  | empty : Made w .empty fun _ => []
  | declare {S S' : PoolSet} {log : Log} (made : Made w S log) {C : ContainerType} {name : String}
      (ok : S.declare C name = .ok S') : Made w S' log
  | add {S S' : PoolSet} {log : Log} (made : Made w S log) {C : ContainerType} {v : Vec C.Elem}
      (mem : v ∈ (w C).vecs) (shift : v.shift < Word.width) {i : Nat}
      (ok : S.add C v = .ok (i, S')) : Made w S' (Function.update log C (log C ++ [(i, v)]))

namespace Made

variable {w : (C : ContainerType) → World C.Elem} {S : PoolSet} {log : Log} {C : ContainerType}

/-- Types and names differ. -/
lemma nodup (hS : S.Made w log) :
    (S.pools.map DeclaredPool.type).Nodup ∧ (S.pools.map DeclaredPool.name).Nodup := by
  induction hS with
  | empty => exact ⟨List.nodup_nil, List.nodup_nil⟩
  | declare _ hdecl ih => exact nodup_of_declare hdecl ih.1 ih.2
  | add _ _ _ hadd ih => exact nodup_of_add hadd ih.1 ih.2

lemma fed (hS : S.Made w log) : S.Fed log := by
  induction hS with
  | empty => exact .empty
  | declare _ hdecl ih => exact ih.declare hdecl
  | add _ _ _ hadd ih => exact ih.add hadd

/-- The vectors added have some history. -/
lemma mem_log (hS : S.Made w log) {r : Nat × Vec C.Elem} (hr : r ∈ log C) :
    r.2 ∈ (w C).vecs ∧ r.2.shift < Word.width := by
  induction hS with
  | empty => cases hr
  | declare _ _ ih => exact ih hr
  | @add S S' log _ D v hv hshift i hadd ih =>
      by_cases hD : C = D
      · subst hD
        rw [Function.update_self, List.mem_append, List.mem_singleton] at hr
        rcases hr with hr | rfl
        · exact ih hr
        · exact ⟨hv, hshift⟩
      · rw [Function.update_of_ne hD] at hr
        exact ih hr

/-- The builder of a type is the one to which the vectors of the type were added in turn. -/
theorem addAll (hS : S.Made w log) {b : Builder C.Elem} (hb : S.get? C = some b) :
    (Builder.empty C.shape).addAll ((log C).map Prod.snd) = ((log C).map Prod.fst, b) :=
  hS.fed.builder hb

variable {H : (C : ContainerType) → Heap C.Elem}

/-- The builder of a type has met the nodes of the vectors that were added, and no others. -/
theorem met (hS : S.Made w log) (hw : ∀ C, (w C).Sound C.shape (H C)) {b : Builder C.Elem}
    (hb : S.get? C = some b) :
    b.Sound (H C) ∅ ∧ (∀ r ∈ log C, b.Holds r.1 r.2) ∧
      ∀ i, (∃ k, b.key? i = some k) ↔ i ∈ Vec.ids ((log C).map Prod.snd) := by
  have hvs : ∀ v ∈ (log C).map Prod.snd, v ∈ (w C).vecs := by
    intro v hv
    obtain ⟨r, hr, rfl⟩ := List.mem_map.mp hv
    exact (hS.mem_log hr).1
  obtain ⟨hsound, hholds, hmet⟩ := (hw C).met hvs (hS.addAll hb)
  rw [List.forall₂_map_left_iff, List.forall₂_map_right_iff, List.forall₂_same] at hholds
  exact ⟨hsound, hholds, hmet⟩

/-- The pools of the set are accepted. -/
theorem accepted (hS : S.Made w log) (hw : ∀ C, (w C).Sound C.shape (H C)) :
    ∀ p ∈ S.pools, ∃ l, Loader.ofPool p.type.shape p.name p.builder.pool = .ok l := by
  intro p hp
  have hb : S.get? p.type = some p.builder := builderIn_of_mem hS.nodup.1 hp
  have hvs : ∀ v ∈ (log p.type).map Prod.snd, v ∈ (w p.type).vecs ∧ v.shift < Word.width := by
    intro v hv
    obtain ⟨r, hr, rfl⟩ := List.mem_map.mp hv
    exact hS.mem_log hr
  obtain ⟨hsound, hshape, -, hst, -⟩ := (hw p.type).addAll p.type.valid (fun v hv => (hvs v hv).1)
    (fun v hv => (hvs v hv).2) (hS.addAll hb)
  obtain ⟨plan, hl⟩ := hsound.ofPool_eq_ok p.type.valid hshape hst p.name
  exact ⟨_, hl⟩

end Made

end PoolSet

end RadixPool
