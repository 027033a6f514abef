import Mathlib
import RadixPool.Proofs.Pool.Renaming
import RadixPool.Proofs.Record.Document

/-!
Records as documents: what is written.

Writing a record adds its containers one after the other, each to the pool of its type, and
succeeds if all of the types have been declared. Neither the document nor the pools depend on the
identities of the nodes: a record and its copy are written in step.

* `PoolSet.ofType`: the containers of one type.
* `PoolSet.Adds`: a pool set to which containers were added in a row.
* `Schema.encode_addAll`: a record is written by adding its containers.
* `Schema.encode_undeclared`: a record with a container of a type that is not declared is refused.
* `PoolSet.Renames`: pool sets in step, which have the same documents.
* `Schema.encode_renamed`: records with copies for containers are written in step.
-/

namespace RadixPool

variable [TypeFamily]

namespace PoolSet

variable {C : ContainerType} {S S' S'' : PoolSet} {cs cs' : List ((C : ContainerType) × Vec C.Elem)}

/-! ### Containers added in a row -/

/-- The containers of one type, in order. -/
def ofType (C : ContainerType) (cs : List ((C : ContainerType) × Vec C.Elem)) : List (Vec C.Elem) :=
  cs.filterMap fun c => if h : c.1 = C then some (h ▸ c.2) else none

lemma ofType_append : ofType C (cs ++ cs') = ofType C cs ++ ofType C cs' := List.filterMap_append

lemma ofType_self (v : Vec C.Elem) : ofType C [⟨C, v⟩] = [v] := by
  rw [ofType, List.filterMap_cons_some (dif_pos rfl), List.filterMap_nil]

lemma ofType_of_ne {D : ContainerType} (hne : D ≠ C) (v : Vec D.Elem) : ofType C [⟨D, v⟩] = [] := by
  rw [ofType, List.filterMap_cons_none (dif_neg hne), List.filterMap_nil]

/-- The pools are those of the first set, and the containers were added to the pools of their
types in order. -/
structure Adds (S : PoolSet) (cs : List ((C : ContainerType) × Vec C.Elem))
    (S' : PoolSet) : Prop where
  headers : S'.pools.map DeclaredPool.header = S.pools.map DeclaredPool.header
  get? : ∀ {C b}, S.get? C = some b → S'.get? C = some (b.addAll (ofType C cs)).2

lemma Adds.refl (S : PoolSet) : S.Adds [] S := ⟨rfl, id⟩

lemma Adds.trans (h : S.Adds cs S') (h' : S'.Adds cs' S'') : S.Adds (cs ++ cs') S'' := by
  refine ⟨h'.headers.trans h.headers, fun hb => ?_⟩
  rw [ofType_append, Builder.addAll_append]
  exact h'.get? (h.get? hb)

/-- Types stay declared. -/
lemma Adds.exists_get? (h : S.Adds cs S') (hC : ∃ b, S.get? C = some b) :
    ∃ b, S'.get? C = some b := by
  obtain ⟨b, hb⟩ := hC
  exact ⟨_, h.get? hb⟩

/-- A container whose type is declared is added. -/
lemma exists_addTo {ps : List DeclaredPool} (hC : ∃ b, builderIn C ps = some b) (v : Vec C.Elem) :
    ∃ i qs, addTo C v ps = some (i, qs) := by
  induction ps with
  | nil =>
      obtain ⟨b, hb⟩ := hC
      cases hb
  | cons p ps ih =>
      by_cases heq : p.type = C
      · subst heq
        exact ⟨_, _, addTo_cons_self p.name p.builder v ps⟩
      · rw [builderIn_cons_of_ne heq] at hC
        obtain ⟨i, qs, hadd⟩ := ih hC
        refine ⟨i, p :: qs, ?_⟩
        rw [addTo_cons_of_ne heq, hadd, Option.map_some]

lemma exists_add (hC : ∃ b, S.get? C = some b) (v : Vec C.Elem) :
    ∃ i S', S.add C v = .ok (i, S') ∧ S.Adds [⟨C, v⟩] S' := by
  obtain ⟨i, qs, hto⟩ := exists_addTo hC v
  have hadd : S.add C v = .ok (i, ⟨qs⟩) := by rw [PoolSet.add, hto]
  obtain ⟨hheaders, ⟨b, hb, hb', -⟩, hothers⟩ := add_eq_ok hadd
  refine ⟨i, ⟨qs⟩, hadd, hheaders, fun {D c} hc => ?_⟩
  by_cases hD : C = D
  · subst hD
    obtain rfl := Option.some.inj (hb.symm.trans hc)
    rw [hb', ofType_self]
    rfl
  · rw [hothers D (Ne.symm hD), hc, ofType_of_ne hD]
    rfl

/-- A container whose type is not declared is refused. -/
lemma add_of_undeclared (hC : S.get? C = none) (v : Vec C.Elem) :
    S.add C v = .error (.policy (.undeclared C.label)) := by
  have hto : addTo C v S.pools = none := by
    by_contra hsome
    obtain ⟨⟨i, qs⟩, hsome⟩ := Option.ne_none_iff_exists'.mp hsome
    obtain ⟨-, ⟨b, hb, -⟩, -⟩ := addTo_eq_some hsome
    rw [get?_eq, hb] at hC
    cases hC
  rw [PoolSet.add, hto]

/-- Types stay undeclared. -/
lemma Adds.get?_eq_none (h : S.Adds cs S') (hC : S.get? C = none) : S'.get? C = none := by
  by_contra hsome
  have hmem := exists_builderIn_iff.mp (Option.ne_none_iff_exists'.mp hsome)
  rw [DeclaredPool.map_type_eq, h.headers, ← DeclaredPool.map_type_eq] at hmem
  obtain ⟨b, hb⟩ := exists_builderIn_iff.mpr hmem
  rw [get?_eq, hb] at hC
  cases hC

end PoolSet

namespace Schema

mutual

/-- A value whose container types are declared is written, and its containers are added. -/
theorem encode_addAll : (s : Schema) → (v : s.Value) → {S : PoolSet} →
    (∀ c ∈ containers s v, ∃ b, S.get? c.1 = some b) →
      ∃ j S', encode s v S = (.ok j, S') ∧ S.Adds (containers s v) S'
  | .container C, v, S, hS => by
      obtain ⟨i, S', hadd, hadds⟩ :=
        PoolSet.exists_add (hS ⟨C, v⟩ (by rw [containers]; exact List.mem_singleton_self _)) v
      have hrun : Saving.add C v S = (.ok i, S') := by simp only [Saving.add, hadd]
      refine ⟨.nat i, S', ?_, by rw [containers]; exact hadds⟩
      rw [encode, run_bind_of_ok hrun]
      rfl
  | .value t, x, S, _ => by
      rw [encode, containers]
      exact ⟨_, S, rfl, .refl S⟩
  | .record _ fields, vs, S, hS => by
      rw [containers] at hS ⊢
      obtain ⟨ms, S', hms, hadds⟩ := encodeAll_addAll fields vs hS
      refine ⟨.ofMembers ms, S', ?_, hadds⟩
      rw [encode, run_bind_of_ok hms]
      rfl

/-- The same for some values. -/
theorem encodeAll_addAll : (fields : List (FieldName × Schema)) → (vs : Values fields) →
    {S : PoolSet} → (∀ c ∈ containersAll fields vs, ∃ b, S.get? c.1 = some b) →
      ∃ ms S', encodeAll fields vs S = (.ok ms, S') ∧ S.Adds (containersAll fields vs) S'
  | [], _, S, _ => ⟨[], S, rfl, .refl S⟩
  | (f, s) :: fields, (v, vs), S, hS => by
      rw [containersAll] at hS ⊢
      obtain ⟨j, S₁, hj, hadds⟩ := encode_addAll s v fun c hc => hS c (List.mem_append_left _ hc)
      obtain ⟨ms, S₂, hms, hadds'⟩ := encodeAll_addAll fields vs
        fun c hc => hadds.exists_get? (hS c (List.mem_append_right _ hc))
      refine ⟨(f.key, j) :: ms, S₂, ?_, hadds.trans hadds'⟩
      rw [encodeAll, run_bind_of_ok hj, run_bind_of_ok hms]
      rfl

end

mutual

/-- A value with a container whose type is not declared is refused. The error names such a type. -/
theorem encode_undeclared : (s : Schema) → (v : s.Value) → {S : PoolSet} →
    (∃ c ∈ containers s v, S.get? c.1 = none) →
      ∃ C S', S.get? C = none ∧ encode s v S = (.error (.policy (.undeclared C.label)), S')
  | .container C, v, S, hS => by
      rw [containers] at hS
      obtain ⟨c, hc, hnone⟩ := hS
      obtain rfl := List.mem_singleton.mp hc
      have hadd : S.add C v = .error (.policy (.undeclared C.label)) :=
        PoolSet.add_of_undeclared hnone v
      have hrun : Saving.add C v S = (.error (.policy (.undeclared C.label)), S) := by
        simp only [Saving.add, hadd]
      exact ⟨C, S, hnone, by rw [encode, run_bind_of_error hrun]⟩
  | .value t, x, S, hS => by
      rw [containers] at hS
      obtain ⟨c, hc, -⟩ := hS
      cases hc
  | .record _ fields, vs, S, hS => by
      rw [containers] at hS
      obtain ⟨C, S', hnone, hrun⟩ := encodeAll_undeclared fields vs hS
      exact ⟨C, S', hnone, by rw [encode, run_bind_of_error hrun]⟩

/-- The same for some values. -/
theorem encodeAll_undeclared : (fields : List (FieldName × Schema)) → (vs : Values fields) →
    {S : PoolSet} → (∃ c ∈ containersAll fields vs, S.get? c.1 = none) →
      ∃ C S', S.get? C = none ∧
        encodeAll fields vs S = (.error (.policy (.undeclared C.label)), S')
  | [], _, S, hS => by
      obtain ⟨c, hc, -⟩ := hS
      cases hc
  | (f, s) :: fields, (v, vs), S, hS => by
      by_cases hhead : ∃ c ∈ containers s v, S.get? c.1 = none
      · obtain ⟨C, S', hnone, hrun⟩ := encode_undeclared s v hhead
        exact ⟨C, S', hnone, by rw [encodeAll, run_bind_of_error hrun]⟩
      · -- the first value is written, and the type is still not declared
        push Not at hhead
        obtain ⟨j, S₁, hj, hadds⟩ :=
          encode_addAll s v fun c hc => Option.ne_none_iff_exists'.mp (hhead c hc)
        rw [containersAll] at hS
        obtain ⟨c, hc, hnone⟩ := hS
        have hrest : c ∈ containersAll fields vs :=
          (List.mem_append.mp hc).resolve_left fun hc => hhead c hc hnone
        obtain ⟨C, S', hnone', hrun⟩ :=
          encodeAll_undeclared fields vs ⟨c, hrest, hadds.get?_eq_none hnone⟩
        refine ⟨C, S', ?_, by rw [encodeAll, run_bind_of_ok hj, run_bind_of_error hrun]⟩
        by_contra hsome
        obtain ⟨b, hb⟩ := hadds.exists_get? (Option.ne_none_iff_exists'.mp hsome)
        rw [hb] at hnone'
        cases hnone'

end

end Schema

/-! ### Pool sets in step -/

variable {f : ContainerType → NodeId → NodeId}

/-- Two pools with one name and one type whose builders are in step. -/
inductive DeclaredPool.Renames (f : ContainerType → NodeId → NodeId) :
    DeclaredPool → DeclaredPool → Prop where
  | mk {name : String} {C : ContainerType} {b b' : Builder C.Elem} (step : b.Renames (f C) id b') :
      Renames f ⟨name, C, b⟩ ⟨name, C, b'⟩

/-- The pools of the second set are those of the first one, up to the identities of the nodes. -/
def PoolSet.Renames (f : ContainerType → NodeId → NodeId) (S T : PoolSet) : Prop :=
  List.Forall₂ (DeclaredPool.Renames f) S.pools T.pools

namespace PoolSet

variable {C : ContainerType} {S T : PoolSet}

/-- Sets of empty pools are in step with themselves. -/
lemma Declared.renames (hS : S.Declared) : S.Renames f S := by
  refine List.forall₂_same.mpr fun p hp => ?_
  have hempty : p.builder = .empty p.type.shape := hS.get? (builderIn_of_mem hS.types hp)
  obtain ⟨name, C, b⟩ := p
  obtain rfl : b = .empty C.shape := hempty
  exact .mk .empty

/-- Pool sets in step have the same documents. -/
lemma Renames.toMembers_eq (h : S.Renames f T) : T.toMembers = S.toMembers := by
  have hfold : ∀ U : PoolSet, U.toMembers = (U.pools.map fun p => (p.name, p.toJson)).foldl
      (fun l e => Assoc.insert e.1 e.2 l) [] := by
    intro U
    rw [toMembers, List.foldl_map]
  have hmap : (T.pools.map fun p => (p.name, p.toJson)) =
      S.pools.map fun p => (p.name, p.toJson) := by
    rw [← List.forall₂_eq_eq_eq, List.forall₂_map_left_iff, List.forall₂_map_right_iff]
    refine List.Forall₂.flip (List.Forall₂.imp (fun p q hpq => ?_) h)
    obtain @⟨name, C, b, b', step⟩ := hpq
    simp only [flip, DeclaredPool.toJson, step.pool, Pool.map_id]
  rw [hfold, hfold, hmap]

/-- A container and one that resembles its copy are added in step. -/
lemma addTo_renamed (hf : ∀ C, Function.Injective (f C)) {v u : Vec C.Elem}
    (hu : u.Resembles (v.map (f C) id)) {ps qs : List DeclaredPool}
    (h : List.Forall₂ (DeclaredPool.Renames f) ps qs) :
    addTo C v ps = none ∧ addTo C u qs = none ∨
      ∃ i ps' qs', addTo C v ps = some (i, ps') ∧ addTo C u qs = some (i, qs') ∧
        List.Forall₂ (DeclaredPool.Renames f) ps' qs' := by
  induction h with
  | nil => exact .inl ⟨rfl, rfl⟩
  | @cons p q ps qs hpq hrest ih =>
      obtain @⟨name, D, b, b', step⟩ := hpq
      by_cases hD : D = C
      · subst hD
        obtain ⟨hposition, hadd⟩ := step.add (hf D) v
        rw [← Builder.add_congr hu] at hposition hadd
        refine .inr ⟨_, _, _, addTo_cons_self name b v ps, ?_, .cons (.mk hadd) hrest⟩
        rw [addTo_cons_self, hposition]
      · have hne : (⟨name, D, b⟩ : DeclaredPool).type ≠ C := hD
        have hne' : (⟨name, D, b'⟩ : DeclaredPool).type ≠ C := hD
        rw [addTo_cons_of_ne hne, addTo_cons_of_ne hne']
        rcases ih with ⟨hnone, hnone'⟩ | ⟨i, ps', qs', hsome, hsome', hall⟩
        · rw [hnone, hnone']
          exact .inl ⟨rfl, rfl⟩
        · rw [hsome, hsome']
          exact .inr ⟨i, _, _, rfl, rfl, .cons (.mk step) hall⟩

end PoolSet

/-! ### Writing in step -/

/-- Two computations that have the same results on pool sets in step and leave them in step. -/
def Saving.InStep (f : ContainerType → NodeId → NodeId) {σ : Type} (m m' : Saving σ) : Prop :=
  ∀ ⦃S T : PoolSet⦄, S.Renames f T → (m' T).1 = (m S).1 ∧ (m S).2.Renames f (m' T).2

namespace Saving.InStep

variable {σ τ : Type}

lemma pure (x : σ) : InStep f (Pure.pure x : Saving σ) (Pure.pure x) := fun _ _ h => ⟨rfl, h⟩

/-- Computations in turn are in step if each of them is. -/
lemma bind {m m' : Saving σ} {g g' : σ → Saving τ} (hm : InStep f m m')
    (hg : ∀ x, InStep f (g x) (g' x)) : InStep f (m >>= g) (m' >>= g') := by
  intro S T h
  obtain ⟨hresult, hstep⟩ := hm h
  cases hrun : m S with
  | mk r S₁ =>
      cases hrun' : m' T with
      | mk r' T₁ =>
          rw [hrun, hrun'] at hresult hstep
          obtain rfl : r' = r := hresult
          cases r' with
          | error e =>
              rw [run_bind_of_error hrun, run_bind_of_error hrun']
              exact ⟨rfl, hstep⟩
          | ok x =>
              rw [run_bind_of_ok hrun, run_bind_of_ok hrun']
              exact hg x hstep

/-- A container and one that resembles its copy are added in step. -/
lemma add (hf : ∀ C, Function.Injective (f C)) {C : ContainerType} {v u : Vec C.Elem}
    (hu : u.Resembles (v.map (f C) id)) : InStep f (Saving.add C v) (Saving.add C u) := by
  intro S T h
  rw [Saving.add, Saving.add, PoolSet.add, PoolSet.add]
  rcases PoolSet.addTo_renamed hf hu h with ⟨hnone, hnone'⟩ | ⟨i, ps, qs, hsome, hsome', hall⟩
  · rw [hnone, hnone']
    exact ⟨rfl, h⟩
  · rw [hsome, hsome']
    exact ⟨rfl, hall⟩

end Saving.InStep

namespace Schema

/-- Two values agree but for their containers, and those of the second one resemble copies. -/
abbrev Resembles (f : ContainerType → NodeId → NodeId) (C : ContainerType)
    (v u : Vec C.Elem) : Prop :=
  u.Resembles (v.map (f C) id)

mutual

/-- Values with resembling copies for containers are written in step. -/
theorem encode_renamed (hf : ∀ C, Function.Injective (f C)) : (s : Schema) → {v u : s.Value} →
    Mirrors (Resembles f) s v u → Saving.InStep f (encode s v) (encode s u)
  | .container C, v, u, hu => by
      rw [encode, encode]
      exact (Saving.InStep.add hf hu).bind fun i => .pure _
  | .value t, x, y, hy => by
      obtain rfl : y = x := hy
      rw [encode]
      exact .pure _
  | .record _ fields, vs, us, hus => by
      rw [encode, encode]
      exact (encodeAll_renamed hf fields hus).bind fun ms => .pure _

/-- The same for some values. -/
theorem encodeAll_renamed (hf : ∀ C, Function.Injective (f C)) :
    (fields : List (FieldName × Schema)) → {vs us : Values fields} →
    MirrorsAll (Resembles f) fields vs us →
      Saving.InStep f (encodeAll fields vs) (encodeAll fields us)
  | [], _, _, _ => .pure _
  | (_, s) :: fields, (v, vs), (u, us), hall => by
      rw [encodeAll, encodeAll]
      exact (encode_renamed hf s hall.1).bind fun j =>
        (encodeAll_renamed hf fields hall.2).bind fun ms => .pure _

end

end Schema

end RadixPool
