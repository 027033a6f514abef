import Mathlib
import RadixPool.PoolSet
import RadixPool.Proofs.Assoc
import RadixPool.Proofs.Pool.Builder

/-!
Pool sets as builders, one for each container type.

* `PoolSet.Sound`: pool sets all of whose builders are sound.
* `PoolSet.Grows`: a pool set to which vectors were added.
* `PoolSet.Holds`: a vector stands at a position of the pool of its type.
* `PoolSet.Sound.add`: adding a vector only concerns the builder of its type.
* `PoolSet.Declared`: sets of empty pools, which declarations keep.
-/

namespace RadixPool

variable [TypeFamily]

namespace DeclaredPool

variable {C : ContainerType} {p : DeclaredPool}

/-- Name and type of a pool. -/
def header (p : DeclaredPool) : String × ContainerType := (p.name, p.type)

@[simp] lemma builder?_self (p : DeclaredPool) : p.builder? p.type = some p.builder := dif_pos rfl

lemma builder?_of_ne (hne : p.type ≠ C) : p.builder? C = none := dif_neg hne

lemma map_type_eq (ps : List DeclaredPool) :
    ps.map DeclaredPool.type = (ps.map header).map Prod.snd := by
  rw [List.map_map]
  rfl

lemma map_name_eq (ps : List DeclaredPool) :
    ps.map DeclaredPool.name = (ps.map header).map Prod.fst := by
  rw [List.map_map]
  rfl

end DeclaredPool

namespace PoolSet

variable {C D : ContainerType} {s s' s'' : PoolSet} {n n' : Nat}

/-! ### The builder of a type -/

/-- The builder of the first of some pools that has the type. -/
def builderIn (C : ContainerType) (ps : List DeclaredPool) : Option (Builder C.Elem) :=
  ps.findSome? fun p => p.builder? C

lemma get?_eq (s : PoolSet) : s.get? C = builderIn C s.pools := rfl

lemma builderIn_cons_self (p : DeclaredPool) (ps : List DeclaredPool) :
    builderIn p.type (p :: ps) = some p.builder := by
  rw [builderIn, List.findSome?_cons, DeclaredPool.builder?_self]

lemma builderIn_cons_of_ne {p : DeclaredPool} (hne : p.type ≠ C) (ps : List DeclaredPool) :
    builderIn C (p :: ps) = builderIn C ps := by
  rw [builderIn, List.findSome?_cons, DeclaredPool.builder?_of_ne hne, builderIn]

/-- With different types the builder of a pool is the one of its type. -/
lemma builderIn_of_mem {ps : List DeclaredPool} (hnd : (ps.map DeclaredPool.type).Nodup)
    {p : DeclaredPool} (hp : p ∈ ps) : builderIn p.type ps = some p.builder := by
  induction ps with
  | nil => cases hp
  | cons q ps ih =>
      rw [List.map_cons, List.nodup_cons] at hnd
      rcases List.mem_cons.mp hp with rfl | hp
      · exact builderIn_cons_self _ ps
      · have hne : q.type ≠ p.type := fun heq => hnd.1 (heq ▸ List.mem_map_of_mem hp)
        rw [builderIn_cons_of_ne hne, ih hnd.2 hp]

/-- There is a builder for the types of the pools and no others. -/
lemma exists_builderIn_iff {ps : List DeclaredPool} :
    (∃ b, builderIn C ps = some b) ↔ C ∈ ps.map DeclaredPool.type := by
  induction ps with
  | nil => exact ⟨(fun ⟨_, hb⟩ => nomatch hb), fun hC => nomatch hC⟩
  | cons p ps ih =>
      rw [List.map_cons, List.mem_cons]
      by_cases heq : p.type = C
      · subst heq
        exact ⟨fun _ => .inl rfl, fun _ => ⟨_, builderIn_cons_self p ps⟩⟩
      · rw [builderIn_cons_of_ne heq, ih]
        exact ⟨.inr, fun hC => hC.resolve_left (Ne.symm heq)⟩

lemma addTo_cons_self (name : String) (b : Builder C.Elem) (v : Vec C.Elem)
    (ps : List DeclaredPool) :
    addTo C v (⟨name, C, b⟩ :: ps) = some ((b.add v).1, ⟨name, C, (b.add v).2⟩ :: ps) := by
  have hself : (⟨name, C, b⟩ : DeclaredPool).builder? C = some b :=
    DeclaredPool.builder?_self ⟨name, C, b⟩
  rw [addTo, hself]

lemma addTo_cons_of_ne {p : DeclaredPool} (hne : p.type ≠ C) (v : Vec C.Elem)
    (ps : List DeclaredPool) :
    addTo C v (p :: ps) = (addTo C v ps).map fun r => (r.1, p :: r.2) := by
  rw [addTo, DeclaredPool.builder?_of_ne hne]

/-- An addition concerns the builder of the type and no other. -/
lemma addTo_eq_some {v : Vec C.Elem} {ps ps' : List DeclaredPool} {i : Nat}
    (hadd : addTo C v ps = some (i, ps')) :
    ps'.map DeclaredPool.header = ps.map DeclaredPool.header ∧
      (∃ b, builderIn C ps = some b ∧ builderIn C ps' = some (b.add v).2 ∧ i = (b.add v).1) ∧
      ∀ D, D ≠ C → builderIn D ps' = builderIn D ps := by
  induction ps generalizing i ps' with
  | nil => cases hadd
  | cons p ps ih =>
      obtain ⟨name, type, b⟩ := p
      by_cases heq : type = C
      · subst heq
        rw [addTo_cons_self, Option.some.injEq, Prod.mk.injEq] at hadd
        obtain ⟨rfl, rfl⟩ := hadd
        refine ⟨rfl, ⟨b, builderIn_cons_self ⟨name, type, b⟩ ps,
          builderIn_cons_self ⟨name, type, (b.add v).2⟩ ps, rfl⟩, fun D hD => ?_⟩
        rw [builderIn_cons_of_ne (Ne.symm hD), builderIn_cons_of_ne (Ne.symm hD)]
      · have hne : (⟨name, type, b⟩ : DeclaredPool).type ≠ C := heq
        rw [addTo_cons_of_ne hne] at hadd
        obtain ⟨⟨j, qs⟩, hrest, hpair⟩ := Option.map_eq_some_iff.mp hadd
        rw [Prod.mk.injEq] at hpair
        obtain ⟨rfl, rfl⟩ := hpair
        obtain ⟨hheaders, ⟨b', hb', hadded, hj⟩, hothers⟩ := ih hrest
        refine ⟨by rw [List.map_cons, List.map_cons, hheaders], ⟨b', ?_, ?_, hj⟩, fun D hD => ?_⟩
        · rw [builderIn_cons_of_ne hne, hb']
        · rw [builderIn_cons_of_ne hne, hadded]
        · by_cases htype : type = D
          · subst htype
            rw [builderIn_cons_self ⟨name, type, b⟩, builderIn_cons_self ⟨name, type, b⟩]
          · have hne' : (⟨name, type, b⟩ : DeclaredPool).type ≠ D := htype
            rw [builderIn_cons_of_ne hne', builderIn_cons_of_ne hne', hothers D hD]

/-! ### Sound pool sets -/

/-- All builders of the set are sound and have the shapes of their types. -/
def Sound (H : (C : ContainerType) → Heap C.Elem) (s : PoolSet) : Prop :=
  ∀ {C b}, s.get? C = some b → b.Sound (H C) ∅ ∧ b.pool.shape = C.shape

/-- A pool set to which at most `n` vectors were added. -/
structure Grows (s s' : PoolSet) (n : Nat) : Prop where
  headers : s'.pools.map DeclaredPool.header = s.pools.map DeclaredPool.header
  get? : ∀ {C b}, s.get? C = some b → ∃ b', s'.get? C = some b' ∧ b.Grows b' ∧
    b'.pool.vectors.length ≤ b.pool.vectors.length + n

/-- A vector stands at a position of the pool of its type. -/
def Holds (s : PoolSet) (C : ContainerType) (v : Vec C.Elem) (i : Nat) : Prop :=
  ∃ b, s.get? C = some b ∧ b.Holds i v

lemma Grows.refl (s : PoolSet) : s.Grows s 0 :=
  ⟨rfl, fun hb => ⟨_, hb, .refl _, le_rfl⟩⟩

lemma Grows.trans (h : s.Grows s' n) (h' : s'.Grows s'' n') : s.Grows s'' (n + n') := by
  refine ⟨h'.headers.trans h.headers, fun hb => ?_⟩
  obtain ⟨b', hb', hgrows, hlen⟩ := h.get? hb
  obtain ⟨b'', hb'', hgrows', hlen'⟩ := h'.get? hb'
  exact ⟨b'', hb'', hgrows.trans hgrows', by omega⟩

lemma Holds.mono {v : Vec C.Elem} {i : Nat} (hv : s.Holds C v i) (h : s.Grows s' n) :
    s'.Holds C v i := by
  obtain ⟨b, hb, hi⟩ := hv
  obtain ⟨b', hb', hgrows, -⟩ := h.get? hb
  exact ⟨b', hb', hi.mono hgrows⟩

lemma Grows.types (h : s.Grows s' n) :
    s'.pools.map DeclaredPool.type = s.pools.map DeclaredPool.type := by
  rw [DeclaredPool.map_type_eq, h.headers, ← DeclaredPool.map_type_eq]

lemma Grows.names (h : s.Grows s' n) :
    s'.pools.map DeclaredPool.name = s.pools.map DeclaredPool.name := by
  rw [DeclaredPool.map_name_eq, h.headers, ← DeclaredPool.map_name_eq]

/-- Every builder was there before vectors were added. -/
lemma Grows.exists_get? (h : s.Grows s' n) {b' : Builder C.Elem} (hb' : s'.get? C = some b') :
    ∃ b, s.get? C = some b ∧ b'.pool.vectors.length ≤ b.pool.vectors.length + n := by
  have hC : C ∈ s.pools.map DeclaredPool.type := h.types ▸ exists_builderIn_iff.mp ⟨b', hb'⟩
  obtain ⟨b, hb⟩ := exists_builderIn_iff.mpr hC
  obtain ⟨b₁, hb₁, -, hlen⟩ := h.get? hb
  obtain rfl := Option.some.inj (hb₁.symm.trans hb')
  exact ⟨b, hb, hlen⟩

variable {H : (C : ContainerType) → Heap C.Elem}

/-- An addition concerns the builder of the type and no other. -/
lemma add_eq_ok {v : Vec C.Elem} {i : Nat} (hadd : s.add C v = .ok (i, s')) :
    s'.pools.map DeclaredPool.header = s.pools.map DeclaredPool.header ∧
      (∃ b, s.get? C = some b ∧ s'.get? C = some (b.add v).2 ∧ i = (b.add v).1) ∧
      ∀ D, D ≠ C → s'.get? D = s.get? D := by
  rw [PoolSet.add] at hadd
  split at hadd
  · next j ps hto =>
    cases hadd
    exact addTo_eq_some hto
  · cases hadd

/-- A vector that is added stands at the position given. -/
theorem Sound.add (hs : s.Sound H) {v : Vec C.Elem} (hv : v.Known (H C)) {i : Nat}
    (hadd : s.add C v = .ok (i, s')) : s'.Sound H ∧ s.Grows s' 1 ∧ s'.Holds C v i := by
  obtain ⟨hheaders, ⟨b, hb, hb', rfl⟩, hothers⟩ := add_eq_ok hadd
  obtain ⟨hsound, hshape⟩ := hs hb
  obtain ⟨hsound', hgrows, hholds⟩ := hsound.add hv
  refine ⟨fun {D c} hc => ?_, ⟨hheaders, fun {D c} hc => ?_⟩, ⟨_, hb', hholds⟩⟩
  · by_cases hD : D = C
    · subst hD
      obtain rfl := Option.some.inj (hb'.symm.trans hc)
      exact ⟨hsound', hgrows.shape.trans hshape⟩
    · exact hs ((hothers D hD).symm.trans hc)
  · by_cases hD : D = C
    · subst hD
      obtain rfl := Option.some.inj (hb.symm.trans hc)
      exact ⟨_, hb', hgrows, Builder.length_vectors_add_le _ _⟩
    · exact ⟨c, (hothers D hD).trans hc, .refl c, Nat.le_succ _⟩

/-! ### Declarations -/

/-- A declaration adds an empty pool with a new type and a new name. -/
lemma declare_eq_ok {name : String} (hdecl : s.declare C name = .ok s') :
    s'.pools = s.pools ++ [⟨name, C, .empty C.shape⟩] ∧ C ∉ s.pools.map DeclaredPool.type ∧
      name ∉ s.pools.map DeclaredPool.name := by
  rw [declare] at hdecl
  split at hdecl
  · cases hdecl
  next hname =>
  split at hdecl
  · cases hdecl
  next hnames =>
  cases hdecl
  refine ⟨rfl, fun hmem => ?_, by simpa [names] using hnames⟩
  obtain ⟨p, hp, rfl⟩ := List.mem_map.mp hmem
  rw [nameOf?, Option.map_eq_none_iff, List.find?_eq_none] at hname
  exact hname p hp (decide_eq_true rfl)

/-- A declaration keeps the builders that are there, and the new one is empty. -/
lemma get?_of_declare {name : String} (hdecl : s.declare C name = .ok s') {b : Builder D.Elem}
    (hb : s'.get? D = some b) :
    s.get? D = some b ∨ s.get? D = none ∧ b = .empty D.shape := by
  obtain ⟨hpools, -⟩ := declare_eq_ok hdecl
  rw [get?_eq, hpools, builderIn, List.findSome?_append] at hb
  cases hold : s.get? D with
  | some b' =>
      rw [get?_eq, builderIn] at hold
      rw [hold, Option.some_or] at hb
      exact .inl hb
  | none =>
      rw [get?_eq, builderIn] at hold
      rw [hold, Option.none_or] at hb
      by_cases hD : C = D
      · subst hD
        have hself := builderIn_cons_self ⟨name, C, .empty C.shape⟩ []
        exact .inr ⟨rfl, (Option.some.inj (hself.symm.trans hb)).symm⟩
      · have hne : (⟨name, C, .empty C.shape⟩ : DeclaredPool).type ≠ D := hD
        have hother := builderIn_cons_of_ne hne []
        exact nomatch hother.symm.trans hb

/-- A declaration keeps the types different, and the names. -/
lemma nodup_of_declare {name : String} (hdecl : s.declare C name = .ok s')
    (htypes : (s.pools.map DeclaredPool.type).Nodup)
    (hnames : (s.pools.map DeclaredPool.name).Nodup) :
    (s'.pools.map DeclaredPool.type).Nodup ∧ (s'.pools.map DeclaredPool.name).Nodup := by
  obtain ⟨hpools, htype, hname⟩ := declare_eq_ok hdecl
  rw [hpools, List.map_append, List.map_append, List.map_singleton, List.map_singleton,
    ← List.concat_eq_append, ← List.concat_eq_append]
  exact ⟨htypes.concat htype, hnames.concat hname⟩

/-- An addition keeps the types different, and the names. -/
lemma nodup_of_add {v : Vec C.Elem} {i : Nat} (hadd : s.add C v = .ok (i, s'))
    (htypes : (s.pools.map DeclaredPool.type).Nodup)
    (hnames : (s.pools.map DeclaredPool.name).Nodup) :
    (s'.pools.map DeclaredPool.type).Nodup ∧ (s'.pools.map DeclaredPool.name).Nodup := by
  obtain ⟨hheaders, -⟩ := add_eq_ok hadd
  rw [DeclaredPool.map_type_eq] at htypes ⊢
  rw [DeclaredPool.map_name_eq] at hnames ⊢
  rw [hheaders]
  exact ⟨htypes, hnames⟩

/-- Sets of empty pools with different types and different names. -/
structure Declared (s : PoolSet) : Prop where
  types : (s.pools.map DeclaredPool.type).Nodup
  names : (s.pools.map DeclaredPool.name).Nodup
  get? : ∀ {C b}, s.get? C = some b → b = .empty C.shape

lemma Declared.empty : PoolSet.empty.Declared :=
  ⟨List.nodup_nil, List.nodup_nil, fun hb => nomatch hb⟩

/-- A further declaration. -/
lemma Declared.declare (hs : s.Declared) {name : String} (hdecl : s.declare C name = .ok s') :
    s'.Declared := by
  obtain ⟨htypes, hnames⟩ := nodup_of_declare hdecl hs.types hs.names
  refine ⟨htypes, hnames, fun hb => ?_⟩
  rcases get?_of_declare hdecl hb with hold | ⟨-, hnew⟩
  · exact hs.get? hold
  · exact hnew

/-- Empty pools are sound. -/
lemma Declared.sound (hs : s.Declared) : s.Sound H := by
  intro C b hb
  obtain rfl := hs.get? hb
  exact ⟨.empty, rfl⟩

/-- The document of a set lists the pools. -/
lemma perm_toMembers (hnd : (s.pools.map DeclaredPool.name).Nodup) :
    s.toMembers.Perm (s.pools.map fun p => (p.name, p.toJson)) := by
  have hfold : s.toMembers = (s.pools.map fun p => (p.name, p.toJson)).foldl
      (fun l e => Assoc.insert e.1 e.2 l) [] := by
    rw [toMembers, List.foldl_map]
  have hkeys : (s.pools.map fun p => (p.name, p.toJson)).map Prod.fst =
      s.pools.map DeclaredPool.name := by
    rw [List.map_map]
    rfl
  have hperm := Assoc.perm_foldl_insert (m := []) (hkeys ▸ hnd) fun _ _ => rfl
  rwa [List.append_nil, ← hfold] at hperm

end PoolSet

end RadixPool
