import Mathlib
import RadixPool.Conversion.Basic
import RadixPool.Proofs.LoaderSet

/-!
Asking for converted vectors.

The loaders of converted pools are asked for vectors one after the other: for the counterpart of a
vector, or for the vector at a position. What was built for one answer is used for the next, so all
answers have to be looked at together. In the end each of them is a copy of its original, and all
copies of one type are made by one renaming of the nodes.

* `Answer`, `Session`: what is asked and answered, in any order.
* `Session.later`: whatever is asked, the loaders stay sound.
* `Session.counterpart_cases`, `Session.load_cases`: what an answer is.
* `Session.exists_renaming`: all answers for the vectors of one type are copies, by one renaming.
-/

namespace RadixPool

variable [TypeFamily]

/-- What was asked of converted pools, with the answer. -/
inductive Answer where
  | counterpart (C D : ContainerType) (v : Vec C.Elem) (r : Except Error (Vec D.Elem))
  | load (C D : ContainerType) (i : Nat) (r : Except Error (Vec D.Elem))

/-- The answers that are given one after the other, the last one first, from the loaders `ls₀` of
the converted pools of `S`, with what has become of the loaders and the next unused identity.
Identities may be drawn elsewhere in between. -/
inductive Session (S : PoolSet) (ls₀ : LoaderSet) (first : NodeId) :
    LoaderSet → NodeId → List Answer → Prop where
  | start : Session S ls₀ first ls₀ first []
  | elsewhere {ls : LoaderSet} {next next' : NodeId} {answers : List Answer}
      (session : Session S ls₀ first ls next answers) (le : next ≤ next') :
      Session S ls₀ first ls next' answers
  | counterpart {ls : LoaderSet} {next : NodeId} {answers : List Answer}
      (session : Session S ls₀ first ls next answers) (C D : ContainerType) (v : Vec C.Elem) :
      Session S ls₀ first (counterpart S ls C D v next).1.2 (counterpart S ls C D v next).2
        (.counterpart C D v (counterpart S ls C D v next).1.1 :: answers)
  | load {ls : LoaderSet} {next : NodeId} {answers : List Answer}
      (session : Session S ls₀ first ls next answers) (C D : ContainerType) (i : Nat) :
      Session S ls₀ first (loadConverted ls C D i next).1.2 (loadConverted ls C D i next).2
        (.load C D i (loadConverted ls C D i next).1.1 :: answers)

variable {S : PoolSet} {ls ls₀ : LoaderSet} {first next : NodeId} {answers : List Answer}
  {C D : ContainerType} {b : Builder C.Elem} {g : C.Elem → D.Elem} {H : Heap C.Elem}

/-! ### One answer -/

namespace LoaderSet

/-- The loaders stay sound when they are asked for a counterpart. -/
lemma Sound.counterpart (hls : ls.Sound next) (v : Vec C.Elem) :
    ls.Later next (counterpart S ls C D v next).1.2 (counterpart S ls C D v next).2 := by
  rw [RadixPool.counterpart]
  cases S.get? C with
  | none => exact hls.refl
  | some b =>
      dsimp only
      cases b.ends? v with
      | none => exact hls.refl
      | some e =>
          refine hls.withLoader _ fun hl hfree => ?_
          obtain ⟨H', hlater, -⟩ := hl.vecOf C.valid hfree e
          exact ⟨H', hlater⟩

/-- The loaders stay sound when they are asked for the vector at a position. -/
lemma Sound.loadConverted (hls : ls.Sound next) (i : Nat) :
    ls.Later next (loadConverted ls C D i next).1.2 (loadConverted ls C D i next).2 :=
  hls.withLoader _ fun hl hfree => hl.load C.valid hfree i

/-- The loader for a pool made by a builder, its elements sent through a function. -/
def Converts (ls : LoaderSet) (b : Builder C.Elem) (g : C.Elem → D.Elem) : Prop :=
  ∃ l, ls.loader? C D = some l ∧ l.pool = b.pool.map g

lemma Converts.mono {ls' : LoaderSet} {next' : NodeId} (hl : ls.Converts b g)
    (h : ls.Later next ls' next') : ls'.Converts b g := by
  obtain ⟨l, hl, hpool⟩ := hl
  obtain ⟨l', hl', hpool', -⟩ := h.sub hl
  exact ⟨l', hl', hpool'.trans hpool⟩

/-- The counterpart of a vector with root and tail in the pool is built for their keys. -/
lemma Converts.counterpart_eq_ok (hl : ls.Converts b g) (hls : ls.Sound next)
    (hS : S.get? C = some b) (hb : b.Sound H ∅) {v : Vec C.Elem} (hv : v.Known H) {e : PooledVec}
    (he : b.ends? v = some e) :
    ∃ u, (counterpart S ls C D v next).1.1 = .ok u ∧
      Loaded (counterpart S ls C D v next).1.2 C D e u := by
  obtain ⟨l, hl, hpool⟩ := hl
  obtain ⟨G, hsound, hfree⟩ := hls hl
  obtain ⟨hroot, htail⟩ := Builder.ends?_eq_some_iff.mp he
  obtain ⟨hkroot, hktail⟩ := Vec.known_iff.mp hv
  obtain ⟨ks, hrootEntry, -⟩ := hb.entry hkroot hroot
  have hinner : l.pool.inners.get? e.root = some ⟨ks, v.root.sizes.isSome⟩ := hpool ▸ hrootEntry
  have hleaf : l.pool.leaves.get? e.tail = some (v.tail.items.map g) :=
    hpool ▸ Pool.leaves_map_eq_some_iff.mpr ⟨v.tail.items, hb.entry hktail htail, rfl⟩
  obtain ⟨u, h, G', l', next', hrun, -, hu⟩ := hsound.vecOf_eq_ok C.valid hfree
    (hpool ▸ Pool.Disjoint.map hb.disjoint g) hinner hleaf
  have hanswer : counterpart S ls C D v next = ((.ok u, ls.update C D l'), next') := by
    rw [counterpart, hS]
    dsimp only
    rw [he]
    exact withLoader_eq _ hl hrun
  rw [hanswer]
  exact ⟨u, rfl, l', h, loader?_update_self hl l', hu⟩

/-- The vector at a position of the pool is built for its keys. -/
lemma Converts.loadConverted_eq_ok (hl : ls.Converts b g) (hls : ls.Sound next)
    (hb : b.Sound H ∅) {i : Nat} {e : PooledVec} (he : b.pool.vectors[i]? = some e) :
    ∃ u, (loadConverted ls C D i next).1.1 = .ok u ∧
      Loaded (loadConverted ls C D i next).1.2 C D e u := by
  obtain ⟨l, hl, hpool⟩ := hl
  obtain ⟨G, hsound, hfree⟩ := hls hl
  have hentry : l.pool.vectors[i]? = some e := by rw [hpool, Pool.vectors_map, he]
  obtain ⟨u, h, G', l', next', hrun, -, hu⟩ := hsound.load_eq_ok C.valid hfree
    (hpool ▸ Pool.Disjoint.map hb.disjoint g) hentry
  have hanswer : loadConverted ls C D i next = ((.ok u, ls.update C D l'), next') :=
    withLoader_eq _ hl hrun
  rw [hanswer]
  exact ⟨u, rfl, l', h, loader?_update_self hl l', hu⟩

/-- There is no vector at other positions. -/
lemma Converts.loadConverted_eq_error (hl : ls.Converts b g) {i : Nat}
    (hi : b.pool.vectors[i]? = none) : ∃ e, (loadConverted ls C D i next).1.1 = .error e := by
  obtain ⟨l, hl, hpool⟩ := hl
  have hrun : l.load i next = ((.error (.dangling l.name (.vector i)), l), next) := by
    rw [Loader.load, hpool, Pool.vectors_map, hi]
    rfl
  have hanswer : loadConverted ls C D i next =
      ((.error (.dangling l.name (.vector i)), ls.update C D l), next) :=
    withLoader_eq _ hl hrun
  rw [hanswer]
  exact ⟨_, rfl⟩

end LoaderSet

/-! ### All answers -/

namespace Session

open LoaderSet (Loaded)

/-- Whatever is asked, the loaders stay sound and only grow. -/
theorem later (h₀ : ls₀.Sound first) (h : Session S ls₀ first ls next answers) :
    ls₀.Later first ls next := by
  induction h with
  | start => exact h₀.refl
  | elsewhere _ hle ih => exact ih.trans (ih.sound.elsewhere hle)
  | counterpart _ C D v ih => exact ih.trans (ih.sound.counterpart v)
  | load _ C D i ih => exact ih.trans (ih.sound.loadConverted i)

/-- The counterpart of a vector is the one built for the keys of its root and its tail, and there is
none if these were not met. -/
theorem counterpart_cases (h₀ : ls₀.Sound first) (hl : ls₀.Converts b g) (hS : S.get? C = some b)
    (hb : b.Sound H ∅) (h : Session S ls₀ first ls next answers) {v : Vec C.Elem} (hv : v.Known H)
    {r : Except Error (Vec D.Elem)} (hr : .counterpart C D v r ∈ answers) :
    (∃ e u, b.ends? v = some e ∧ r = .ok u ∧ Loaded ls C D e u) ∨
      b.ends? v = none ∧ r = .error (.policy (.notInPool C.label ((S.nameOf? C).getD ""))) := by
  induction h with
  | start => cases hr
  | elsewhere h hle ih =>
      rcases ih hr with ⟨e, u, he, hu, hloaded⟩ | hnone
      · exact .inl ⟨e, u, he, hu, hloaded.mono ((later h₀ h).sound.elsewhere hle)⟩
      · exact .inr hnone
  | @counterpart ls next answers h C' D' v' ih =>
      have hlater := later h₀ h
      rcases List.mem_cons.mp hr with heq | hr
      · cases heq
        cases he : b.ends? v with
        | some e =>
            obtain ⟨u, hu, hloaded⟩ :=
              (hl.mono hlater).counterpart_eq_ok hlater.sound hS hb hv he
            exact .inl ⟨e, u, rfl, hu, hloaded⟩
        | none =>
            refine .inr ⟨rfl, ?_⟩
            rw [RadixPool.counterpart, hS]
            dsimp only
            rw [he]
            rfl
      · rcases ih hr with ⟨e, u, he, hu, hloaded⟩ | hnone
        · exact .inl ⟨e, u, he, hu, hloaded.mono (hlater.sound.counterpart v')⟩
        · exact .inr hnone
  | load h C' D' i ih =>
      rcases List.mem_cons.mp hr with heq | hr
      · cases heq
      · rcases ih hr with ⟨e, u, he, hu, hloaded⟩ | hnone
        · exact .inl ⟨e, u, he, hu, hloaded.mono ((later h₀ h).sound.loadConverted i)⟩
        · exact .inr hnone

/-- The vector at a position is the one built for the keys that stand there. -/
theorem load_cases (h₀ : ls₀.Sound first) (hl : ls₀.Converts b g) (hb : b.Sound H ∅)
    (h : Session S ls₀ first ls next answers) {i : Nat} {r : Except Error (Vec D.Elem)}
    (hr : .load C D i r ∈ answers) :
    (∃ e u, b.pool.vectors[i]? = some e ∧ r = .ok u ∧ Loaded ls C D e u) ∨
      b.pool.vectors[i]? = none ∧ ∃ e, r = .error e := by
  induction h with
  | start => cases hr
  | elsewhere h hle ih =>
      rcases ih hr with ⟨e, u, he, hu, hloaded⟩ | hnone
      · exact .inl ⟨e, u, he, hu, hloaded.mono ((later h₀ h).sound.elsewhere hle)⟩
      · exact .inr hnone
  | counterpart h C' D' v ih =>
      rcases List.mem_cons.mp hr with heq | hr
      · cases heq
      · rcases ih hr with ⟨e, u, he, hu, hloaded⟩ | hnone
        · exact .inl ⟨e, u, he, hu, hloaded.mono ((later h₀ h).sound.counterpart v)⟩
        · exact .inr hnone
  | @load ls next answers h C' D' i' ih =>
      have hlater := later h₀ h
      rcases List.mem_cons.mp hr with heq | hr
      · cases heq
        cases he : b.pool.vectors[i]? with
        | some e =>
            obtain ⟨u, hu, hloaded⟩ := (hl.mono hlater).loadConverted_eq_ok hlater.sound hb he
            exact .inl ⟨e, u, rfl, hu, hloaded⟩
        | none => exact .inr ⟨rfl, (hl.mono hlater).loadConverted_eq_error he⟩
      · rcases ih hr with ⟨e, u, he, hu, hloaded⟩ | hnone
        · exact .inl ⟨e, u, he, hu, hloaded.mono (hlater.sound.loadConverted i')⟩
        · exact .inr hnone

/-- All answers for vectors of one type are copies, and one injective renaming of the nodes makes
them. -/
theorem exists_renaming (h₀ : ls₀.Sound first) (hl : ls₀.Converts b g) (hS : S.get? C = some b)
    (hb : b.Sound H ∅) (h : Session S ls₀ first ls next answers) :
    ∃ f : NodeId → NodeId, Function.Injective f ∧ ∀ {v : Vec C.Elem} {n : Nat},
      v.Formed C.shape n → v.Known H →
        (∀ r, .counterpart C D v r ∈ answers → r = match b.ends? v with
          | some _ => .ok (v.map f g)
          | none => .error (.policy (.notInPool C.label ((S.nameOf? C).getD "")))) ∧
        ∀ i r, b.Holds i v → .load C D i r ∈ answers → r = .ok (v.map f g) := by
  have hlater := later h₀ h
  obtain ⟨l, hloader, hpool⟩ := hl.mono hlater
  obtain ⟨G, hsound, hfree⟩ := hlater.sound hloader
  have hbuilt : (b.pool.map g).Built l.plan G l.built := hpool ▸ hsound.built
  -- what is built for the keys of a vector is its copy
  have hcopy : ∀ {v : Vec C.Elem} {n e u}, v.Formed C.shape n → v.Known H → b.ends? v = some e →
      Loaded ls C D e u → u = v.map (b.copyId l.built next) g := by
    rintro v n e u hv hk he ⟨l', m, hl', hloads⟩
    obtain rfl := Option.some.inj (hloader.symm.trans hl')
    obtain ⟨hroot, htail⟩ := Builder.ends?_eq_some_iff.mp he
    exact hb.eq_map_of_loads hbuilt hv hk hroot htail hloads
  refine ⟨b.copyId l.built next, hb.copyId_injective hbuilt hfree, fun {v n} hv hk =>
    ⟨fun r hr => ?_, fun i r hi hr => ?_⟩⟩
  · rcases counterpart_cases h₀ hl hS hb h hk hr with ⟨e, u, he, rfl, hloaded⟩ | ⟨he, rfl⟩
    · rw [he, hcopy hv hk he hloaded]
    · rw [he]
  · obtain ⟨e, he, hroot, htail⟩ := hi
    rcases load_cases h₀ hl hb h hr with ⟨e', u, he', rfl, hloaded⟩ | ⟨hnone, -⟩
    · obtain rfl := Option.some.inj (he.symm.trans he')
      rw [hcopy hv hk (Builder.ends?_eq_some_iff.mpr ⟨hroot, htail⟩) hloaded]
    · rw [he] at hnone
      cases hnone

end Session

end RadixPool
