import Mathlib
import RadixPool.DataType
import RadixPool.Proofs.Archive.Canonical

/-!
What is saved does not tell where the nodes were.

Two families of vectors have one graph of nodes if the nodes of the first one can be renamed, each
name being used once, so that the second one is obtained. Only the nodes in use count: a renaming of
them extends to one of all identities, and so the families are added in step. Hence two records with
one graph of nodes have one archive, or fail with one error.

* `exists_injective_extension`: a renaming of finitely many identities extends to all of them.
* `Vec.Isomorphic`, `RecordType.Isomorphic`: families of vectors, and records, with one graph of
  nodes.
* `Vec.Isomorphic.addAll`: the pools, positions and keys of isomorphic families.
* `Policy.TreatsAlike`, `Policy.IgnoresIdentities`: policies that want the same pools for two
  records, and for all isomorphic ones.
* `RecordType.Isomorphic.toArchive_eq`: isomorphic records have one archive.
* `addAll_and_toArchive_of_isomorphic`: both.
-/

namespace RadixPool

variable {α : Type} {s : Shape}

/-- A function that is injective on finitely many identities agrees there with an injective one. -/
lemma exists_injective_extension {f : Nat → Nat} {t : Finset Nat} (hf : Set.InjOn f t) :
    ∃ f' : Nat → Nat, Function.Injective f' ∧ ∀ i ∈ t, f i = f' i := by
  -- the others are moved behind all images
  have hle : ∀ i ∈ t, f i ≤ t.sup f := fun i hi => Finset.le_sup hi
  refine ⟨fun i => if i ∈ t then f i else i + (t.sup f + 1), ?_, fun i hi => (if_pos hi).symm⟩
  intro i j hij
  by_cases hi : i ∈ t
  · by_cases hj : j ∈ t
    · simp only [if_pos hi, if_pos hj] at hij
      exact hf hi hj hij
    · simp only [if_pos hi, if_neg hj] at hij
      have := hle i hi
      omega
  · by_cases hj : j ∈ t
    · simp only [if_neg hi, if_pos hj] at hij
      have := hle j hj
      omega
    · simp only [if_neg hi, if_neg hj] at hij
      omega

/-! ### Vectors -/

namespace Vec

/-- Two families of vectors with one graph of nodes: `f` renames the nodes of the first one, and the
vectors of the second one have the renamed nodes with the same leaves, children and flags. -/
structure Isomorphic (f : NodeId → NodeId) (vs us : List (Vec α)) : Prop where
  inj : Set.InjOn f (ids vs)
  copies : List.Forall₂ (fun v u => u.Resembles (v.map f id)) vs us

/-- Isomorphic families are added to the same pool, at the same positions, and their nodes get the
same keys. -/
theorem Isomorphic.addAll {f : NodeId → NodeId} {vs us : List (Vec α)} (h : Isomorphic f vs us) :
    ((Builder.empty s).addAll us).1 = ((Builder.empty s).addAll vs).1 ∧
      ((Builder.empty s).addAll us).2.pool = ((Builder.empty s).addAll vs).2.pool ∧
      ∀ i ∈ ids vs,
        ((Builder.empty s).addAll us).2.key? (f i) = ((Builder.empty s).addAll vs).2.key? i := by
  obtain ⟨f', hf', heq⟩ := exists_injective_extension h.inj
  have hmap : vs.map (Vec.map f id) = vs.map (Vec.map f' id) :=
    List.map_congr_left fun v hv =>
      Vec.map_congr id fun n hn => heq n.id (mem_ids.mpr ⟨v, hv, n, hn, rfl⟩)
  have hcopies : List.Forall₂ (fun w u : Vec α => u.Resembles w) (vs.map (Vec.map f id)) us :=
    List.forall₂_map_left_iff.mpr h.copies
  rw [hmap, List.forall₂_map_left_iff] at hcopies
  obtain ⟨hpositions, hstep⟩ := Builder.Renames.empty.addAll hf' hcopies
  refine ⟨hpositions, hstep.pool.trans (Pool.map_id _), fun i hi => ?_⟩
  rw [heq i hi]
  exact hstep.key? i

end Vec

/-! ### Records -/

section Records

variable [TypeFamily] {R : RecordType}

namespace RecordType

/-- Two records that agree but for their containers, whose nodes are renamed for each type. -/
structure Isomorphic (R : RecordType) (f : ContainerType → NodeId → NodeId) (r u : R.Value) :
    Prop where
  inj : ∀ C, Set.InjOn (f C) (Vec.ids (R.vecs r C))
  copies : Schema.MirrorsAll (Schema.Resembles f) R.fields r u

end RecordType

namespace Policy

/-- The policy does not tell two records apart: it wants the same pools for both. -/
def TreatsAlike (P : Policy R) (r u : R.Value) : Prop := P.types u = P.types r

/-- The policy does not look at the identities of nodes: it does not tell any two records apart that
agree but for these. -/
def IgnoresIdentities (P : Policy R) : Prop :=
  ∀ (f : ContainerType → NodeId → NodeId) (r u : R.Value), R.Isomorphic f r u → P.TreatsAlike r u

/-- A policy that lists its pools does not look at the record at all. -/
lemma IgnoresIdentities.of_types_eq {P : Policy R} {Cs : List ContainerType}
    (h : ∀ r, P.types r = Cs) : P.IgnoresIdentities :=
  fun _ r u _ => (h u).trans (h r).symm

end Policy

/-- Isomorphic records have one archive under a policy that does not tell them apart. -/
theorem RecordType.Isomorphic.toArchive_eq {f : ContainerType → NodeId → NodeId} {r u : R.Value}
    (h : R.Isomorphic f r u) {P : Policy R} (halike : P.TreatsAlike r u) :
    toArchive P u = toArchive P r := by
  choose f' hf' heq using fun C => exists_injective_extension (h.inj C)
  refine toArchive_eq_of_resembles halike hf' ?_
  refine Schema.MirrorsAll.imp_of_mem R.fields (fun c hc w hw => ?_) h.copies
  have hmap : c.2.map (f c.1) id = c.2.map (f' c.1) id :=
    Vec.map_congr id fun n hn =>
      heq c.1 n.id (Vec.mem_ids.mpr ⟨c.2, RecordType.mem_vecs.mpr hc, n, hn, rfl⟩)
  rw [Schema.Resembles, ← hmap]
  exact hw

/-- What is saved depends on contents and sharing only, and not on the identities of the nodes:
two families of vectors with one graph of nodes are added to the same pool with the same keys, at
the same positions, and two records with one graph of nodes have the same archive or the same
error. This holds for every policy that does not itself tell them apart: for those that do not
look at identities, and so for all that list their pools. -/
theorem addAll_and_toArchive_of_isomorphic :
    (∀ {α : Type} (s : Shape) {f : NodeId → NodeId} {vs us : List (Vec α)},
      Vec.Isomorphic f vs us →
        ((Builder.empty s).addAll us).1 = ((Builder.empty s).addAll vs).1 ∧
          ((Builder.empty s).addAll us).2.pool = ((Builder.empty s).addAll vs).2.pool ∧
          ∀ i ∈ Vec.ids vs,
            ((Builder.empty s).addAll us).2.key? (f i) = ((Builder.empty s).addAll vs).2.key? i) ∧
      ∀ {R : RecordType} {f : ContainerType → NodeId → NodeId} {r u : R.Value},
        R.Isomorphic f r u →
          (∀ P : Policy R, P.TreatsAlike r u → toArchive P u = toArchive P r) ∧
            (∀ P : Policy R, P.IgnoresIdentities → toArchive P u = toArchive P r) ∧
            toArchive (.auto R) u = toArchive (.auto R) r ∧
            toArchive (.versioned R) u = toArchive (.versioned R) r ∧
            ∀ key pools, toArchive (.named R key pools) u = toArchive (.named R key pools) r := by
  refine ⟨fun _ _ _ _ h => h.addAll, fun {R f r u} h => ?_⟩
  have hignores : ∀ P : Policy R, P.IgnoresIdentities → toArchive P u = toArchive P r :=
    fun P hP => h.toArchive_eq (hP f r u h)
  exact ⟨fun P hP => h.toArchive_eq hP, hignores, hignores _ (.of_types_eq fun _ => rfl),
    hignores _ (.of_types_eq fun _ => rfl), fun _ _ => hignores _ (.of_types_eq fun _ => rfl)⟩

end Records

/-- A relaxed vector and the one it was made from, of which the root and the tail stand in its
tree, and two others for which this is so; the identities of the nodes come in the opposite order.
One policy wants a pool if a field says so, and does not look at identities. -/
theorem addAll_and_toArchive_of_isomorphic_reversed :
    ∃ (C : ContainerType) (v w v' w' : Vec C.Elem) (R : RecordType) (r u : R.Value) (P : Policy R),
      R.containers r = [⟨C, v⟩, ⟨C, w⟩] ∧ R.containers u = [⟨C, v'⟩, ⟨C, w'⟩] ∧
        w.root.isRelaxed = true ∧ w.root.node ∈ v.root.children ∧ .leaf w.tail ∈ v.root.node.nodes ∧
        v.root.id < v.tail.id ∧ v'.tail.id < v'.root.id ∧ P.IgnoresIdentities ∧
        ((Builder.empty C.shape).addAll [v', w']).1 = ((Builder.empty C.shape).addAll [v, w]).1 ∧
        ((Builder.empty C.shape).addAll [v', w']).2.pool =
          ((Builder.empty C.shape).addAll [v, w]).2.pool ∧
        toArchive P u = toArchive P r ∧
        toArchive (.auto R) u = toArchive (.auto R) r ∧
        toArchive (.named R "pair" []) u = toArchive (.named R "pair" []) r := by
  let C : ContainerType := ⟨"Flags", .flag, ⟨1, 1⟩, by decide⟩
  let R : RecordType :=
    ⟨"Pair", [(⟨"new", "new"⟩, .container C), (⟨"old", "old"⟩, .container C),
      (⟨"full", "full"⟩, .value .flag)]⟩
  let P : Policy R :=
    .under "pair" (fun r => if (show Bool from r.2.2.1) then [C] else []) fun _ _ => .ok "vectors"
  let f : Nat → Nat := fun i => 9 - i
  let w : Vec C.Elem := World.relaxedVec
  let v : Vec C.Elem := World.grownVec
  let r : R.Value := (v, w, (show Bool from true), ())
  let u : R.Value := (v.map f id, w.map f id, (show Bool from true), ())
  have hP : P.IgnoresIdentities := by
    rintro g r u ⟨-, -, -, hfull, -⟩
    rw [Policy.TreatsAlike]
    exact congrArg (fun b : Bool => if b then [C] else []) hfull
  have hinj : ∀ {t : Finset Nat}, (∀ i ∈ t, i ≤ 9) → Set.InjOn f t := by
    intro t hle i hi j hj hij
    have hi' := hle i hi
    have hj' := hle j hj
    simp only [f] at hij
    omega
  have hids : ∀ i ∈ Vec.ids [v, w], i ≤ 9 := by decide
  have hvecs : Vec.Isomorphic f [v, w] [v.map f id, w.map f id] :=
    ⟨hinj hids, .cons (.refl _) (.cons (.refl _) .nil)⟩
  have hrecord : R.Isomorphic (fun _ => f) r u := by
    refine ⟨fun D => hinj fun i hi => ?_, .refl _, .refl _, rfl, trivial⟩
    obtain ⟨x, hx, n, hn, rfl⟩ := Vec.mem_ids.mp hi
    have hx' : (⟨D, x⟩ : (C : ContainerType) × Vec C.Elem) ∈ [⟨C, v⟩, ⟨C, w⟩] :=
      RecordType.mem_vecs.mp hx
    have hmem : ∃ y ∈ [v, w], ∃ m ∈ y.nodes, m.id = n.id := by
      rcases List.mem_cons.mp hx' with heq | hx'
      · cases heq
        exact ⟨v, by simp, n, hn, rfl⟩
      · cases List.mem_singleton.mp hx'
        exact ⟨w, by simp, n, hn, rfl⟩
    exact hids n.id (Vec.mem_ids.mpr hmem)
  obtain ⟨hadd, hsave⟩ := addAll_and_toArchive_of_isomorphic
  obtain ⟨hpositions, hpool, -⟩ := hadd C.shape hvecs
  obtain ⟨-, hignores, hauto, -, hnamed⟩ := hsave hrecord
  exact ⟨C, v, w, v.map f id, w.map f id, R, r, u, P, rfl, rfl, rfl, World.shared_grownVec.1,
    World.shared_grownVec.2, by decide, by decide, hP, hpositions, hpool, hignores P hP, hauto,
    hnamed "pair" []⟩

end RadixPool
