import Mathlib
import RadixPool.DataType
import RadixPool.Proofs.Conversion.Total
import RadixPool.Proofs.PoolSet.History

/-!
Building and converting commute.

The counterparts of some vectors, added to a new pool in the same order, give the converted pool
again: the loader makes one node for each key, so the counterparts share what the vectors share, and
a builder sees no more of its vectors than that.

* `counterparts`: the counterparts of some vectors, one after the other.
* `Conversion.Total.addAll_counterparts`: the pool that they give.
-/

namespace RadixPool

section Counterparts

variable [TypeFamily]

/-- The counterparts of some vectors, one after the other. -/
def counterparts (S : PoolSet) (C D : ContainerType) (converted : LoaderSet) :
    List (Vec C.Elem) → Fresh (List (Except Error (Vec D.Elem)) × LoaderSet)
  | [] => fun next => (([], converted), next)
  | v :: vs => fun next =>
    let ((r, converted), next) := counterpart S converted C D v next
    let ((rs, converted), next) := counterparts S C D converted vs next
    ((r :: rs, converted), next)

/-- A session in which the counterparts of some vectors have been asked for. -/
lemma Session.counterparts {S : PoolSet} {C D : ContainerType} {ls₀ ls : LoaderSet}
    {first next : NodeId} {answers : List Answer} (h : Session S ls₀ first ls next answers)
    (vs : List (Vec C.Elem)) :
    ∃ answers', Session S ls₀ first (counterparts S C D ls vs next).1.2
        (counterparts S C D ls vs next).2 answers' ∧ answers ⊆ answers' ∧
      List.Forall₂ (fun v r => .counterpart C D v r ∈ answers') vs
        (counterparts S C D ls vs next).1.1 := by
  induction vs generalizing ls next answers with
  | nil => exact ⟨answers, h, List.Subset.refl _, .nil⟩
  | cons v vs ih =>
      obtain ⟨answers', hsession, hsub, hall⟩ := ih (h.counterpart C D v)
      exact ⟨answers', hsession, List.Subset.trans (List.subset_cons_self _ _) hsub,
        .cons (hsub List.mem_cons_self) hall⟩

variable {m : Type → Type} [Monad m] [LawfulMonad m] {ε : Type} [ToString ε]

namespace Conversion.Total

variable {c : Conversion m ε} {g : c.source.Elem → c.target.Elem} {t : Conversions m ε}
  {name : String}

/-- A set of one pool is converted. -/
lemma convert_singleton (hc : c.Total g) (hfind : t.find? c.source = some c)
    {b : Builder c.source.Elem} {l : Loader c.source.Elem}
    (hl : Loader.ofPool c.source.shape name b.pool = .ok l) :
    ∃ converted, PoolSet.convert t ⟨[⟨name, c.source, b⟩]⟩ = pure converted ∧
      (∀ next, converted.Sound next) ∧ converted.Converts b g := by
  obtain ⟨plan, hl'⟩ := Loader.ofPool_map hl g name
  have hnew : ∀ r ∈ LoaderSet.empty.loaders, r.source ≠ c.source := fun _ hr => nomatch hr
  exact ⟨_, PoolSet.convertAll_cons hfind hc hl'
    (fun _ hr => absurd hr List.not_mem_nil) [],
    fun _ => LoaderSet.Sound.empty.append hnew hl', _, LoaderSet.loader?_append_self _ hnew, rfl⟩

/-- Vectors that were added to a pool are looked up in the converted pool, and what comes out is
added to a new pool, in the same order. Nothing is missing, and the new pool is the converted one,
key by key; the positions are the same, too. It does not matter what else the loaders were asked
for. -/
theorem addAll_counterparts (hc : c.Total g) (hfind : t.find? c.source = some c)
    {w : World c.source.Elem} (hw : w.Reachable c.source.shape) {vs : List (Vec c.source.Elem)}
    (hvs : ∀ v ∈ vs, v ∈ w.vecs) (hshift : ∀ v ∈ vs, v.shift < Word.width) {is : List Nat}
    {b : Builder c.source.Elem} (hadd : (Builder.empty c.source.shape).addAll vs = (is, b))
    (name : String) :
    b.pool.convert name c.apply = pure (b.pool.map g) ∧
      ∃ converted, PoolSet.convert t ⟨[⟨name, c.source, b⟩]⟩ = pure converted ∧
        ∀ {first ls next answers},
          Session ⟨[⟨name, c.source, b⟩]⟩ converted first ls next answers →
            ∃ us, (counterparts ⟨[⟨name, c.source, b⟩]⟩ c.source c.target ls vs next).1.1 =
                us.map .ok ∧
              ((Builder.empty c.target.shape).addAll us).1 = is ∧
              ((Builder.empty c.target.shape).addAll us).2.pool = b.pool.map g := by
  obtain ⟨H, hw⟩ := hw.sound c.source.valid
  obtain ⟨honly, hshape, -, hst, -⟩ := hw.addAll c.source.valid hvs hshift hadd
  obtain ⟨plan, hl⟩ := honly.ofPool_eq_ok c.source.valid hshape hst name
  obtain ⟨hb, hholds, -⟩ := hw.met hvs hadd
  obtain ⟨converted, hconvert, hsound, hconverts⟩ := hc.convert_singleton hfind hl
  refine ⟨hc.convert_eq name b.pool, converted, hconvert,
    fun {first ls next answers} hsession => ?_⟩
  obtain ⟨answers', hsession', -, hall⟩ := hsession.counterparts (D := c.target) vs
  have hget : PoolSet.get? ⟨[⟨name, c.source, b⟩]⟩ c.source = some b :=
    PoolSet.builderIn_cons_self ⟨name, c.source, b⟩ []
  obtain ⟨f, hf, hanswers⟩ := hsession'.exists_renaming (hsound first) hconverts hget hb
  -- every vector was added, so it has a counterpart
  have hcopies : ∀ v ∈ vs, ∀ r, .counterpart c.source c.target v r ∈ answers' →
      r = .ok (v.map f g) := by
    intro v hv r hr
    obtain ⟨h, hvec⟩ := hw.vec v (hvs v hv)
    obtain ⟨hcounterpart, -⟩ := hanswers hvec.formed (hw.known v (hvs v hv))
    obtain ⟨i, e, -, hends⟩ := Builder.exists_holds hholds hv
    rw [hcounterpart r hr, Builder.ends?_eq_some_iff.mpr hends]
  refine ⟨vs.map (Vec.map f g), ?_, ?_⟩
  · rw [List.map_map, ← List.forall₂_eq_eq_eq, List.forall₂_map_right_iff]
    refine List.Forall₂.flip (List.forall₂_iff_zip.mpr ⟨hall.length_eq, fun {v r} hmem => ?_⟩)
    exact hcopies v (List.of_mem_zip hmem).1 r ((List.forall₂_iff_zip.mp hall).2 hmem)
  · have hus : List.Forall₂ (fun v u => u.Resembles (v.map f g)) vs (vs.map (Vec.map f g)) := by
      rw [List.forall₂_map_right_iff, List.forall₂_same]
      exact fun v _ => .refl _
    have hrebuilt := Builder.addAll_renamed (s := c.source.shape) hf hus
    rwa [hadd, ← hc.shape] at hrebuilt

end Conversion.Total

end Counterparts

/-- A relaxed vector and the one it was made from, of which the root and the tail stand in its
tree; the elements become texts. -/
theorem Conversion.Total.addAll_counterparts_grown :
    ∃ (c : Conversion Id) (g : c.source.Elem → c.target.Elem) (t : Conversions Id)
      (w : World c.source.Elem) (u v : Vec c.source.Elem) (b : Builder c.source.Elem), c.Total g ∧
      t.find? c.source = some c ∧ w.Reachable c.source.shape ∧ (∀ x ∈ [v, u, v], x ∈ w.vecs) ∧
      u.root.isRelaxed = true ∧ u.root.node ∈ v.root.children ∧
      .leaf u.tail ∈ v.root.node.nodes ∧ (∀ x ∈ [v, u, v], x.shift < Word.width) ∧
      (Builder.empty c.source.shape).addAll [v, u, v] = ([0, 1, 0], b) ∧
      b.pool.convert "pool" c.apply = pure (b.pool.map g) ∧
      ∃ converted, PoolSet.convert t ⟨[⟨"pool", c.source, b⟩]⟩ = pure converted ∧
        ∀ {first ls next answers},
          Session ⟨[⟨"pool", c.source, b⟩]⟩ converted first ls next answers →
            ∃ us, (counterparts ⟨[⟨"pool", c.source, b⟩]⟩ c.source c.target ls [v, u, v]
                next).1.1 = us.map .ok ∧
              ((Builder.empty c.target.shape).addAll us).1 = [0, 1, 0] ∧
              ((Builder.empty c.target.shape).addAll us).2.pool = b.pool.map g := by
  let C : ContainerType := ⟨"Flags", .flag, ⟨1, 1⟩, by decide⟩
  let D : ContainerType := ⟨"Texts", .text, ⟨1, 1⟩, by decide⟩
  let g : C.Elem → D.Elem := fun x => show String from if show Bool from x then "on" else "off"
  let c : Conversion Id := ⟨C, D, fun x => pure (g x)⟩
  let u : Vec C.Elem := World.relaxedVec
  let v : Vec C.Elem := World.grownVec
  obtain ⟨l, hw⟩ := World.Reachable.grown
  have hvs : ∀ x ∈ [v, u, v], x ∈ [v, u] := by simp
  have hshift : ∀ x ∈ [v, u, v], x.shift < Word.width := by decide
  have hc : c.Total g := ⟨fun _ => rfl, rfl⟩
  have hfind : (⟨[c]⟩ : Conversions Id).find? c.source = some c := rfl
  have hpositions : ((Builder.empty C.shape).addAll [v, u, v]).1 = [0, 1, 0] := by decide
  generalize hadd : (Builder.empty C.shape).addAll [v, u, v] = r at hpositions
  obtain ⟨is, b⟩ := r
  obtain rfl : is = [0, 1, 0] := hpositions
  exact ⟨c, g, ⟨[c]⟩, _, u, v, b, hc, hfind, hw, hvs, rfl, World.shared_grownVec.1,
    World.shared_grownVec.2, hshift, hadd, hc.addAll_counterparts hfind hw hvs hshift hadd "pool"⟩

end RadixPool
