import Mathlib
import RadixPool.DataType
import RadixPool.Proofs.Conversion.Total
import RadixPool.Proofs.PoolSet.History

/-!
Counterparts of vectors.

When the pools of a set have been converted by total functions, the counterpart of a vector is the
vector with its elements converted. It is there exactly if root and tail of the vector were met; and
all that comes out of the converted pool of one type shares what the originals share.

* `PoolSet.Made.exists_converted`: what is asked of converted pools, in any order, is answered by
  copies of the originals.
-/

namespace RadixPool

namespace PoolSet

section Counterparts

variable [TypeFamily] {m : Type → Type} [Monad m] [LawfulMonad m] {ε : Type} [ToString ε]
  {t : Conversions m ε} {g : (c : Conversion m ε) → c.source.Elem → c.target.Elem}
  {w : (C : ContainerType) → World C.Elem} {S : PoolSet} {log : Log}

/-- A pool set made by declarations and additions is converted by total functions for its types,
whatever it holds. The loaders that come out may then be asked for counterparts and for positions,
in any order and any number of times. The counterpart of a vector, which need not have been added
itself, is there exactly if its root and its tail were met: it has the same length and level and
the converted elements, and so has what is loaded from the position of a vector. For the vectors
of one type one injective renaming of the nodes makes all of them, so they share exactly what
their originals share. -/
theorem Made.exists_converted (hw : ∀ C, (w C).Reachable C.shape) (hS : S.Made w log)
    (ht : ∀ p ∈ S.pools, ∃ c, t.find? p.type = some c ∧ c.Total (g c)) :
    ∃ converted, S.convert t = pure converted ∧
      ∀ {first ls next answers}, Session S converted first ls next answers →
        ∀ {c b}, t.find? c.source = some c → S.get? c.source = some b →
          ∃ f : NodeId → NodeId, Function.Injective f ∧
            (∀ v ∈ (w c.source).vecs, ∀ r, .counterpart c.source c.target v r ∈ answers →
              r = if v.root.id ∈ Vec.ids ((log c.source).map Prod.snd) ∧
                  v.tail.id ∈ Vec.ids ((log c.source).map Prod.snd) then .ok (v.map f (g c))
                else .error (.policy
                  (.notInPool c.source.label ((S.nameOf? c.source).getD "")))) ∧
            ∀ i v, (i, v) ∈ log c.source → ∀ r, .load c.source c.target i r ∈ answers →
              r = .ok (v.map f (g c)) := by
  choose H hw using fun C => (hw C).sound C.valid
  obtain ⟨converted, hconvert, hsound, hconverts⟩ :=
    convert_eq hS.nodup.1 hS.nodup.2 ht (hS.accepted hw)
  refine ⟨converted, hconvert, fun {first ls next answers} hsession {c b} hfind hb => ?_⟩
  obtain ⟨hb', hholds, hmet⟩ := hS.met hw hb
  obtain ⟨f, hf, hanswers⟩ :=
    hsession.exists_renaming (hsound first) (hconverts hfind hb) hb hb'
  have hformed : ∀ v ∈ (w c.source).vecs, ∃ h, v.Formed c.source.shape h := by
    intro v hv
    obtain ⟨h, hv⟩ := (hw c.source).vec v hv
    exact ⟨h, hv.formed⟩
  refine ⟨f, hf, fun v hv r hr => ?_, fun i v hiv r hr => ?_⟩
  · obtain ⟨h, hformed⟩ := hformed v hv
    obtain ⟨hcounterpart, -⟩ := hanswers hformed ((hw c.source).known v hv)
    rw [hcounterpart r hr]
    have hends := Builder.exists_ends?_iff hmet (v := v)
    split
    · next e he => rw [if_pos (hends.mp ⟨e, he⟩)]
    · next he =>
      rw [if_neg fun hin => ?_]
      obtain ⟨e, he'⟩ := hends.mpr hin
      rw [he] at he'
      cases he'
  · obtain ⟨hv, -⟩ := hS.mem_log hiv
    obtain ⟨h, hformed⟩ := hformed v hv
    obtain ⟨-, hload⟩ := hanswers hformed ((hw c.source).known v hv)
    exact hload i r (hholds _ hiv) hr

end Counterparts

/-- Only a relaxed vector is added, and not the one it was made from; but the root and the tail of
this one stand in its tree, so both have counterparts. The elements become texts. -/
theorem Made.exists_converted_grown :
    ∃ (C : ContainerType) (u v : Vec C.Elem) (t : Conversions Id)
      (g : (c : Conversion Id) → c.source.Elem → c.target.Elem)
      (w : (C : ContainerType) → World C.Elem) (S : PoolSet) (log : Log),
      u ∈ (w C).vecs ∧ u.root.isRelaxed = true ∧ u.root.node ∈ v.root.children ∧
      .leaf u.tail ∈ v.root.node.nodes ∧ log C = [(0, v)] ∧ (∀ C, (w C).Reachable C.shape) ∧
      S.Made w log ∧ (∀ p ∈ S.pools, ∃ c, t.find? p.type = some c ∧ c.Total (g c)) ∧
      ∃ converted, S.convert t = pure converted ∧
        ∀ {first ls next answers}, Session S converted first ls next answers →
          ∀ {c b}, t.find? c.source = some c → S.get? c.source = some b →
            ∃ f : NodeId → NodeId, Function.Injective f ∧
              (∀ v ∈ (w c.source).vecs, ∀ r, .counterpart c.source c.target v r ∈ answers →
                r = if v.root.id ∈ Vec.ids ((log c.source).map Prod.snd) ∧
                    v.tail.id ∈ Vec.ids ((log c.source).map Prod.snd) then .ok (v.map f (g c))
                  else .error (.policy
                    (.notInPool c.source.label ((S.nameOf? c.source).getD "")))) ∧
              ∀ i v, (i, v) ∈ log c.source → ∀ r, .load c.source c.target i r ∈ answers →
                r = .ok (v.map f (g c)) := by
  let C : ContainerType := ⟨"Flags", .flag, ⟨1, 1⟩, by decide⟩
  let D : ContainerType := ⟨"Texts", .text, ⟨1, 1⟩, by decide⟩
  let spell : Conversion Id :=
    ⟨C, D, fun x => pure (show String from if show Bool from x then "on" else "off")⟩
  let g : (c : Conversion Id) → c.source.Elem → c.target.Elem := fun c x =>
    match (c.apply x).run with
    | .ok y => y
    | .error _ => c.target.elem.default
  obtain ⟨l, hgrown⟩ := World.Reachable.grown
  let w₀ : World C.Elem := ⟨7, [World.grownVec, World.relaxedVec], [l]⟩
  let w : (C : ContainerType) → World C.Elem := Function.update (fun _ => .start) C w₀
  have hwC : w C = w₀ := Function.update_self ..
  have hw : ∀ D, (w D).Reachable D.shape := by
    intro D
    by_cases hD : D = C
    · subst hD
      exact hwC ▸ hgrown
    · have hstart : w D = .start := Function.update_of_ne hD ..
      exact hstart ▸ .refl
  let u : Vec C.Elem := World.relaxedVec
  let v : Vec C.Elem := World.grownVec
  have hu : u ∈ (w C).vecs := hwC ▸ List.mem_cons_of_mem v List.mem_cons_self
  have hv : v ∈ (w C).vecs := hwC ▸ List.mem_cons_self
  let b₀ : Builder C.Elem := .empty C.shape
  let b₁ : Builder C.Elem := (b₀.add v).2
  have hdeclare : PoolSet.empty.declare C "flags" = .ok ⟨[⟨"flags", C, b₀⟩]⟩ := rfl
  have hadd : PoolSet.add ⟨[⟨"flags", C, b₀⟩]⟩ C v = .ok ((b₀.add v).1, ⟨[⟨"flags", C, b₁⟩]⟩) := by
    rw [PoolSet.add, addTo_cons_self]
  have hposition : (b₀.add v).1 = 0 := by decide
  have hS := (Made.empty.declare hdeclare).add hv (by decide) hadd
  have ht : ∀ p ∈ [(⟨"flags", C, b₁⟩ : DeclaredPool)],
      ∃ c, (⟨[spell]⟩ : Conversions Id).find? p.type = some c ∧ c.Total (g c) :=
    List.forall_mem_singleton.mpr ⟨spell, rfl, fun _ => rfl, rfl⟩
  rw [hposition] at hS
  exact ⟨C, u, v, ⟨[spell]⟩, g, w, _, _, hu, rfl, World.shared_grownVec.1, World.shared_grownVec.2,
    Function.update_self .., hw, hS, ht, hS.exists_converted hw ht⟩

end PoolSet

end RadixPool
