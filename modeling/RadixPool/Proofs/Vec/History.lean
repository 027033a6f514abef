import Mathlib
import RadixPool.Proofs.Pool.Load

/-!
Histories of vectors.

A world is what a program holds that works with vectors of one type: vectors, of which each may be
used any number of times, loaders, and the supply of identities. It begins with nothing, and a step
makes an empty vector, appends to a vector, replaces an element, takes a pool that the loader
accepts, or loads from it.

* `World`, `World.Step`, `World.Reachable`: worlds and their histories.
* `World.Sound`: vectors and loaders are sound and agree on their nodes; `World.Sound.step` and
  `World.Reachable.sound` carry this through all histories.
* `World.Reachable.refines_list`: in every history a vector behaves as the list of its elements.
* `World.relaxedVec`, `World.grownVec`: a vector with a relaxed root, and the one it grows into;
  `World.Reachable.grown`: the history that makes them.
-/

namespace RadixPool

variable {α : Type} {s : Shape}

/-- What a program holds: vectors, loaders, and the next unused identity. -/
structure World (α : Type) where
  next : NodeId
  vecs : List (Vec α)
  loaders : List (Loader α)

namespace World

/-- The world in the beginning. -/
def start : World α := ⟨0, [], []⟩

/-- The steps of a history. Vectors stay when others are made from them. -/
inductive Step (s : Shape) (w : World α) : World α → Prop where
  /-- Identities are drawn for something else. -/
  | draw (next : NodeId) (le : w.next ≤ next) : Step s w { w with next }
  | empty : Step s w
      { w with next := (Vec.empty (α := α) s w.next).2
               vecs := (Vec.empty s w.next).1 :: w.vecs }
  | push {v : Vec α} (mem : v ∈ w.vecs) (x : α) (lt : v.toList.length + 1 < Word.count) :
      Step s w { w with next := (v.push s x w.next).2, vecs := (v.push s x w.next).1 :: w.vecs }
  | set {v v' : Vec α} (mem : v ∈ w.vecs) {i : Nat} {x : α} {next : NodeId}
      (some : v.set? s i x w.next = (some v', next)) :
      Step s w { w with next, vecs := v' :: w.vecs }
  /-- A pool is accepted. -/
  | accept {name : String} {p : Pool α} {l : Loader α} (ok : Loader.ofPool s name p = .ok l) :
      Step s w { w with loaders := l :: w.loaders }
  /-- A loader is asked for the vector of two keys; what it has built stays in any case. -/
  | ask {n : Nat} {l : Loader α} (mem : w.loaders[n]? = some l) (e : PooledVec) :
      Step s w { w with next := (l.vecOf e w.next).2
                        loaders := w.loaders.set n (l.vecOf e w.next).1.2 }
  /-- A loader gives the vector of two keys. -/
  | load {n : Nat} {l l' : Loader α} (mem : w.loaders[n]? = some l) {e : PooledVec} {v : Vec α}
      {next : NodeId} (ok : l.vecOf e w.next = ((.ok v, l'), next))
      (lt : v.toList.length < Word.count) :
      Step s w { next, vecs := v :: w.vecs, loaders := w.loaders.set n l' }

/-- The worlds that histories lead to. -/
def Reachable (s : Shape) (w : World α) : Prop := Relation.ReflTransGen (Step s) start w

/-- Sound worlds: all vectors and loaders are sound, and one heap knows all of their nodes. -/
structure Sound (s : Shape) (H : Heap α) (w : World α) : Prop where
  free : H.FreeFrom w.next
  vec : ∀ v ∈ w.vecs, ∃ h, v.Sound s h
  known : ∀ v ∈ w.vecs, v.Known H
  loader : ∀ l ∈ w.loaders, l.Sound s H

variable {H H' : Heap α} {w w' : World α}

namespace Sound

/-- There is nothing to be sound in the beginning. -/
lemma start : (start : World α).Sound s fun _ => none :=
  ⟨fun _ _ => rfl, fun _ hv => (nomatch hv), fun _ hv => (nomatch hv), fun _ hl => nomatch hl⟩

/-- A further vector made of new and old nodes. -/
lemma addVec (hw : w.Sound s H) {next : NodeId} (hg : H.Grows w.next H' next) {v : Vec α} {h : Nat}
    (hv : v.Sound s h) (hk : v.Known H') :
    ({ w with next, vecs := v :: w.vecs } : World α).Sound s H' := by
  refine ⟨hg.free, ?_, ?_, fun l hl => (hw.loader l hl).mono hg⟩
  · exact List.forall_mem_cons.mpr ⟨⟨h, hv⟩, hw.vec⟩
  · exact List.forall_mem_cons.mpr ⟨hk, fun u hu => hg.vecKnown (hw.known u hu)⟩

/-- A loader that has been asked for something. -/
lemma setLoader (hw : w.Sound s H) {n : Nat} {l l' : Loader α} {next : NodeId}
    (hl : l.Later s H w.next H' l' next) :
    ({ w with next, loaders := w.loaders.set n l' } : World α).Sound s H' := by
  refine ⟨hl.grows.free, hw.vec, fun u hu => hl.grows.vecKnown (hw.known u hu), fun l₁ hl₁ => ?_⟩
  rcases List.mem_or_eq_of_mem_set hl₁ with hl₁ | rfl
  · exact (hw.loader l₁ hl₁).mono hl.grows
  · exact hl.sound

/-- Every step leads from a sound world to a sound one. -/
theorem step (hs : s.Valid) (hw : w.Sound s H) (hstep : Step s w w') :
    ∃ H', H.Grows w.next H' w'.next ∧ w'.Sound s H' := by
  cases hstep with
  | draw next hle =>
      have hg : H.Grows w.next H next := ⟨id, hle, fun i hi => hw.free i (hle.trans hi)⟩
      exact ⟨H, hg, hg.free, hw.vec, hw.known, hw.loader⟩
  | empty =>
      obtain ⟨H', hg, hk⟩ := @Vec.known_empty α s H w.next hw.free
      exact ⟨H', hg, hw.addVec hg (Vec.Sound.empty hs w.next) hk⟩
  | push hmem x hlt =>
      obtain ⟨h, hv⟩ := hw.vec _ hmem
      obtain ⟨h', hv'⟩ := hv.push hs x w.next hlt
      obtain ⟨H', hg, hk⟩ := @Vec.known_push α s H w.next hw.free _ (hw.known _ hmem) x
      exact ⟨H', hg, hw.addVec hg hv' hk⟩
  | @set v v' hmem i x next hset =>
      obtain ⟨h, hv⟩ := hw.vec v hmem
      obtain ⟨H', hg, hk⟩ := Vec.known_set? hw.free (hw.known v hmem) hset
      have hi : i < v.toList.length := by
        by_contra hle
        rw [hv.set?_eq_none (Nat.le_of_not_lt hle)] at hset
        cases hset
      obtain ⟨v₁, next₁, hset₁, hv₁, -⟩ := hv.set?_eq hs hi x w.next
      rw [hset₁] at hset
      cases hset
      exact ⟨H', hg, hw.addVec hg hv₁ hk⟩
  | @accept name p l hl =>
      refine ⟨H, .refl hw.free, hw.free, hw.vec, hw.known, ?_⟩
      exact List.forall_mem_cons.mpr ⟨.ofPool hl H, hw.loader⟩
  | @ask n l hmem e =>
      obtain ⟨H', hlater, -⟩ :=
        (hw.loader l (List.mem_of_getElem? hmem)).vecOf hs hw.free e
      exact ⟨H', hlater.grows, hw.setLoader hlater⟩
  | @load n l l' hmem e v next hok hlt =>
      obtain ⟨H', hlater, hloads⟩ :=
        (hw.loader l (List.mem_of_getElem? hmem)).vecOf hs hw.free e
      rw [hok] at hlater hloads
      obtain ⟨h, hv⟩ := hloads v rfl
      have hw' : World.Sound s H' { w with next, loaders := w.loaders.set n l' } :=
        hw.setLoader hlater
      exact ⟨H', hlater.grows, hw'.addVec (.refl hw'.free) (hv.vecSound hlt)
        (hv.known hlater.sound.built)⟩

end Sound

/-- Every history leads to a sound world. -/
theorem Reachable.sound (hs : s.Valid) (hw : w.Reachable s) : ∃ H, w.Sound s H := by
  induction hw with
  | refl => exact ⟨_, .start⟩
  | tail _ hstep ih =>
      obtain ⟨H, hw⟩ := ih
      obtain ⟨H', -, hw'⟩ := hw.step hs hstep
      exact ⟨H', hw'⟩

/-- In every history a vector behaves as the list of its elements: its length is the one of the
list, a look-up gives the element at the position and nothing out of bounds, appending puts an
element behind the others, and replacing fails out of bounds only and else replaces one element. -/
theorem Reachable.refines_list (hs : s.Valid) (hw : w.Reachable s) {v : Vec α} (hv : v ∈ w.vecs) :
    v.len = v.toList.length ∧
      (∀ i (hi : i < v.toList.length), v.get? s i = some v.toList[i]) ∧
      (∀ i, v.toList.length ≤ i → v.get? s i = none) ∧
      (∀ x next, (v.push s x next).1.toList = v.toList ++ [x]) ∧
      ∀ i x next, ((v.set? s i x next).1 = none ↔ v.toList.length ≤ i) ∧
        ∀ v', (v.set? s i x next).1 = some v' → v'.toList = v.toList.set i x := by
  obtain ⟨H, hw⟩ := hw.sound hs
  obtain ⟨h, hv⟩ := hw.vec v hv
  refine ⟨hv.len, fun i hi => ?_, fun i hi => ?_, hv.toList_push hs, fun i x next => ?_⟩
  · rw [hv.get?_eq hs, List.getElem?_eq_getElem hi]
  · rw [hv.get?_eq hs, List.getElem?_eq_none hi]
  · by_cases hi : v.toList.length ≤ i
    · rw [hv.set?_eq_none hi]
      exact ⟨⟨fun _ => hi, fun _ => rfl⟩, fun _ h => nomatch h⟩
    · obtain ⟨v₁, next₁, hset, -, hlist⟩ := hv.set?_eq hs (Nat.lt_of_not_le hi) x next
      rw [hset]
      refine ⟨⟨(fun h => nomatch h), fun h => absurd h hi⟩, fun v' hv' => ?_⟩
      rw [← Option.some.inj hv', hlist]

/-! ### A relaxed vector -/

/-- A pool with a relaxed root: its first child is not full. -/
def relaxedPool : Pool Bool :=
  ⟨⟨1, 1⟩, .ofList [(0, ⟨[1, 2], true⟩)],
    .ofList [(1, [true]), (2, [true, false]), (3, [true, true])], [⟨0, 3⟩]⟩

/-- The vector of this pool. -/
def relaxedVec : Vec Bool :=
  ⟨5, 1, ⟨2, [.leaf ⟨0, [true]⟩, .leaf ⟨1, [true, false]⟩], some [1, 3]⟩, ⟨3, [true, true]⟩⟩

/-- The vector with a further element. Its tail was full, and there was no room for it below the old
root; it stands below a new root now, next to the old one. -/
def grownVec : Vec Bool := (relaxedVec.push ⟨1, 1⟩ true 4).1

/-- They share the tree of the one and its tail, which is a leaf of the tree of the other. -/
lemma shared_grownVec : relaxedVec.root.node ∈ grownVec.root.children ∧
    .leaf relaxedVec.tail ∈ grownVec.root.node.nodes := by
  have hleaf : grownVec.root.node.nodes[5]? = some (.leaf relaxedVec.tail) := rfl
  exact ⟨List.mem_cons_self, List.mem_of_getElem? hleaf⟩

/-- The vector of the relaxed root is loaded. -/
lemma Reachable.relaxed : ∃ l, Reachable ⟨1, 1⟩ ⟨4, [relaxedVec], [l]⟩ := by
  obtain ⟨l, l', hl, hload⟩ : ∃ l l', Loader.ofPool ⟨1, 1⟩ "pool" relaxedPool = .ok l ∧
      l.vecOf ⟨0, 3⟩ 0 = ((.ok relaxedVec, l'), 4) := ⟨_, _, rfl, rfl⟩
  have haccept : Step ⟨1, 1⟩ start ⟨0, [], [l]⟩ := .accept hl
  have hstep : Step ⟨1, 1⟩ ⟨0, [], [l]⟩ ⟨4, [relaxedVec], [l']⟩ :=
    @Step.load _ _ ⟨0, [], [l]⟩ 0 l l' rfl _ _ _ hload (by decide)
  exact ⟨l', (Relation.ReflTransGen.single haccept).tail hstep⟩

/-- An element is appended to it. -/
lemma Reachable.grown : ∃ l, Reachable ⟨1, 1⟩ ⟨7, [grownVec, relaxedVec], [l]⟩ := by
  obtain ⟨l, hw⟩ := Reachable.relaxed
  have hmem : relaxedVec ∈ (⟨4, [relaxedVec], [l]⟩ : World Bool).vecs := List.mem_cons_self
  exact ⟨l, hw.tail (.push hmem true (by decide))⟩

/-- In the tree of the vector that has grown, which is relaxed, an element is replaced. -/
theorem Reachable.refines_list_grown :
    ∃ (w : World Bool) (v : Vec Bool), w.Reachable ⟨1, 1⟩ ∧ v ∈ w.vecs ∧ v.shift = 2 ∧
      v.root.sizes = some [3, 5] ∧ v.toList = [true, true, true, true, true, true] ∧
      v.len = v.toList.length ∧
      (∀ i (hi : i < v.toList.length), v.get? ⟨1, 1⟩ i = some v.toList[i]) ∧
      (∀ i, v.toList.length ≤ i → v.get? ⟨1, 1⟩ i = none) ∧
      (∀ x next, (v.push ⟨1, 1⟩ x next).1.toList = v.toList ++ [x]) ∧
      ∀ i x next, ((v.set? ⟨1, 1⟩ i x next).1 = none ↔ v.toList.length ≤ i) ∧
        ∀ v', (v.set? ⟨1, 1⟩ i x next).1 = some v' → v'.toList = v.toList.set i x := by
  have hs : Shape.Valid ⟨1, 1⟩ := by decide
  obtain ⟨l, hgrown⟩ := Reachable.grown
  obtain ⟨v, next, hset, hshift, hsizes, hlist⟩ :
      ∃ v next, grownVec.set? ⟨1, 1⟩ 2 true 7 = (some v, next) ∧ v.shift = 2 ∧
        v.root.sizes = some [3, 5] ∧ v.toList = [true, true, true, true, true, true] :=
    ⟨_, _, rfl, rfl, rfl, rfl⟩
  have hmem : grownVec ∈ (⟨7, [grownVec, relaxedVec], [l]⟩ : World Bool).vecs := List.mem_cons_self
  have hw := hgrown.tail (.set hmem hset)
  exact ⟨_, v, hw, List.mem_cons_self, hshift, hsizes, hlist,
    Reachable.refines_list hs hw List.mem_cons_self⟩

end World

end RadixPool
