import Mathlib
import RadixPool.Proofs.Tree.Path
import RadixPool.Proofs.Vec.History

/-!
Well-formed vectors.

What the trees of all vectors have in common, said place by place: how wide a node may be, how deep
the leaves lie, what a node without a size table may take for granted and what a size table says. In
the words of one node this is what `Node.Sound` says by recursion.

* `Vec.WellFormed`: well-formed vectors whose leaves lie at a depth.
* `Vec.Sound.wellFormed`: sound vectors are well-formed.
* `World.Reachable.all_wellFormed`: empty and loaded vectors are well-formed, and appending and
  replacing lead from well-formed vectors to well-formed ones.
-/

namespace RadixPool

variable {α : Type} {s : Shape}

/-- A level `d` levels further down. -/
lemma Shape.level_sub {d h : Nat} (hle : d ≤ h) : s.level (h - d) = s.level h - s.bits * d := by
  have hmul : s.bits * d ≤ s.bits * h := Nat.mul_le_mul_left _ hle
  rw [level, level, Nat.mul_sub]
  omega

namespace Vec

/-- Well-formed vectors whose leaves lie at depth `height`. -/
structure WellFormed (s : Shape) (height : Nat) (v : Vec α) : Prop where
  height_pos : 0 < height
  shift : v.shift = s.leafBits + s.bits * (height - 1)
  /-- The leaves lie at depth `height`, and the inner nodes above. -/
  depth : ∀ path n, v.root.node.at? path = some n →
    path.length ≤ height ∧ (n.isLeaf = true ↔ path.length = height)
  width : ∀ path id cs sizes, v.root.node.at? path = some (.inner id cs sizes) →
    cs.length ≤ 2 ^ s.bits
  fits : ∀ path l, v.root.node.at? path = some (.leaf l) → l.items.length ≤ 2 ^ s.leafBits
  tail : v.tail.items.length ≤ 2 ^ s.leafBits
  /-- In a node without a table all children but the last are full for the level of the node. -/
  regular : ∀ path id cs, v.root.node.at? path = some (.inner id cs none) →
    ∀ c ∈ cs.dropLast, c.count = 2 ^ (v.shift - s.bits * path.length)
  /-- A table says for each child how many elements there are up to its end. -/
  table : ∀ path id cs table, v.root.node.at? path = some (.inner id cs (some table)) →
    table.length = cs.length ∧
      ∀ i < cs.length, table[i]? = some ((cs.take (i + 1)).map Node.count).sum
  len : v.len = v.root.node.count + v.tail.items.length

/-- An inner node of a sound vector, and the height of its children. -/
lemma Sound.inner_at {h : Nat} {v : Vec α} (hv : v.Sound s h) {path : List Nat} {id : NodeId}
    {cs : List (Node α)} {sizes : Option (List Nat)}
    (hat : v.root.node.at? path = some (.inner id cs sizes)) :
    path.length ≤ h ∧ cs.length ≤ 2 ^ s.bits ∧
      Tabled s (h - path.length) (cs.map Node.count) sizes := by
  obtain ⟨hle, hn⟩ := hv.root.at? hat
  obtain ⟨h', hh'⟩ := hn.exists_succ
  rw [hh', Node.sound_inner_iff] at hn
  obtain rfl : h' = h - path.length := by omega
  exact ⟨by omega, hn.1, hn.2.2.2⟩

/-- Sound vectors are well-formed. -/
theorem Sound.wellFormed {h : Nat} {v : Vec α} (hv : v.Sound s h) : v.WellFormed s (h + 1) where
  height_pos := Nat.succ_pos h
  shift := hv.shift
  depth := fun _ _ hat => ⟨(hv.root.at? hat).1, hv.root.isLeaf_iff hat⟩
  width := fun _ _ _ _ hat => (hv.inner_at hat).2.1
  fits := fun _ _ hat => (Node.sound_leaf_iff.mp (hv.root.at? hat).2).2
  tail := hv.tail
  regular := by
    intro path id cs hat c hc
    obtain ⟨hle, -, -, hfull⟩ := hv.inner_at hat
    rw [hv.shift, ← Shape.level_sub hle]
    refine hfull c.count ?_
    rw [← List.map_dropLast]
    exact List.mem_map_of_mem hc
  table := fun _ _ _ _ hat => (hv.inner_at hat).2.2.getElem?_table
  len := hv.len.trans (length_toList v)

end Vec

namespace World

variable {w : World α}

/-- The representation invariant: empty vectors and vectors loaded from accepted pools are
well-formed, and so is every vector made of them by appending and replacing, as long as the lengths
are words. -/
theorem Reachable.all_wellFormed (hs : s.Valid) (hw : w.Reachable s) :
    (∃ height, (Vec.empty (α := α) s w.next).1.WellFormed s height) ∧
      (∀ l ∈ w.loaders, ∀ v, v.toList.length < Word.count →
        ((∃ i, (l.load i w.next).1.1 = .ok v) ∨ ∃ e, (l.vecOf e w.next).1.1 = .ok v) →
        ∃ height, v.WellFormed s height) ∧
      ∀ v ∈ w.vecs, (∃ height, v.WellFormed s height) ∧
        (∀ x next, v.toList.length + 1 < Word.count →
          ∃ height, (v.push s x next).1.WellFormed s height) ∧
        ∀ i x next v', (v.set? s i x next).1 = some v' → ∃ height, v'.WellFormed s height := by
  obtain ⟨H, hw⟩ := hw.sound hs
  have hloaded : ∀ l ∈ w.loaders, ∀ e v, v.toList.length < Word.count →
      (l.vecOf e w.next).1.1 = .ok v → ∃ height, v.WellFormed s height := by
    intro l hl e v hlt hok
    obtain ⟨H', -, hloads⟩ := (hw.loader l hl).vecOf hs hw.free e
    obtain ⟨h, hv⟩ := hloads v hok
    exact ⟨h + 1, (hv.vecSound hlt).wellFormed⟩
  refine ⟨⟨1, (Vec.Sound.empty hs w.next).wellFormed⟩, ?_, ?_⟩
  · rintro l hl v hlt (⟨i, hok⟩ | ⟨e, hok⟩)
    · cases hi : l.pool.vectors[i]? with
      | none =>
          rw [Loader.load, hi] at hok
          cases hok
      | some e =>
          rw [Loader.load_of_getElem? hi] at hok
          exact hloaded l hl e v hlt hok
    · exact hloaded l hl e v hlt hok
  · intro v hv
    obtain ⟨h, hv⟩ := hw.vec v hv
    refine ⟨⟨h + 1, hv.wellFormed⟩, fun x next hlt => ?_, fun i x next v' hset => ?_⟩
    · obtain ⟨h', hv'⟩ := hv.push hs x next hlt
      exact ⟨h' + 1, hv'.wellFormed⟩
    · by_cases hi : i < v.toList.length
      · obtain ⟨v₁, next₁, heq, hv₁, -⟩ := hv.set?_eq hs hi x next
        rw [heq, Option.some_inj] at hset
        exact ⟨h + 1, hset ▸ hv₁.wellFormed⟩
      · rw [hv.set?_eq_none (Nat.le_of_not_lt hi)] at hset
        cases hset

/-- The vector of a relaxed root is loaded, and the tree gets a new root when an element is
appended. -/
theorem Reachable.all_wellFormed_relaxed :
    ∃ (w : World Bool) (v : Vec Bool), w.Reachable ⟨1, 1⟩ ∧ v ∈ w.vecs ∧ v.root.isRelaxed = true ∧
      v.toList = [true, true, false, true, true] ∧ v.shift = 1 ∧
      (v.push ⟨1, 1⟩ true w.next).1.shift = 2 ∧ (∃ height, v.WellFormed ⟨1, 1⟩ height) ∧
      ∃ height, (v.push ⟨1, 1⟩ true w.next).1.WellFormed ⟨1, 1⟩ height := by
  have hs : Shape.Valid ⟨1, 1⟩ := by decide
  obtain ⟨l, hw⟩ := Reachable.relaxed
  obtain ⟨-, -, hvecs⟩ := Reachable.all_wellFormed hs hw
  obtain ⟨hv, hpushed, -⟩ := hvecs relaxedVec List.mem_cons_self
  exact ⟨_, relaxedVec, hw, List.mem_cons_self, rfl, rfl, rfl, rfl, hv, hpushed true 4 (by decide)⟩

end World

end RadixPool
