import Mathlib
import RadixPool.Proofs.Tree.Map
import RadixPool.Proofs.Vec.Sound

/-!
The outline of a tree.

A pool says of an inner node which children it has and whether it is relaxed, but not what stands in
its size table. The outline of a tree is what is left of it: the tables are there, but empty. In a
sound tree nothing is lost, since the counts of the children determine the table.

* `Node.outline`: a tree without the contents of its tables; `Node.Sound.eq_of_outline`: sound trees
  with one outline are one tree.
* `Vec.Resembles`: vectors with one outline.
* `Vec.Formed`: vectors over sound trees whose level and length are those of their parts.
-/

namespace RadixPool

variable {α β : Type} {s : Shape}

/-- Two tables that say the truth of one list of counts are equal, if there are two. -/
lemma Tabled.unique {h h' : Nat} {ns : List Nat} {sizes sizes' : Option (List Nat)}
    (ht : Tabled s h ns sizes) (ht' : Tabled s h' ns sizes')
    (heq : sizes.isSome = sizes'.isSome) : sizes = sizes' := by
  cases sizes with
  | none =>
      cases sizes' with
      | none => rfl
      | some _ => cases heq
  | some table =>
      cases sizes' with
      | none => cases heq
      | some table' =>
          have htable : table = ends 0 ns := ht
          have htable' : table' = ends 0 ns := ht'
          rw [htable, htable']

namespace Node

mutual

/-- A tree with nothing in its size tables. -/
def outline : Node α → Node α
  | .leaf l => .leaf l
  | .inner id cs sizes => .inner id (outlineAll cs) (sizes.map fun _ => [])

/-- Some trees with nothing in their size tables. -/
def outlineAll : List (Node α) → List (Node α)
  | [] => []
  | c :: cs => outline c :: outlineAll cs

end

lemma outlineAll_eq (cs : List (Node α)) : outlineAll cs = cs.map outline := by
  induction cs with
  | nil => rfl
  | cons c cs ih => rw [outlineAll, ih, List.map_cons]

@[simp] lemma id_outline (n : Node α) : n.outline.id = n.id := by
  cases n <;> rfl

/-- A copy of a sound tree is sound. -/
lemma Sound.map (f : NodeId → NodeId) (g : α → β) {h : Nat} {n : Node α} (hn : n.Sound s h) :
    (n.map f g).Sound s h := by
  induction hn with
  | @leaf l fits =>
      rw [Node.map]
      exact .leaf ((List.length_map g).trans_le fits)
  | @inner h id cs sizes width flat below tabled ih =>
      rw [Node.map, mapAll_eq]
      refine .inner ((List.length_map _).trans_le width)
        (fun hnil => flat (List.map_eq_nil_iff.mp hnil)) (fun c hc => ?_) ?_
      · obtain ⟨d, hd, rfl⟩ := List.mem_map.mp hc
        exact ih d hd
      · have hcounts : (cs.map (Node.map f g)).map count = cs.map count := by
          rw [List.map_map]
          exact List.map_congr_left fun c _ => count_map f g c
        rwa [hcounts]

/-- Sound trees with one outline are one tree. -/
theorem Sound.eq_of_outline {h h' : Nat} {m n : Node α} (hm : m.Sound s h) (hn : n.Sound s h')
    (heq : m.outline = n.outline) : m = n := by
  induction hm generalizing n h' with
  | leaf =>
      cases n with
      | leaf l =>
          rw [outline, outline] at heq
          exact heq
      | inner id cs sizes =>
          rw [outline, outline] at heq
          cases heq
  | @inner h id cs sizes _ _ _ tabled ih =>
      cases n with
      | leaf l =>
          rw [outline, outline] at heq
          cases heq
      | inner id' cs' sizes' =>
          rw [outline, outline, Node.inner.injEq, outlineAll_eq, outlineAll_eq] at heq
          obtain ⟨rfl, hcs, hsizes⟩ := heq
          obtain ⟨h', rfl⟩ := hn.exists_succ
          obtain ⟨-, -, below', tabled'⟩ := sound_inner_iff.mp hn
          have hchildren : cs = cs' := by
            rw [← List.forall₂_eq_eq_eq, List.forall₂_map_left_iff,
              List.forall₂_map_right_iff] at hcs
            rw [← List.forall₂_eq_eq_eq]
            refine List.forall₂_iff_zip.mpr ⟨hcs.length_eq, fun {c c'} hmem => ?_⟩
            obtain ⟨hc, hc'⟩ := List.of_mem_zip hmem
            exact ih c hc (below' c' hc') ((List.forall₂_iff_zip.mp hcs).2 hmem)
          subst hchildren
          have hsome := congrArg Option.isSome hsizes
          rw [Option.isSome_map, Option.isSome_map] at hsome
          rw [tabled.unique tabled' hsome]

end Node

namespace Vec

/-- Vectors whose trees have one outline, with one tail. -/
structure Resembles (u v : Vec α) : Prop where
  root : u.root.node.outline = v.root.node.outline
  tail : u.tail = v.tail

lemma Resembles.refl (v : Vec α) : v.Resembles v := ⟨rfl, rfl⟩

/-- Vectors over sound trees, with the level and the length of their parts; the length is a sum of
words. -/
structure Formed (s : Shape) (h : Nat) (v : Vec α) : Prop where
  root : v.root.node.Sound s (h + 1)
  tail : v.tail.items.length ≤ 2 ^ s.leafBits
  shift : v.shift = s.level h
  len : v.len = Word.add v.root.node.count v.tail.items.length

lemma Sound.formed {h : Nat} {v : Vec α} (hv : v.Sound s h) : v.Formed s h := by
  have hlen := length_toList v
  refine ⟨hv.root, hv.tail, hv.shift, ?_⟩
  rw [hv.len, hlen, Word.add_eq (hlen ▸ hv.lt_count)]

/-- A copy of a formed vector is formed. -/
lemma Formed.map (f : NodeId → NodeId) (g : α → β) {h : Nat} {v : Vec α} (hv : v.Formed s h) :
    (v.map f g).Formed s h := by
  refine ⟨?_, (List.length_map g).trans_le hv.tail, hv.shift, ?_⟩
  · rw [node_root_map]
    exact hv.root.map f g
  · rw [node_root_map, Node.count_map]
    exact hv.len.trans (congrArg _ (List.length_map g).symm)

/-- Formed vectors with one outline are one vector. -/
theorem Formed.eq_of_resembles {h h' : Nat} {u v : Vec α} (hu : u.Formed s h) (hv : v.Formed s h')
    (heq : u.Resembles v) : u = v := by
  have hroot : u.root.node = v.root.node := hu.root.eq_of_outline hv.root heq.root
  have hheight : h = h' := by
    have hheights := hu.root.height_eq
    rw [hroot, hv.root.height_eq] at hheights
    exact (Nat.succ.inj hheights).symm
  have hshift : u.shift = v.shift := by rw [hu.shift, hv.shift, hheight]
  have hlen : u.len = v.len := by rw [hu.len, hv.len, hroot, heq.tail]
  have htail := heq.tail
  obtain ⟨len, shift, ⟨id, cs, sizes⟩, tail⟩ := u
  rw [Branch.node, Branch.node, Node.inner.injEq] at hroot
  rw [Vec.mk.injEq, Branch.mk.injEq]
  exact ⟨hlen, hshift, hroot, htail⟩

end Vec

end RadixPool
