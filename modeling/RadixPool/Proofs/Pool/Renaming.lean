import Mathlib
import RadixPool.Proofs.Pool.Builder
import RadixPool.Proofs.Pool.Map
import RadixPool.Proofs.Tree.Outline

/-!
What a builder does not see.

The pool that a builder makes depends on which nodes are the same, and on what they hold, but not on
their identities. Two builders that are given the same vectors up to a renaming of the nodes run in
step: they give the same keys and the same positions. Nor does a builder look into the size tables,
so it is enough that the vectors resemble each other.

* `Builder.Renames`: two builders in step.
* `Builder.add_congr`: vectors that resemble each other are added alike.
* `Builder.Renames.add`, `Builder.Renames.addAll`: builders stay in step.
* `Builder.addAll_renamed`: the pool of renamed vectors.
-/

namespace RadixPool

variable {α β : Type} {s : Shape}

/-- An insertion before the values are sent through a function. -/
lemma KeyMap.mapValues_insert (g : α → β) (m : KeyMap α) (k : Nat) (x : α) :
    (m.insert k x).mapValues g = (m.mapValues g).insert k (g x) := by
  refine ext_get? fun k' => ?_
  rw [get?_mapValues, get?_insert, get?_insert, get?_mapValues]
  split <;> rfl

namespace Builder

variable {b : Builder α} {k : Key}

/-! ### Tables are not looked at -/

lemma assignAll_outlineAll (b : Builder α) (cs : List (Node α)) :
    b.assignAll (Node.outlineAll cs) = b.assignAll cs := by
  induction cs generalizing b with
  | nil => rfl
  | cons c cs ih => rw [Node.outlineAll, assignAll_cons, assignAll_cons, Node.id_outline, ih]

/-- A tree is entered as its outline. -/
lemma enter_outline (b : Builder α) (k : Key) (n : Node α) : b.enter k n.outline = b.enter k n := by
  induction n using Node.induct generalizing b k with
  | leaf l => rw [Node.outline]
  | inner id cs sizes ih =>
      have hall : ∀ (b : Builder α) (ks : List Key),
          b.enterAll ks (Node.outlineAll cs) = b.enterAll ks cs := by
        intro b ks
        induction cs generalizing b ks with
        | nil => rfl
        | cons c cs ihcs =>
            cases ks with
            | nil => simp [enterAll]
            | cons k ks =>
                rw [Node.outlineAll, enterAll, enterAll, ih c List.mem_cons_self,
                  ihcs fun d hd => ih d (List.mem_cons_of_mem c hd)]
      rw [Node.outline, enter_inner, enter_inner, assignAll_outlineAll, hall, Option.isSome_map]

/-- Vectors that resemble each other are added alike. -/
theorem add_congr {u v : Vec α} (huv : u.Resembles v) (b : Builder α) : b.add u = b.add v := by
  have hid : u.root.id = v.root.id := by
    have hids := congrArg Node.id huv.root
    rwa [Node.id_outline, Node.id_outline] at hids
  have henter : ∀ (b : Builder α) k, b.enter k u.root.node = b.enter k v.root.node := by
    intro b k
    rw [← enter_outline, huv.root, enter_outline]
  rw [add, add, hid, huv.tail]
  simp only [henter]

/-! ### Builders in step -/

/-- The second builder is the first one, up to the identities of the nodes and the elements. -/
structure Renames (f : NodeId → NodeId) (g : α → β) (b : Builder α) (b' : Builder β) : Prop where
  pool : b'.pool = b.pool.map g
  size : b'.keys.size = b.keys.size
  key? : ∀ i, b'.key? (f i) = b.key? i

namespace Renames

variable {f : NodeId → NodeId} {g : α → β} {b' : Builder β}

lemma empty : (Builder.empty s : Builder α).Renames f g (Builder.empty s) :=
  ⟨rfl, rfl, fun _ => rfl⟩

variable (hf : Function.Injective f)

include hf

/-- One identity and its counterpart get the same key. -/
lemma assign (hb : b.Renames f g b') (i : NodeId) :
    (b'.assign (f i)).1 = (b.assign i).1 ∧ (b.assign i).2.Renames f g (b'.assign (f i)).2 := by
  cases hi : b.key? i with
  | some k =>
      rw [assign_of_some hi, assign_of_some ((hb.key? i).trans hi)]
      exact ⟨rfl, hb⟩
  | none =>
      have hi' : b'.key? (f i) = none := (hb.key? i).trans hi
      rw [assign_of_none hi, assign_of_none hi']
      refine ⟨hb.size, hb.pool, ?_, fun j => ?_⟩
      · calc (b'.keys.insert (f i) b'.keys.size).size
          _ = b'.keys.size + 1 := KeyMap.size_insert _ hi'
          _ = b.keys.size + 1 := by rw [hb.size]
          _ = (b.keys.insert i b.keys.size).size := (KeyMap.size_insert _ hi).symm
      · have hj := hb.key? j
        simp only [Builder.key?] at hj ⊢
        simp only [KeyMap.get?_insert, hf.eq_iff, hj, hb.size]

lemma assignAll (hb : b.Renames f g b') (cs : List (Node α)) :
    (b'.assignAll (Node.mapAll f g cs)).1 = (b.assignAll cs).1 ∧
      (b.assignAll cs).2.Renames f g (b'.assignAll (Node.mapAll f g cs)).2 := by
  induction cs generalizing b b' with
  | nil => exact ⟨rfl, hb⟩
  | cons c cs ih =>
      obtain ⟨hkey, hassign⟩ := hb.assign hf c.id
      obtain ⟨hkeys, hall⟩ := ih hassign
      rw [Node.mapAll, assignAll_cons, assignAll_cons, Node.id_map]
      exact ⟨by rw [hkey, hkeys], hall⟩

omit hf in
lemma enterLeaf (hb : b.Renames f g b') (k : Key) (items : List α) :
    (b.enterLeaf k items).Renames f g (b'.enterLeaf k (items.map g)) := by
  have hcontains : b'.pool.leaves.contains k = b.pool.leaves.contains k := by
    rw [KeyMap.contains, KeyMap.contains, hb.pool, Pool.get?_leaves_map, Option.isSome_map]
  rw [Builder.enterLeaf, Builder.enterLeaf, hcontains]
  split
  · exact hb
  · refine ⟨?_, hb.size, hb.key?⟩
    rw [hb.pool, Pool.map, Pool.map, KeyMap.mapValues_insert]

omit hf in
lemma enterInner (hb : b.Renames f g b') (k : Key) (e : PooledBranch) :
    (b.enterInner k e).Renames f g (b'.enterInner k e) :=
  ⟨by rw [Builder.enterInner, hb.pool]; rfl, hb.size, hb.key?⟩

/-- A node and its copy are entered in step. -/
theorem enter (hb : b.Renames f g b') (k : Key) (n : Node α) :
    (b.enter k n).Renames f g (b'.enter k (n.map f g)) := by
  induction n using Node.induct generalizing b b' k with
  | leaf l =>
      rw [Node.map, Builder.enter, Builder.enter]
      exact hb.enterLeaf k l.items
  | inner id cs sizes ih =>
      have hall : ∀ {b : Builder α} {b' : Builder β} (ks : List Key), b.Renames f g b' →
          (b.enterAll ks cs).Renames f g (b'.enterAll ks (Node.mapAll f g cs)) := by
        intro b b' ks hb
        induction cs generalizing b b' ks with
        | nil =>
            rw [Node.mapAll]
            simpa [Builder.enterAll] using hb
        | cons c cs ihcs =>
            cases ks with
            | nil => simpa [Builder.enterAll] using hb
            | cons k ks =>
                rw [Node.mapAll, Builder.enterAll, Builder.enterAll]
                exact ihcs (fun d hd => ih d (List.mem_cons_of_mem c hd)) ks
                  (ih c List.mem_cons_self hb k)
      have hcontains : b'.pool.inners.contains k = b.pool.inners.contains k := by
        rw [hb.pool, Pool.inners_map]
      obtain ⟨hkeys, hassign⟩ := hb.assignAll hf cs
      rw [Node.map, enter_inner, enter_inner, hcontains, hkeys]
      split
      · exact hb
      · exact hall _ (hassign.enterInner k _)

/-- A vector and its copy are added in step, at the same position. -/
theorem add (hb : b.Renames f g b') (v : Vec α) :
    (b'.add (v.map f g)).1 = (b.add v).1 ∧ (b.add v).2.Renames f g (b'.add (v.map f g)).2 := by
  obtain ⟨hroot, hb₁⟩ := hb.assign hf v.root.id
  obtain ⟨htail, hb₂⟩ := hb₁.assign hf v.tail.id
  have hrootId : (v.map f g).root.id = f v.root.id := rfl
  have htailId : (v.map f g).tail = ⟨f v.tail.id, v.tail.items.map g⟩ := rfl
  rw [Builder.add, Builder.add, hrootId, htailId, Vec.node_root_map]
  dsimp only
  rw [hroot, htail, find?, find?, hb₂.pool, Pool.vectors_map]
  split
  · exact ⟨rfl, hb₂⟩
  · have hb₃ := (hb₂.enter hf (b.assign v.root.id).1 v.root.node).enterLeaf
      ((b.assign v.root.id).2.assign v.tail.id).1 v.tail.items
    refine ⟨by rw [hb₃.pool, Pool.vectors_map], ?_, hb₃.size, hb₃.key?⟩
    rw [hb₃.pool]
    rfl

/-- Vectors that resemble copies are added in step. -/
theorem addAll (hb : b.Renames f g b') {vs : List (Vec α)} {us : List (Vec β)}
    (hus : List.Forall₂ (fun v u => u.Resembles (v.map f g)) vs us) :
    (b'.addAll us).1 = (b.addAll vs).1 ∧ (b.addAll vs).2.Renames f g (b'.addAll us).2 := by
  induction hus generalizing b b' with
  | nil => exact ⟨rfl, hb⟩
  | @cons v u vs us hu _ ih =>
      obtain ⟨hposition, hadd⟩ := hb.add hf v
      rw [addAll_cons, addAll_cons, add_congr hu, hposition]
      obtain ⟨hpositions, hall⟩ := ih hadd
      exact ⟨by rw [hpositions], hall⟩

end Renames

/-- The pool of copies is the pool of the vectors, with the elements of the copies; and positions
are the same. -/
theorem addAll_renamed {f : NodeId → NodeId} (hf : Function.Injective f) {g : α → β}
    {vs : List (Vec α)} {us : List (Vec β)}
    (hus : List.Forall₂ (fun v u => u.Resembles (v.map f g)) vs us) :
    ((Builder.empty s).addAll us).1 = ((Builder.empty s).addAll vs).1 ∧
      ((Builder.empty s).addAll us).2.pool = ((Builder.empty s).addAll vs).2.pool.map g := by
  obtain ⟨hpositions, hall⟩ := Renames.empty.addAll hf hus
  exact ⟨hpositions, hall.pool⟩

end Builder

end RadixPool
