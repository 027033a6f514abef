import Mathlib
import RadixPool.Proofs.Pool.Limits
import RadixPool.Proofs.Pool.RoundTrip

/-!
Which vectors can be saved and loaded again.

A pool is accepted if the levels of its roots address elements. Loading respects this limit, and
replacing elements does not move the root; but appending raises the root whenever the tail is full
and no node along the right edge of the tree has room, and a loaded tree may be full along that
edge with hardly any elements in it. So a vector can leave the limit at a length far below `2^64`.

* `World.Sound.ofPool_addAll_iff`: the families of vectors whose pools are accepted.
* `World.Reachable.accepted_iff`: the same for all histories, with what appending and replacing do
  to the level; `World.Reachable.push_accepted_iff`: when appending leaves the limit.
* `Pool.Built.edgeFull`: pools in which all inner nodes are as wide as they may be give trees
  without room; `sparseJson` is the document of one.
* `Loader.push_sparseJson`, `World.Reachable.sparse_not_accepted`: a vector is loaded and appended
  to, and its pool is refused.
-/

namespace RadixPool

variable {α : Type} {s : Shape}

namespace World

variable {w : World α} {vs : List (Vec α)}

/-- The pool of a family is accepted exactly if the levels of all roots address elements. -/
theorem Sound.ofPool_addAll_iff {H : Heap α} (hs : s.Valid) (hw : w.Sound s H)
    (hvs : ∀ v ∈ vs, v ∈ w.vecs) (name : String) :
    (∃ l, Loader.ofPool s name ((Builder.empty s).addAll vs).2.pool = .ok l) ↔
      ∀ v ∈ vs, v.shift < Word.width := by
  have hknown : ∀ v ∈ vs, v.Known (H.only (Vec.ids vs)) :=
    fun v hv => Heap.known_only hv (hw.known v (hvs v hv))
  constructor
  · rintro ⟨l, hl⟩ v hv
    obtain ⟨hb, -, hholds⟩ := Builder.Sound.empty (s := s) |>.addAll hknown
    obtain ⟨i, e, hi, hroot, htail⟩ := Builder.exists_holds hholds hv
    have hpool := (Loader.eq_of_ofPool hl).2
    -- the vector is loaded as a copy, and what is loaded is within the limit
    obtain ⟨u, h, H', l', next', -, hlater, hu⟩ :=
      (Loader.Sound.ofPool hl fun _ => none).load_eq_ok hs (fun i (_ : 0 ≤ i) => rfl)
        (hpool ▸ hb.disjoint) (hpool ▸ hi)
    have hbuilt := hlater.sound.built
    rw [hlater.pool, hpool] at hbuilt
    obtain ⟨h', hsound⟩ := hw.vec v (hvs v hv)
    have hcopy : u = v.map (Builder.copyId _ l'.built next') id :=
      hb.vec_eq_map hbuilt hsound (hknown v hv) hroot htail hu
    have hshift : u.shift = v.shift := by
      rw [hcopy]
      rfl
    rw [← hshift, hu.shift]
    exact hu.level
  · intro hshift
    obtain ⟨hb, hshape, -, hst, -⟩ := hw.addAll hs hvs hshift rfl
    obtain ⟨plan, hl⟩ := hb.ofPool_eq_ok hs hshape hst name
    exact ⟨_, hl⟩

/-- In every history the pool of a family of vectors is accepted exactly if the levels of all roots
are less than 64. Replacing an element leaves the level as it is; appending raises it by one level
exactly if the tail is full and every node along the right edge of the tree has as many children as
it may have, however few elements the vector has. -/
theorem Reachable.accepted_iff (hs : s.Valid) (hw : w.Reachable s) (hvs : ∀ v ∈ vs, v ∈ w.vecs)
    (name : String) :
    ((∃ l, Loader.ofPool s name ((Builder.empty s).addAll vs).2.pool = .ok l) ↔
      ∀ v ∈ vs, v.shift < Word.width) ∧
    ∀ v ∈ w.vecs,
      (∀ i x next v' next', v.set? s i x next = (some v', next') → v'.shift = v.shift) ∧
      ∀ x next,
        (v.tail.items.length = 2 ^ s.leafBits ∧ v.root.node.EdgeFull s →
          (v.push s x next).1.shift = v.shift + s.bits) ∧
        (¬ (v.tail.items.length = 2 ^ s.leafBits ∧ v.root.node.EdgeFull s) →
          (v.push s x next).1.shift = v.shift) := by
  obtain ⟨H, hw⟩ := hw.sound hs
  refine ⟨hw.ofPool_addAll_iff hs hvs name, fun v hv => ⟨fun i x next v' next' hset => ?_, ?_⟩⟩
  · exact Vec.shift_set? hset
  · obtain ⟨h, hsound⟩ := hw.vec v hv
    exact hsound.shift_push hs

/-- A relaxed vector and the one it has grown into. -/
theorem Reachable.accepted_iff_grown :
    ∃ w : World Bool, w.Reachable ⟨1, 1⟩ ∧ (∀ x ∈ [grownVec, relaxedVec], x ∈ w.vecs) ∧
      grownVec.shift = relaxedVec.shift + 1 ∧
      ((∃ l, Loader.ofPool ⟨1, 1⟩ "pool"
          ((Builder.empty ⟨1, 1⟩).addAll [grownVec, relaxedVec]).2.pool = .ok l) ↔
        ∀ x ∈ [grownVec, relaxedVec], x.shift < Word.width) ∧
      ∀ v ∈ w.vecs,
        (∀ i x next v' next', v.set? ⟨1, 1⟩ i x next = (some v', next') → v'.shift = v.shift) ∧
        ∀ x next,
          (v.tail.items.length = 2 ^ 1 ∧ v.root.node.EdgeFull ⟨1, 1⟩ →
            (v.push ⟨1, 1⟩ x next).1.shift = v.shift + 1) ∧
          (¬ (v.tail.items.length = 2 ^ 1 ∧ v.root.node.EdgeFull ⟨1, 1⟩) →
            (v.push ⟨1, 1⟩ x next).1.shift = v.shift) := by
  have hs : Shape.Valid ⟨1, 1⟩ := by decide
  obtain ⟨l, hw⟩ := Reachable.grown
  exact ⟨_, hw, fun _ hx => hx, rfl, Reachable.accepted_iff hs hw (fun _ hx => hx) "pool"⟩

/-- After an append to a vector within the limit the pool is refused exactly if the append gives the
tree a new root and the old one was on the last level below the limit. -/
theorem Reachable.push_accepted_iff (hs : s.Valid) (hw : w.Reachable s) {v : Vec α}
    (hv : v ∈ w.vecs) (hshift : v.shift < Word.width) (x : α)
    (hlt : v.toList.length + 1 < Word.count) (name : String) :
    (∃ l, Loader.ofPool s name ((Builder.empty s).addAll [(v.push s x w.next).1]).2.pool = .ok l) ↔
      ¬ (v.tail.items.length = 2 ^ s.leafBits ∧ v.root.node.EdgeFull s ∧
        Word.width ≤ v.shift + s.bits) := by
  have hw' : Reachable s _ := hw.tail (.push hv x hlt)
  have hmem : ∀ u ∈ [(v.push s x w.next).1], u ∈ (v.push s x w.next).1 :: w.vecs := by
    intro u hu
    rw [List.mem_singleton.mp hu]
    exact List.mem_cons_self
  obtain ⟨H, hsound⟩ := hw.sound hs
  obtain ⟨H', hsound'⟩ := hw'.sound hs
  obtain ⟨h, hvec⟩ := hsound.vec v hv
  obtain ⟨hraised, hkept⟩ := hvec.shift_push hs x w.next
  rw [hsound'.ofPool_addAll_iff hs hmem name, List.forall_mem_singleton]
  by_cases hfull : v.tail.items.length = 2 ^ s.leafBits ∧ v.root.node.EdgeFull s
  · rw [hraised hfull, ← and_assoc, and_iff_right hfull, Nat.not_le]
  · rw [hkept hfull]
    exact ⟨fun _ h => hfull ⟨h.1, h.2.1⟩, fun _ => hshift⟩

end World

/-! ### Sparse trees -/

/-- Over a pool in which all inner nodes are as wide as they may be no tree has room. -/
lemma Pool.Built.edgeFull {p : Pool α} {plan : Plan} {H : Heap α} {built : KeyMap (Node α)}
    (hb : p.Built plan H built)
    (hwide : ∀ {k e}, p.inners.get? k = some e → e.children.length = 2 ^ s.bits) {k : Key}
    {n : Node α} (hk : built.get? k = some n) : n.EdgeFull s := by
  induction n using Node.induct generalizing k with
  | leaf l => exact .leaf l
  | inner id cs sizes ih =>
      obtain ⟨-, e, he, hcs, -⟩ := hb.made hk
      have hlength : cs.length = 2 ^ s.bits := by
        rw [← hwide he]
        simpa using (congrArg List.length hcs).symm
      obtain rfl | ⟨init, last, rfl⟩ := cs.eq_nil_or_concat'
      · exact absurd hlength (Nat.two_pow_pos s.bits).ne
      · have hmem : some last ∈ e.children.map built.get? := hcs ▸ List.mem_map_of_mem (by simp)
        obtain ⟨c, -, hc⟩ := List.mem_map.mp hmem
        exact .inner rfl hlength (ih last (by simp) hc)

/-- A document of a vector whose tree has `n` inner levels, each a single relaxed node that stands
at all places of the level, over an empty leaf; the tail is full. -/
def sparseJson (n : Nat) : Json :=
  .arr [.nat 2, .nat 1,
    .arr ((List.range n).map fun h =>
      .arr [.nat (h + 2),
        .arr [.arr (List.replicate 4 (.nat (if h = 0 then 0 else h + 1))), .bool true]]),
    .arr [.arr [.nat 0, .arr []], .arr [.nat 1, .arr [.bool true, .bool true]]],
    .arr [.arr [.nat (n + 1), .nat 1]]]

/-- The vector of a sparse document is loaded: its tree has no elements, is as high as it can be,
and has no room. -/
lemma Loader.load_sparseJson :
    ∃ p l v l' next, Pool.ofJson Json.bool? "pool" ⟨2, 1⟩ (sparseJson 32) = .ok p ∧
      ofPool ⟨2, 1⟩ "pool" p = .ok l ∧ l.pool.vectors[0]? = some ⟨33, 1⟩ ∧
      l.load 0 0 = ((.ok v, l'), next) ∧ v.toList = [true, true] ∧ v.shift = 63 ∧
      v.tail.items = [true, true] ∧ v.root.node.EdgeFull ⟨2, 1⟩ := by
  have hdoc : (ofJson? Json.bool? "pool" ⟨2, 1⟩ (sparseJson 32)).map
      (fun l => (l.pool.vectors[0]?, l.plan.get? 33, l.pool.leaves.get? 1,
        l.pool.inners.entries.all fun e => e.2.children.length == 4)) =
          some (some ⟨33, 1⟩, some ⟨32, 0⟩, some [true, true], true) := by decide +kernel
  obtain ⟨l, hl, hfacts⟩ := Option.map_eq_some_iff.mp hdoc
  simp only [Prod.mk.injEq, List.all_eq_true, beq_iff_eq] at hfacts
  obtain ⟨hi, hplan, htail, hwide⟩ := hfacts
  obtain ⟨p, v, h, H', l', next', hp, hl, hload, hv, hbuilt, hheight, hcount, hitems⟩ :=
    load_planned (by decide) hl hi hplan htail
  obtain rfl : h = 31 := (Nat.succ.inj hheight).symm
  have hlist : v.toList = [true, true] := by
    rw [Vec.toList, ← Branch.elements_node, List.eq_nil_of_length_eq_zero hcount, hitems]
    rfl
  have hedge : v.root.node.EdgeFull ⟨2, 1⟩ :=
    hbuilt.edgeFull (s := ⟨2, 1⟩) (fun {k e} he => hwide (k, e) (KeyMap.mem_entries_iff.mpr he))
      hv.root
  exact ⟨p, l, v, l', next', hp, hl, hi, hload, hlist, hv.shift, hitems, hedge⟩

/-- When an element is appended to the vector of a sparse document, the pool of the vector is
refused under any name. -/
lemma Loader.push_sparseJson :
    ∃ p l v l' next, Pool.ofJson Json.bool? "pool" ⟨2, 1⟩ (sparseJson 32) = .ok p ∧
      ofPool ⟨2, 1⟩ "pool" p = .ok l ∧ l.load 0 0 = ((.ok v, l'), next) ∧
      v.toList = [true, true] ∧ v.shift = 63 ∧
      ∀ name, ¬ ∃ l, ofPool ⟨2, 1⟩ name
        ((Builder.empty ⟨2, 1⟩).addAll [(v.push ⟨2, 1⟩ true next).1]).2.pool = .ok l := by
  obtain ⟨p, l, v, l', next, hp, hl, hi, hload, hlist, hshift, hitems, hedge⟩ := load_sparseJson
  have hs : Shape.Valid ⟨2, 1⟩ := by decide
  have hrun : l.vecOf ⟨33, 1⟩ 0 = ((.ok v, l'), next) := (load_of_getElem? hi).symm.trans hload
  have haccept : World.Step ⟨2, 1⟩ .start ⟨0, [], [l]⟩ := .accept hl
  have hstep : World.Step ⟨2, 1⟩ ⟨0, [], [l]⟩ ⟨next, [v], [l']⟩ :=
    @World.Step.load _ _ ⟨0, [], [l]⟩ 0 l l' rfl _ _ _ hrun (by rw [hlist]; decide)
  have hw : World.Reachable ⟨2, 1⟩ _ := (Relation.ReflTransGen.single haccept).tail hstep
  have hfull : v.tail.items.length = 2 ^ 1 := by rw [hitems]; rfl
  have hlimit : Word.width ≤ v.shift + 2 := by rw [hshift]; decide
  refine ⟨p, l, v, l', next, hp, hl, hload, hlist, hshift, fun name haccepted => ?_⟩
  have hiff := hw.push_accepted_iff hs List.mem_cons_self (by rw [hshift]; decide) true
    (by rw [hlist]; decide) name
  exact hiff.mp haccepted ⟨hfull, hedge, hlimit⟩

/-- A document is accepted and its vector of two elements is loaded; when a third one is appended,
the pool of the vector is refused. -/
theorem World.Reachable.sparse_not_accepted :
    ∃ p l v l' next, Pool.ofJson Json.bool? "pool" ⟨2, 1⟩ (sparseJson 32) = .ok p ∧
      Loader.ofPool ⟨2, 1⟩ "pool" p = .ok l ∧ l.load 0 0 = ((.ok v, l'), next) ∧
      v.toList = [true, true] ∧ v.shift = 63 ∧
      ¬ ∃ l, Loader.ofPool ⟨2, 1⟩ "pool"
        ((Builder.empty ⟨2, 1⟩).addAll [(v.push ⟨2, 1⟩ true next).1]).2.pool = .ok l := by
  obtain ⟨p, l, v, l', next, hp, hl, hload, hlist, hshift, hrefused⟩ := Loader.push_sparseJson
  exact ⟨p, l, v, l', next, hp, hl, hload, hlist, hshift, hrefused "pool"⟩

end RadixPool
