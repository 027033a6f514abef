import Mathlib
import RadixPool.Proofs.Pool.Load

/-!
What the acceptance of a pool leaves open.

Counts are checked to be words node by node, but the elements of the tail come on top of those of
the tree, and nothing checks their sum. And roots are looked for among the inner nodes when a pool
is accepted, but among the leaves first when a vector is loaded: the two differ where a key names
both, which no document can say.

* `Loader.Loads.len_eq_mod`, `Loader.Loads.length_lt`: the length of a loaded vector, and when it
  is the number of its elements.
* `Loader.Sound.vecOf_planned`, `Loader.load_planned`: a vector is loaded as the plan says.
* `Loader.vecOf_ofJson`: the vectors of an accepted document; `Loader.len_ne_of_doubledJson`: one
  whose length wraps.
* `Loader.load_ofPool`: which vectors of an accepted pool are loaded;
  `Loader.load_clashingPool_eq_error`: one that is not.
-/

namespace RadixPool

variable {α : Type} {s : Shape}

namespace Loader

variable {l l' : Loader α} {H : Heap α} {next next' : NodeId}

/-- A loader keeps the pool that it is made from, and its name. -/
lemma eq_of_ofPool {name : String} {p : Pool α} (hl : ofPool s name p = .ok l) :
    l.name = name ∧ l.pool = p := by
  obtain ⟨-, -, -, plan, -, rfl⟩ := ofPool_eq_ok_iff.mp hl
  exact ⟨rfl, rfl⟩

/-- A loader in use differs from what it was at first in the nodes it has built. -/
lemma Calls.eq_withBuilt {start : NodeId} (hcalls : Calls l start l' next) :
    l' = { l with built := l'.built } := by
  induction hcalls with
  | start => rfl
  | elsewhere _ _ ih => exact ih
  | @vecOf l₁ next₁ _ e ih =>
      rw [ih]
      rfl
  | @load l₁ next₁ _ i ih =>
      cases hi : l₁.pool.vectors[i]? with
      | none =>
          rw [Loader.load, hi]
          exact ih
      | some e =>
          rw [load_of_getElem? hi, ih]
          rfl

lemma Calls.plan_eq {start : NodeId} (hcalls : Calls l start l' next) : l'.plan = l.plan := by
  rw [hcalls.eq_withBuilt]

lemma Calls.name_eq {start : NodeId} (hcalls : Calls l start l' next) : l'.name = l.name := by
  rw [hcalls.eq_withBuilt]

/-! ### Lengths -/

/-- The length of a loaded vector is the number of its elements modulo the number of words. -/
lemma Loads.len_eq_mod {built : KeyMap (Node α)} {e : PooledVec} {h : Nat} {v : Vec α}
    (hv : Loads s built e h v) : v.len = v.toList.length % Word.count := by
  rw [hv.len, Vec.length_toList, Word.add]

/-- The number of elements is a word unless the tree is as high as a tree can be. -/
lemma Loads.length_lt (hs : s.Valid) {built : KeyMap (Node α)} {e : PooledVec} {h : Nat} {v : Vec α}
    (hv : Loads s built e h v) (hroom : v.shift + s.bits < Word.width) :
    v.toList.length < Word.count := by
  have hbits := hs.bits_pos
  rw [hv.shift] at hroom
  change s.level h + s.bits < 64 at hroom
  change v.toList.length < 2 ^ 64
  have hroot : v.root.node.count ≤ 2 ^ 63 := by
    refine hv.sound.count_le.trans (Nat.pow_le_pow_right Nat.two_pos ?_)
    rw [Shape.level_succ]
    omega
  have htail : v.tail.items.length ≤ 2 ^ 62 := by
    refine hv.fits.trans (Nat.pow_le_pow_right Nat.two_pos ?_)
    have hle : s.leafBits ≤ s.level h := Nat.le_add_right _ _
    omega
  rw [Vec.length_toList]
  omega

/-- The vector of the keys of an inner node and of a leaf has the height and the count that the plan
has for its root, and the elements of the leaf in its tail. -/
lemma Sound.vecOf_planned (hs : s.Valid) (hl : l.Sound s H) (hfree : H.FreeFrom next)
    (hd : l.pool.Disjoint) {e : PooledVec} {branch : PooledBranch} {items : List α}
    (hroot : l.pool.inners.get? e.root = some branch)
    (htail : l.pool.leaves.get? e.tail = some items) :
    ∃ v h info H' l' next', l.vecOf e next = ((.ok v, l'), next') ∧ Loads s l'.built e h v ∧
      l.pool.Built l.plan H' l'.built ∧ l.plan.get? e.root = some info ∧ info.height = h + 1 ∧
      v.root.node.count = info.size ∧ v.tail.items = items := by
  obtain ⟨v, h, H', l', next', hrun, hlater, hv⟩ := hl.vecOf_eq_ok hs hfree hd hroot htail
  have hplan : l.plan = l'.plan := congrArg (fun r => r.1.2.plan) hrun
  have hbuilt : l.pool.Built l.plan H' l'.built := hlater.pool ▸ hplan ▸ hlater.sound.built
  obtain ⟨info, hinfo, hsound, hcount⟩ := hbuilt.rated hv.root
  have hmade : l.pool.leaves.get? e.tail = some v.tail.items := hbuilt.made hv.tail
  exact ⟨v, h, info, H', l', next', hrun, hv, hbuilt, hinfo,
    hsound.height_eq.symm.trans hv.sound.height_eq, hcount,
    Option.some.inj (hmade.symm.trans htail)⟩

/-- A loaded vector has the contents of its two keys. -/
lemma Loads.contents_iff {p : Pool α} {plan : Plan} {built : KeyMap (Node α)} {e : PooledVec}
    {h : Nat} {v : Vec α} (hv : Loads s built e h v) (hd : p.Disjoint)
    (hb : p.Built plan H built) :
    (∀ zs, p.Contents e.root zs ↔ zs = v.root.node.elements) ∧
      ∀ zs, p.Contents e.tail zs ↔ zs = v.tail.items := by
  have hroot : p.Contents e.root v.root.node.elements := hb.contents hv.root
  have htail : p.Contents e.tail v.tail.items := by
    have htail := hb.contents hv.tail
    rwa [Node.elements] at htail
  constructor
  · exact fun zs => ⟨fun hz => hz.unique hd hroot, fun heq => heq ▸ hroot⟩
  · exact fun zs => ⟨fun hz => hz.unique hd htail, fun heq => heq ▸ htail⟩

/-- The vectors of an accepted document, and the vectors of any inner node and any leaf in it, are
loaded with the elements that the document has below the two keys. The plan counts those below the
root; the length is the sum with the tail modulo the number of words, so it is right exactly if that
sum is a word, and it is so unless the tree is as high as a tree can be. -/
theorem vecOf_ofJson (hs : s.Valid) {read? : Json → Option α} {name name' : String} {j : Json}
    {p : Pool α} {start : NodeId} (hp : Pool.ofJson read? name s j = .ok p)
    (hl : ofPool s name' p = .ok l) (hcalls : Calls l start l' next) {e : PooledVec}
    (he : e ∈ p.vectors ∨ p.inners.contains e.root = true ∧ p.leaves.contains e.tail = true) :
    (∀ i, p.vectors[i]? = some e → l'.load i next = l'.vecOf e next) ∧
      ∃ v l'' next' info xs ys, l'.vecOf e next = ((.ok v, l''), next') ∧
        (∀ zs, p.Contents e.root zs ↔ zs = xs) ∧ (∀ zs, p.Contents e.tail zs ↔ zs = ys) ∧
        v.toList = xs ++ ys ∧ l.plan.get? e.root = some info ∧ info.size = xs.length ∧
        v.len = (info.size + ys.length) % Word.count ∧
        (v.len = v.toList.length ↔ info.size + ys.length < Word.count) ∧
        (v.shift + s.bits < Word.width → info.size + ys.length < Word.count) := by
  obtain ⟨hshape, hdisjoint, -⟩ := Pool.ofJson_eq_ok hp
  have hpool := (eq_of_ofPool hl).2
  obtain ⟨H, hlater⟩ := (Sound.ofPool hl fun _ => none).calls hs (fun _ _ => rfl) hcalls
  have hpool' : l'.pool = p := hlater.pool.trans hpool
  obtain ⟨⟨branch, hroot⟩, items, htail⟩ : (∃ branch, p.inners.get? e.root = some branch) ∧
      ∃ items, p.leaves.get? e.tail = some items := by
    rcases he with he | ⟨hroot, htail⟩
    · have hready := ready_of_ofPool hl
      exact ⟨hpool ▸ hready.root (hpool ▸ he), hpool ▸ hready.tail (hpool ▸ he)⟩
    · exact ⟨KeyMap.contains_iff.mp hroot, KeyMap.contains_iff.mp htail⟩
  obtain ⟨v, h, info, H', l'', next'', hrun, hv, hb, hinfo, -, hcount, -⟩ :=
    hlater.sound.vecOf_planned hs hlater.grows.free (hpool' ▸ hdisjoint) (hpool' ▸ hroot)
      (hpool' ▸ htail)
  rw [hpool', hcalls.plan_eq] at hb
  rw [hcalls.plan_eq] at hinfo
  obtain ⟨hxs, hys⟩ := hv.contents_iff hdisjoint hb
  have hlength : v.toList.length = info.size + v.tail.items.length := by
    rw [Vec.length_toList, hcount]
  have hlen : v.len = (info.size + v.tail.items.length) % Word.count := hlength ▸ hv.len_eq_mod
  refine ⟨fun i hi => load_of_getElem? (hpool' ▸ hi), v, l'', next'', info, v.root.node.elements,
    v.tail.items, hrun, hxs, hys, ?_, hinfo, hcount.symm, hlen, ?_, ?_⟩
  · rw [Vec.toList, Branch.elements_node]
  · rw [hlen, hlength]
    exact ⟨fun heq => heq ▸ Nat.mod_lt _ (by decide), Nat.mod_eq_of_lt⟩
  · exact fun hroom => hlength ▸ hv.length_lt hs hroom

/-- A relaxed node over one leaf that is both the only child and the tail. -/
theorem vecOf_ofJson_sharedTail :
    let j : Json := .arr [.nat 1, .nat 1, .arr [.arr [.nat 0, .arr [.arr [.nat 1], .bool true]]],
      .arr [.arr [.nat 1, .arr [.bool true]]], .arr [.arr [.nat 0, .nat 1]]]
    ∃ p l e, Pool.ofJson Json.bool? "pool" ⟨1, 1⟩ j = .ok p ∧ ofPool ⟨1, 1⟩ "pool" p = .ok l ∧
      e ∈ p.vectors ∧
      (∀ i, p.vectors[i]? = some e → l.load i 0 = l.vecOf e 0) ∧
      ∃ v l' next' info xs ys, l.vecOf e 0 = ((.ok v, l'), next') ∧
        (∀ zs, p.Contents e.root zs ↔ zs = xs) ∧ (∀ zs, p.Contents e.tail zs ↔ zs = ys) ∧
        v.toList = xs ++ ys ∧ l.plan.get? e.root = some info ∧ info.size = xs.length ∧
        v.len = (info.size + ys.length) % Word.count ∧
        (v.len = v.toList.length ↔ info.size + ys.length < Word.count) ∧
        (v.shift + 1 < Word.width → info.size + ys.length < Word.count) := by
  intro j
  have hs : Shape.Valid ⟨1, 1⟩ := by decide
  have he : (⟨0, 1⟩ : PooledVec) ∈ [(⟨0, 1⟩ : PooledVec)] := List.mem_singleton_self _
  refine ⟨_, _, ⟨0, 1⟩, rfl, rfl, he, ?_⟩
  exact @vecOf_ofJson Bool ⟨1, 1⟩ _ _ _ hs Json.bool? "pool" "pool" j _ 0 rfl rfl .start _ (.inl he)

/-- The loader of a document that is accepted. -/
def ofJson? (read? : Json → Option α) (name : String) (s : Shape) (j : Json) : Option (Loader α) :=
  (Pool.ofJson read? name s j).toOption.bind fun p => (ofPool s name p).toOption

lemma of_ofJson?_eq_some {read? : Json → Option α} {name : String} {j : Json}
    (hl : ofJson? read? name s j = some l) :
    ∃ p, Pool.ofJson read? name s j = .ok p ∧ ofPool s name p = .ok l := by
  rw [ofJson?] at hl
  cases hp : Pool.ofJson read? name s j with
  | error e => rw [hp] at hl; cases hl
  | ok p =>
      rw [hp] at hl
      refine ⟨p, rfl, ?_⟩
      cases hl' : ofPool s name p with
      | error e => simp [Except.toOption, hl'] at hl
      | ok l' => simpa [Except.toOption, hl'] using hl

/-- A vector of an accepted document is loaded as the plan of the document says. -/
lemma load_planned (hs : s.Valid) {read? : Json → Option α} {name : String} {j : Json}
    (hl : ofJson? read? name s j = some l) {i : Nat} {e : PooledVec} {info : NodeInfo}
    {items : List α} (hi : l.pool.vectors[i]? = some e) (hinfo : l.plan.get? e.root = some info)
    (htail : l.pool.leaves.get? e.tail = some items) :
    ∃ p v h H' l' next', Pool.ofJson read? name s j = .ok p ∧ ofPool s name p = .ok l ∧
      l.load i 0 = ((.ok v, l'), next') ∧ Loads s l'.built e h v ∧
      l.pool.Built l.plan H' l'.built ∧ info.height = h + 1 ∧ v.root.node.count = info.size ∧
      v.tail.items = items := by
  obtain ⟨p, hp, hl⟩ := of_ofJson?_eq_some hl
  have hd : l.pool.Disjoint := (eq_of_ofPool hl).2 ▸ (Pool.ofJson_eq_ok hp).2.1
  obtain ⟨branch, hroot⟩ := (ready_of_ofPool hl).root (List.mem_of_getElem? hi)
  obtain ⟨v, h, info', H', l', next', hrun, hv, hb, hinfo', hheight, hcount, hitems⟩ :=
    (Sound.ofPool hl fun _ => none).vecOf_planned hs (fun i (_ : 0 ≤ i) => rfl) hd hroot htail
  obtain rfl := Option.some.inj (hinfo.symm.trans hinfo')
  exact ⟨p, v, h, H', l', next', hp, hl, (load_of_getElem? hi).trans hrun, hv, hb, hheight, hcount,
    hitems⟩

/-- A document of a tree with `n` inner levels in which every node but the root stands at several
places. At each height there are a full node and one with an element less, over four children each;
the root has one of each for its children, so the tree has `2 ^ (2 * n) - 1` elements. -/
def doubledJson (n : Nat) : Json :=
  .arr [.nat 2, .nat 1,
    .arr ((List.range (2 * (n - 1))).map (fun h =>
      .arr [.nat (h + 2),
        .arr [.arr (List.replicate 3 (.nat (h / 2 * 2)) ++ [.nat h]), .bool false]])
      ++ [.arr [.nat (2 * n), .arr [.arr [.nat (2 * n - 2), .nat (2 * n - 1)], .bool false]]]),
    .arr [.arr [.nat 0, .arr [.bool true, .bool true]], .arr [.nat 1, .arr [.bool true]]],
    .arr [.arr [.nat (2 * n), .nat 0]]]

/-- A document is accepted whose tree has `2 ^ 64 - 1` elements and whose tail has two more: the
length wraps. -/
theorem len_ne_of_doubledJson :
    ∃ p l v l' next, Pool.ofJson Json.bool? "pool" ⟨2, 1⟩ (doubledJson 32) = .ok p ∧
      ofPool ⟨2, 1⟩ "pool" p = .ok l ∧ l.load 0 0 = ((.ok v, l'), next) ∧
      v.toList.length = 2 ^ 64 + 1 ∧ v.len = 1 := by
  have hdoc : (ofJson? Json.bool? "pool" ⟨2, 1⟩ (doubledJson 32)).map
      (fun l => (l.pool.vectors[0]?, l.plan.get? 64, l.pool.leaves.get? 0)) =
        some (some ⟨64, 0⟩, some ⟨32, 2 ^ 64 - 1⟩, some [true, true]) := by decide +kernel
  obtain ⟨l, hl, hfacts⟩ := Option.map_eq_some_iff.mp hdoc
  simp only [Prod.mk.injEq] at hfacts
  obtain ⟨hi, hplan, htail⟩ := hfacts
  obtain ⟨p, v, h, H', l', next', hp, hl, hload, hv, -, -, hcount, hitems⟩ :=
    load_planned (by decide) hl hi hplan htail
  have hlength : v.toList.length = 2 ^ 64 + 1 := by
    rw [Vec.length_toList, hcount, hitems]
    rfl
  refine ⟨p, l, v, l', next', hp, hl, hload, hlength, ?_⟩
  rw [hv.len_eq_mod, hlength]
  rfl

/-! ### Keys of two nodes -/

/-- The key of a leaf is no root: its node is the leaf, whatever inner node has the same key. -/
lemma vecOfM_leaf_root (hs : s.Valid) (hl : l.Ready s) {built : KeyMap (Node α)}
    (hb : l.pool.Built l.plan H built) (hfree : H.FreeFrom next) {e : PooledVec} {items : List α}
    (hleaf : l.pool.leaves.get? e.root = some items) :
    ∃ st, l.vecOfM e (built, next) = (.error (.invariant l.name (.rootIsLeaf e.root)), st) := by
  obtain ⟨r, H', built', next', hrun, hout⟩ := vecOfM_outcome hs hl hb hfree e
  have hinner : ∀ {id : NodeId} {cs : List (Node α)} {sizes : Option (List Nat)},
      l.pool.Built l.plan H' built' → built'.get? e.root ≠ some (.inner id cs sizes) := by
    intro id cs sizes hb' hroot
    have hmade := (hb'.made hroot).1
    rw [hleaf] at hmade
    cases hmade
  cases hout with
  | noRoot _ unused =>
      rw [Pool.contains_iff.mpr (.inr ⟨items, hleaf⟩)] at unused
      cases unused
  | rootIsLeaf => exact ⟨_, hrun⟩
  | noTail builds root _ => exact absurd root (hinner builds.after)
  | tailIsInner builds root _ => exact absurd root (hinner builds.after)
  | vec builds loads => exact absurd loads.root (hinner builds.after)

/-- The vector of two keys is loaded from an accepted pool exactly if the root is not the key of a
leaf, which it may be in a pool that was not read from a document. -/
theorem load_ofPool (hs : s.Valid) {name : String} {p : Pool α} {start : NodeId}
    (hl : ofPool s name p = .ok l) (hcalls : Calls l start l' next) {i : Nat} {e : PooledVec}
    (hi : p.vectors[i]? = some e) :
    (p.leaves.contains e.root = false → ∃ v, (l'.load i next).1.1 = .ok v) ∧
      (p.leaves.contains e.root = true →
        (l'.load i next).1.1 = .error (.invariant name (.rootIsLeaf e.root))) := by
  obtain ⟨hname, hpool⟩ := eq_of_ofPool hl
  obtain ⟨H, hlater⟩ := (Sound.ofPool hl fun _ => none).calls hs (fun _ _ => rfl) hcalls
  have hpool' : l'.pool = p := hlater.pool.trans hpool
  have hname' : l'.name = name := hcalls.name_eq.trans hname
  have hready := hlater.sound.ready
  have hmem : e ∈ l'.pool.vectors := hpool' ▸ List.mem_of_getElem? hi
  rw [load_of_getElem? (hpool' ▸ hi), ← hname', ← hpool']
  constructor
  · intro hnot
    obtain ⟨branch, hroot⟩ := hready.root hmem
    obtain ⟨items, htail⟩ := hready.tail hmem
    obtain ⟨v, ⟨built, next''⟩, hrun⟩ := vecOfM_eq_ok hs hready hlater.sound.built
      hlater.grows.free hroot (KeyMap.contains_eq_false_iff.mp hnot) htail
    exact ⟨v, by rw [vecOf_eq hrun]⟩
  · intro hleaf
    obtain ⟨items, hitems⟩ := KeyMap.contains_iff.mp hleaf
    obtain ⟨⟨built, next''⟩, hrun⟩ :=
      vecOfM_leaf_root hs hready hlater.sound.built hlater.grows.free hitems
    rw [vecOf_eq hrun]

/-- A pool in which one key names an inner node and a leaf. -/
def clashingPool : Pool Bool :=
  ⟨⟨1, 1⟩, .ofList [(0, ⟨[], false⟩)], .ofList [(0, []), (1, [])], [⟨0, 1⟩]⟩

/-- The key of two nodes is the root of a vector. -/
theorem load_ofPool_clashing :
    ∃ l e, ofPool ⟨1, 1⟩ "pool" clashingPool = .ok l ∧ clashingPool.vectors[0]? = some e ∧
      (clashingPool.leaves.contains e.root = false → ∃ v, (l.load 0 0).1.1 = .ok v) ∧
      (clashingPool.leaves.contains e.root = true →
        (l.load 0 0).1.1 = .error (.invariant "pool" (.rootIsLeaf e.root))) := by
  have hs : Shape.Valid ⟨1, 1⟩ := by decide
  refine ⟨_, ⟨0, 1⟩, rfl, rfl, ?_⟩
  exact load_ofPool hs rfl .start rfl

/-- A pool is accepted whose only vector is not loaded. -/
theorem load_clashingPool_eq_error :
    ∃ l, ofPool ⟨1, 1⟩ "pool" clashingPool = .ok l ∧ l.len = 1 ∧
      (l.load 0 0).1.1 = .error (.invariant "pool" (.rootIsLeaf 0)) :=
  ⟨_, rfl, rfl, rfl⟩

end Loader

end RadixPool
