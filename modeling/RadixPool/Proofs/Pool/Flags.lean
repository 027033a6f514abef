import Mathlib
import RadixPool.Proofs.Pool.Limits
import RadixPool.Proofs.Pool.Valid
import RadixPool.Proofs.Vec.Edits

/-!
Relaxed and regular nodes.

The flag of an inner node says how positions are found below it: from a table of sizes, or from
the bits of the position. What a pool contains does not depend on it. A regular node needs all of
its children but the last to be full, so flags can be set at will, and cleared where the children
are full. The vectors loaded before and after a change answer alike, and still do so after further
edits, in which one tree may get tables, or a higher root, where the other one does not.

A key that names both a leaf and an inner node stands for the leaf, and nothing is required of the
inner node.

* `Pool.resolved`: the pool with one node for each key.
* `Pool.Full`, `Pool.Regular`: keys of full nodes, and pools that are full where they must be.
* `Pool.Reflags`: pools that differ in flags only.
* `Pool.Reflags.ofPool_iff`: which of them are accepted; `Loader.Sound.load_resolved`: what is
  loaded from them.
* `Pool.setRelaxed`, `Loader.ofPool_setRelaxed`: the flags of some nodes set or cleared.
-/

namespace RadixPool

variable {α : Type} {s : Shape}

namespace Pool

variable {p p' : Pool α} {look : Rating}

/-! ### One node for each key -/

/-- The pool without the inner nodes whose keys name leaves. -/
def resolved (p : Pool α) : Pool α :=
  { p with inners := p.inners.filterMap fun k e => if p.leaves.contains k then none else some e }

lemma get?_inners_resolved (k : Key) :
    p.resolved.inners.get? k = if p.leaves.contains k then none else p.inners.get? k := by
  rw [resolved, KeyMap.get?_filterMap]
  cases p.inners.get? k <;> cases p.leaves.contains k <;> rfl

lemma inners_resolved_eq_some_iff {k : Key} {e : PooledBranch} :
    p.resolved.inners.get? k = some e ↔ p.leaves.get? k = none ∧ p.inners.get? k = some e := by
  rw [get?_inners_resolved, ← KeyMap.contains_eq_false_iff]
  cases p.leaves.contains k <;> simp

lemma disjoint_resolved : p.resolved.Disjoint := by
  intro k items hk
  have hleaf : p.leaves.contains k = true := KeyMap.contains_iff.mpr ⟨items, hk⟩
  rw [get?_inners_resolved, if_pos hleaf]

/-- A rating that fits does not depend on the nodes that no key stands for. -/
lemma Fits.resolved (hf : p.Fits look) : p.resolved.Fits look := by
  refine ⟨hf.leaf, fun hk hleaf => ?_⟩
  obtain ⟨e, h, ns, he, hm, hinfo⟩ := hf.inner hk hleaf
  exact ⟨e, h, ns, inners_resolved_eq_some_iff.mpr ⟨hleaf, he⟩, hm, hinfo⟩

/-- Nor do the nodes that are built. -/
lemma Built.resolved {plan : Plan} {H : Heap α} {built : KeyMap (Node α)}
    (hb : p.Built plan H built) : p.resolved.Built plan H built := by
  refine ⟨hb.known, fun {k n} hk => ?_, hb.rated, hb.inj⟩
  have hmade := hb.made hk
  cases n with
  | leaf l => exact hmade
  | inner id cs sizes =>
      obtain ⟨hleaf, e, he, hcs⟩ := hmade
      exact ⟨hleaf, e, inners_resolved_eq_some_iff.mpr ⟨hleaf, he⟩, hcs⟩

/-- The node of a key is full: it has all elements that a node of its height can have. -/
def Full (p : Pool α) (k : Key) : Prop := ∃ h, p.resolved.Weighs k ⟨h, 2 ^ p.shape.level h⟩

/-- All children of regular nodes but the last are full. -/
def Regular (p : Pool α) : Prop :=
  ∀ k e, p.inners.get? k = some e → e.relaxed = false → p.leaves.get? k = none →
    ∀ c ∈ e.children.dropLast, p.Full c

/-- In a pool whose inner nodes are rated the regular ones have full children. -/
lemma regular_of_fits (hf : p.Fits look)
    (hall : ∀ {k e}, p.inners.get? k = some e → ∃ i, look k = some i) : p.Regular := by
  intro k e he hrel hleaf c hc
  obtain ⟨i, hi⟩ := hall he
  obtain ⟨e', h, ns, he', hm, -⟩ := hf.inner hi hleaf
  obtain rfl := Option.some.inj (he.symm.trans he')
  obtain ⟨n, hn, hcn⟩ := hm.exists_of_mem_dropLast hc
  rw [hm.full hrel n hn] at hcn
  exact ⟨h, hf.resolved.weighs hcn⟩

/-! ### Pools that differ in flags only -/

/-- The second pool has the nodes and vectors of the first one, with other flags. -/
structure Reflags (p p' : Pool α) : Prop where
  shape : p'.shape = p.shape
  leaves : p'.leaves = p.leaves
  vectors : p'.vectors = p.vectors
  children : ∀ k,
    (p'.inners.get? k).map PooledBranch.children = (p.inners.get? k).map PooledBranch.children

namespace Reflags

lemma symm (h : p.Reflags p') : p'.Reflags p :=
  ⟨h.shape.symm, h.leaves.symm, h.vectors.symm, fun k => (h.children k).symm⟩

/-- An inner node is found in both pools, with the same children. -/
lemma exists_entry (h : p.Reflags p') {k : Key} {e : PooledBranch} (he : p.inners.get? k = some e) :
    ∃ e', p'.inners.get? k = some e' ∧ e'.children = e.children := by
  have hk := h.children k
  rwa [he, Option.map_some, Option.map_eq_some_iff] at hk

lemma resolved (h : p.Reflags p') : p.resolved.Reflags p'.resolved := by
  refine ⟨h.shape, h.leaves, h.vectors, fun k => ?_⟩
  rw [get?_inners_resolved, get?_inners_resolved, h.leaves]
  split
  · rfl
  · exact h.children k

/-- The elements below a key do not depend on flags. -/
lemma contents (h : p.Reflags p') {k : Key} {xs : List α} (hk : p.Contents k xs) :
    p'.Contents k xs := by
  refine Contents.rec (motive_1 := fun k xs _ => p'.Contents k xs)
    (motive_2 := fun ks xs _ => p'.ContentsAll ks xs) ?_ ?_ ?_ ?_ hk
  · intro k items entry
    exact .leaf (h.leaves ▸ entry)
  · intro k e xs entry _ below
    obtain ⟨e', he', hcs⟩ := h.exists_entry entry
    exact .inner he' (hcs ▸ below)
  · exact .nil
  · intro k ks xs ys _ _ head tail
    exact .cons head tail

/-- Nor does the height of a key. -/
lemma height (h : p.Reflags p') {k : Key} {n : Nat} (hk : p.Height k n) : p'.Height k n := by
  induction hk with
  | leaf entry => exact .leaf (h.leaves ▸ entry)
  | inner entry flat _ ih =>
      obtain ⟨e', he', hcs⟩ := h.exists_entry entry
      exact .inner he' (hcs ▸ flat) (hcs ▸ ih)

lemma weighs (h : p.Reflags p') {k : Key} {i : NodeInfo} (hk : p.Weighs k i) : p'.Weighs k i := by
  obtain ⟨hh, xs, hxs, hsize⟩ := hk
  exact ⟨h.height hh, xs, h.contents hxs, hsize⟩

lemma full (h : p.Reflags p') {k : Key} (hk : p.Full k) : p'.Full k := by
  obtain ⟨n, hn⟩ := hk
  exact ⟨n, h.shape ▸ h.resolved.weighs hn⟩

lemma contains (h : p.Reflags p') (k : Key) : p'.contains k = p.contains k := by
  have hinner := congrArg Option.isSome (h.children k)
  rw [Option.isSome_map, Option.isSome_map] at hinner
  simp only [Pool.contains, KeyMap.contains, hinner, h.leaves]

lemma checked (h : p.Reflags p') (hp : p.Checked) : p'.Checked := by
  refine ⟨fun hk => h.shape ▸ hp.leaf (h.leaves ▸ hk), fun hk => ?_, fun hk hc => ?_, fun hv => ?_,
    fun hv => ?_⟩
  · obtain ⟨e, he, hcs⟩ := h.symm.exists_entry hk
    exact h.shape ▸ hcs ▸ hp.width he
  · obtain ⟨e, he, hcs⟩ := h.symm.exists_entry hk
    exact (h.contains _).trans (hp.child he (hcs ▸ hc))
  · exact (h.contains _).trans (hp.root (h.vectors ▸ hv))
  · exact (h.contains _).trans (hp.tail (h.vectors ▸ hv))

/-- A rating fits after a change of flags, if the regular nodes have full children then. -/
lemma fits (h : p.Reflags p') (hf : p.Fits look) (hreg : p'.Regular) : p'.Fits look := by
  refine ⟨fun hk => hf.leaf (h.leaves ▸ hk), fun {k i} hk hleaf => ?_⟩
  obtain ⟨e, g, ns, he, hm, hinfo⟩ := hf.inner hk (h.leaves ▸ hleaf)
  obtain ⟨e', he', hcs⟩ := h.exists_entry he
  refine ⟨e', g, ns, he', ?_, hinfo⟩
  rw [h.shape]
  refine ⟨hcs ▸ hm.children, hcs ▸ hm.flat, fun hrel n hn => ?_, hm.fits, hm.level⟩
  obtain ⟨c, hc, hcn⟩ := Measured.exists_child_of_mem_dropLast hm.children hn
  -- the count of the child is the one that the entries give it
  obtain ⟨g', hfull⟩ := h.symm.full (hreg k e' he' hrel hleaf c (hcs ▸ hc))
  have heq := (hf.resolved.weighs hcn).unique disjoint_resolved hfull
  rw [NodeInfo.mk.injEq] at heq
  rw [heq.2, heq.1]

/-- With other flags an accepted pool is accepted exactly if the regular nodes have full
children. -/
theorem ofPool_iff (h : p.Reflags p') {name name' : String} {l : Loader α}
    (hl : Loader.ofPool s name p = .ok l) :
    (∃ l', Loader.ofPool s name' p' = .ok l') ↔ p'.Regular := by
  constructor
  · rintro ⟨l', hl'⟩
    have hready := Loader.ready_of_ofPool hl'
    obtain ⟨-, -, -, plan, -, rfl⟩ := Loader.ofPool_eq_ok_iff.mp hl'
    exact regular_of_fits hready.fits hready.rated
  · intro hreg
    have hready := Loader.ready_of_ofPool hl
    obtain ⟨hshape, hchecked, -, plan, -, rfl⟩ := Loader.ofPool_eq_ok_iff.mp hl
    have hrated : ∀ {k e'}, p'.inners.get? k = some e' → ∃ i, plan.get? k = some i := by
      intro k e' he'
      obtain ⟨e, he, -⟩ := h.symm.exists_entry he'
      exact hready.rated he
    have hroot : ∀ {v}, v ∈ p'.vectors → ∃ e', p'.inners.get? v.root = some e' := by
      intro v hv
      obtain ⟨e, he⟩ := hready.root (h.vectors ▸ hv)
      obtain ⟨e', he', -⟩ := h.exists_entry he
      exact ⟨e', he'⟩
    obtain ⟨plan', hl'⟩ := Loader.ofPool_of_fits (h.shape.trans hshape) (h.checked hchecked) hroot
      (fun hv => h.leaves ▸ hready.tail (h.vectors ▸ hv)) (h.fits hready.fits hreg) hrated name'
    exact ⟨_, hl'⟩

end Reflags

/-! ### Setting and clearing flags -/

/-- The pool with the flags of the inner nodes under some keys set or cleared. -/
def setRelaxed (p : Pool α) (ks : Key → Bool) (relaxed : Bool) : Pool α :=
  { p with inners := p.inners.filterMap fun k e => some (if ks k then { e with relaxed } else e) }

lemma get?_inners_setRelaxed (ks : Key → Bool) (relaxed : Bool) (k : Key) :
    (p.setRelaxed ks relaxed).inners.get? k =
      (p.inners.get? k).map fun e => if ks k then { e with relaxed } else e := by
  rw [setRelaxed, KeyMap.get?_filterMap, Option.map_eq_bind]
  rfl

lemma reflags_setRelaxed (p : Pool α) (ks : Key → Bool) (relaxed : Bool) :
    p.Reflags (p.setRelaxed ks relaxed) := by
  refine ⟨rfl, rfl, rfl, fun k => ?_⟩
  rw [get?_inners_setRelaxed, Option.map_map]
  congr 1
  funext e
  rw [Function.comp_apply]
  split <;> rfl

/-- Setting flags makes fewer nodes regular. -/
lemma Regular.setRelaxed_true (hp : p.Regular) (ks : Key → Bool) :
    (p.setRelaxed ks true).Regular := by
  intro k e he hrel hleaf c hc
  rw [get?_inners_setRelaxed, Option.map_eq_some_iff] at he
  obtain ⟨e₀, he₀, rfl⟩ := he
  refine (p.reflags_setRelaxed ks true).full ?_
  split at hrel
  · cases hrel
  · next hk =>
    rw [if_neg hk] at hc
    exact hp k e₀ he₀ hrel hleaf c hc

/-- Clearing flags leaves a pool in order exactly if the nodes that become regular have full
children. -/
lemma Regular.setRelaxed_false_iff (hp : p.Regular) (ks : Key → Bool) :
    (p.setRelaxed ks false).Regular ↔
      ∀ k e, ks k = true → p.inners.get? k = some e → e.relaxed = true → p.leaves.get? k = none →
        ∀ c ∈ e.children.dropLast, p.Full c := by
  have hflags := p.reflags_setRelaxed ks false
  constructor
  · intro hreg k e hk he _ hleaf c hc
    refine hflags.symm.full (hreg k { e with relaxed := false } ?_ rfl hleaf c hc)
    rw [get?_inners_setRelaxed, he, Option.map_some, if_pos hk]
  · intro hfull k e he hrel hleaf c hc
    rw [get?_inners_setRelaxed, Option.map_eq_some_iff] at he
    obtain ⟨e₀, he₀, rfl⟩ := he
    refine hflags.full ?_
    have hcs : (if ks k then { e₀ with relaxed := false } else e₀).children = e₀.children := by
      split <;> rfl
    rw [hcs] at hc
    cases hflag : e₀.relaxed with
    | false => exact hp k e₀ he₀ hflag hleaf c hc
    | true =>
        refine hfull k e₀ ?_ he₀ hflag hleaf c hc
        by_contra hk
        rw [if_neg hk, hflag] at hrel
        cases hrel

end Pool

namespace Loader

variable {l : Loader α} {H : Heap α} {next : NodeId}

/-- The vector at a position has the elements of its two keys, if the root is not the key of a
leaf. -/
lemma Sound.load_resolved (hs : s.Valid) (hl : l.Sound s H) (hfree : H.FreeFrom next) {i : Nat}
    {e : PooledVec} (hi : l.pool.vectors[i]? = some e) (hnot : l.pool.leaves.get? e.root = none) :
    ∃ v, (l.load i next).1.1 = .ok v ∧ l.pool.resolved.Contents e.root v.root.node.elements ∧
      l.pool.resolved.Contents e.tail v.tail.items ∧
      (v.toList.length < Word.count → ∃ h, v.Sound s h) := by
  have hmem := List.mem_of_getElem? hi
  obtain ⟨branch, hroot⟩ := hl.ready.root hmem
  obtain ⟨items, htail⟩ := hl.ready.tail hmem
  obtain ⟨v, ⟨built', next'⟩, hrun⟩ := vecOfM_eq_ok hs hl.ready hl.built hfree hroot hnot htail
  obtain ⟨H', hlater, hloads⟩ := hl.vecOf hs hfree e
  rw [load_of_getElem? hi]
  rw [vecOf_eq hrun] at hlater hloads ⊢
  obtain ⟨h, hv⟩ := hloads v rfl
  have hbuilt : l.pool.resolved.Built l.plan H' built' := hlater.sound.built.resolved
  obtain ⟨hroot', htail'⟩ := hv.contents_iff Pool.disjoint_resolved hbuilt
  exact ⟨v, rfl, (hroot' _).mpr rfl, (htail' _).mpr rfl, fun hlt => ⟨h, hv.vecSound hlt⟩⟩

/-- The key of a leaf is the root of no vector. -/
lemma Sound.load_leaf_root (hs : s.Valid) (hl : l.Sound s H) (hfree : H.FreeFrom next) {i : Nat}
    {e : PooledVec} (hi : l.pool.vectors[i]? = some e)
    (hleaf : l.pool.leaves.contains e.root = true) :
    (l.load i next).1.1 = .error (.invariant l.name (.rootIsLeaf e.root)) := by
  obtain ⟨items, hitems⟩ := KeyMap.contains_iff.mp hleaf
  obtain ⟨⟨built', next'⟩, hrun⟩ := vecOfM_leaf_root hs hl.ready hl.built hfree hitems
  rw [load_of_getElem? hi, vecOf_eq hrun]

/-- From pools that differ in flags only vectors with the same elements are loaded at a position. -/
lemma Sound.load_reflagged (hs : s.Valid) {l l' : Loader α} {H H' : Heap α} {next next' : NodeId}
    (hl : l.Sound s H) (hl' : l'.Sound s H') (hfree : H.FreeFrom next) (hfree' : H'.FreeFrom next')
    (hflags : l.pool.Reflags l'.pool) {i : Nat} {e : PooledVec} (hi : l.pool.vectors[i]? = some e)
    (hnot : l.pool.leaves.get? e.root = none) :
    ∃ v v', (l.load i next).1.1 = .ok v ∧ (l'.load i next').1.1 = .ok v' ∧ v.toList = v'.toList ∧
      (v.toList.length < Word.count → (∃ h, v.Sound s h) ∧ ∃ h', v'.Sound s h') := by
  obtain ⟨v, hv, hroot, htail, hsound⟩ := hl.load_resolved hs hfree hi hnot
  obtain ⟨v', hv', hroot', htail', hsound'⟩ :=
    hl'.load_resolved hs hfree' (hflags.vectors ▸ hi) (hflags.leaves ▸ hnot)
  -- both vectors have what the first pool contains below the keys
  have hlist : v.toList = v'.toList := by
    have hroots := hroot.unique Pool.disjoint_resolved (hflags.resolved.symm.contents hroot')
    have htails := htail.unique Pool.disjoint_resolved (hflags.resolved.symm.contents htail')
    rw [Vec.toList, Vec.toList, ← Branch.elements_node, ← Branch.elements_node, hroots, htails]
  exact ⟨v, v', hv, hv', hlist, fun hlt => ⟨hsound hlt, hsound' (hlist ▸ hlt)⟩⟩

/-- Setting flags in an accepted pool gives one that is accepted. Clearing them does so exactly if
all children but the last of the nodes that change are full, apart from nodes whose keys name
leaves. In either case what is loaded at a position before and after the change has the same
elements and answers alike after all edits that leave the length a word; and a position whose root
is the key of a leaf is refused in both pools. -/
theorem ofPool_setRelaxed (hs : s.Valid) {name : String} {p : Pool α} (hl : ofPool s name p = .ok l)
    (ks : Key → Bool) :
    (∃ l', ofPool s name (p.setRelaxed ks true) = .ok l') ∧
      ((∃ l', ofPool s name (p.setRelaxed ks false) = .ok l') ↔
        ∀ k e, ks k = true → p.inners.get? k = some e → e.relaxed = true → p.leaves.get? k = none →
          ∀ c ∈ e.children.dropLast, p.Full c) ∧
      ∀ relaxed l', ofPool s name (p.setRelaxed ks relaxed) = .ok l' →
        ∀ start start' m m' next next', Calls l start m next → Calls l' start' m' next' →
          ∀ i e, p.vectors[i]? = some e →
            (p.leaves.contains e.root = true →
              (m.load i next).1.1 = .error (.invariant name (.rootIsLeaf e.root)) ∧
              (m'.load i next').1.1 = .error (.invariant name (.rootIsLeaf e.root))) ∧
            (p.leaves.contains e.root = false →
              ∃ v v', (m.load i next).1.1 = .ok v ∧ (m'.load i next').1.1 = .ok v' ∧
                v.toList = v'.toList ∧
                ∀ es w w', v.toList.length + Edit.totalGrowth es < Word.count →
                  v.Edits s es w → v'.Edits s es w' → w.Agrees s w') := by
  have hregular : p.Regular := (Pool.Reflags.ofPool_iff ⟨rfl, rfl, rfl, fun _ => rfl⟩ hl).mp ⟨l, hl⟩
  refine ⟨?_, ?_, ?_⟩
  · exact ((p.reflags_setRelaxed ks true).ofPool_iff hl).mpr (hregular.setRelaxed_true ks)
  · exact ((p.reflags_setRelaxed ks false).ofPool_iff hl).trans (hregular.setRelaxed_false_iff ks)
  intro relaxed l' hl' start start' m m' next next' hcalls hcalls' i e hi
  obtain ⟨H, hlater⟩ := (Sound.ofPool hl fun _ => none).calls hs (fun _ _ => rfl) hcalls
  obtain ⟨H', hlater'⟩ := (Sound.ofPool hl' fun _ => none).calls hs (fun _ _ => rfl) hcalls'
  have hpool : m.pool = p := hlater.pool.trans (eq_of_ofPool hl).2
  have hpool' : m'.pool = p.setRelaxed ks relaxed := hlater'.pool.trans (eq_of_ofPool hl').2
  have hname : m.name = name := hcalls.name_eq.trans (eq_of_ofPool hl).1
  have hname' : m'.name = name := hcalls'.name_eq.trans (eq_of_ofPool hl').1
  have hflags : m.pool.Reflags m'.pool := by
    rw [hpool, hpool']
    exact p.reflags_setRelaxed ks relaxed
  have hi₁ : m.pool.vectors[i]? = some e := hpool ▸ hi
  have hi₂ : m'.pool.vectors[i]? = some e := hpool' ▸ hi
  constructor
  · intro hleaf
    have herr := hlater.sound.load_leaf_root hs hlater.grows.free hi₁ (hpool ▸ hleaf)
    have herr' := hlater'.sound.load_leaf_root hs hlater'.grows.free hi₂ (hpool' ▸ hleaf)
    rw [hname] at herr
    rw [hname'] at herr'
    exact ⟨herr, herr'⟩
  · intro hnot
    rw [KeyMap.contains_eq_false_iff] at hnot
    obtain ⟨v, v', hv, hv', hlist, hsound⟩ := hlater.sound.load_reflagged hs hlater'.sound
      hlater.grows.free hlater'.grows.free hflags hi₁ (hpool ▸ hnot)
    refine ⟨v, v', hv, hv', hlist, fun es w w' hroom hw hw' => ?_⟩
    have hlt : v.toList.length < Word.count := Nat.lt_of_le_of_lt (Nat.le_add_right _ _) hroom
    obtain ⟨⟨h, hv⟩, h', hv'⟩ := hsound hlt
    exact hv.agrees_of_edits hs hv' hlist hroom hw hw'

/-- A pool with a relaxed node over a full leaf and one that is not full. -/
def flaggedPool : Pool Bool :=
  ⟨⟨1, 1⟩, .ofList [(0, ⟨[1, 2], true⟩)], .ofList [(1, [true, true]), (2, [false])], [⟨0, 2⟩]⟩

/-- The flag of the node can be cleared, and its vector stays the same. -/
theorem ofPool_setRelaxed_flagged :
    ∃ l l', ofPool ⟨1, 1⟩ "pool" flaggedPool = .ok l ∧
      ofPool ⟨1, 1⟩ "pool" (flaggedPool.setRelaxed (· == 0) false) = .ok l' ∧
      ∃ v v', (l.load 0 0).1.1 = .ok v ∧ (l'.load 0 0).1.1 = .ok v' ∧ v.toList = v'.toList ∧
        ∀ es w w', v.toList.length + Edit.totalGrowth es < Word.count →
          v.Edits ⟨1, 1⟩ es w → v'.Edits ⟨1, 1⟩ es w' → w.Agrees ⟨1, 1⟩ w' := by
  have hs : Shape.Valid ⟨1, 1⟩ := by decide
  obtain ⟨l, hl⟩ : ∃ l, ofPool ⟨1, 1⟩ "pool" flaggedPool = .ok l := ⟨_, rfl⟩
  obtain ⟨l', hl'⟩ :
    ∃ l', ofPool ⟨1, 1⟩ "pool" (flaggedPool.setRelaxed (· == 0) false) = .ok l' := ⟨_, rfl⟩
  obtain ⟨-, -, hloads⟩ := ofPool_setRelaxed hs hl (· == 0)
  exact ⟨l, l', hl, hl', (hloads false l' hl' 0 0 l l' 0 0 .start .start 0 ⟨0, 2⟩ rfl).2 rfl⟩

/-- A pool in which the key of an inner node names a leaf as well. -/
def shadowedPool : Pool Bool :=
  ⟨⟨1, 1⟩, .ofList [(0, ⟨[1, 2], true⟩)], .ofList [(0, []), (1, [true]), (2, [])], []⟩

/-- The flag of such a node can be cleared although a child before the last one is not full. -/
theorem ofPool_setRelaxed_shadowed :
    ∃ l l' e, ofPool ⟨1, 1⟩ "pool" shadowedPool = .ok l ∧
      ofPool ⟨1, 1⟩ "pool" (shadowedPool.setRelaxed (· == 0) false) = .ok l' ∧
      shadowedPool.inners.get? 0 = some e ∧ e.relaxed = true ∧ 1 ∈ e.children.dropLast ∧
      ¬ shadowedPool.Full 1 := by
  refine ⟨_, _, _, rfl, rfl, rfl, rfl, List.mem_singleton_self 1, ?_⟩
  rintro ⟨h, hheight, xs, hxs, hlen⟩
  cases hheight with
  | inner entry => cases entry
  | leaf =>
      cases hxs with
      | inner entry => cases entry
      | leaf entry =>
          cases entry
          cases hlen

end Loader

end RadixPool
