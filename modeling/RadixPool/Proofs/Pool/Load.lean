import Mathlib
import RadixPool.Proofs.Pool.Document
import RadixPool.Proofs.Pool.Loader

/-!
Loading vectors from accepted pools.

Whatever a loader is asked for, its nodes stay as the pool says. A vector of the pool is always
loaded, and has the elements and the height that its keys have in the pool.

* `Loader.Sound`, `Loader.Loads`: sound loaders, and the vector that two keys stand for.
* `Loader.Outcome`, `Loader.vecOfM_outcome`: what asking for the vector of two keys can lead to.
* `Loader.Sound.vecOf`: whatever is asked for, a loader stays sound and only grows.
* `Loader.Sound.vecOf_eq_ok`, `Loader.Sound.load_eq_ok`: the vector of the keys of an inner node and
  of a leaf is loaded, and so is every vector of the pool.
* `Loader.loadAll`: loads vectors one after the other.
* `Loader.Calls`: the states of a loader in use.
* `Loader.load_ofJson`: loading from an untrusted document.
-/

namespace RadixPool

variable {α : Type} {s : Shape}

namespace Loader

/-- A sound loader is ready, and its nodes are as its pool says. -/
structure Sound (s : Shape) (H : Heap α) (l : Loader α) : Prop where
  ready : l.Ready s
  built : l.pool.Built l.plan H l.built

/-- A vector whose root and tail are the nodes built for two keys; the children of the root have
height `h`. -/
structure Loads (s : Shape) (built : KeyMap (Node α)) (e : PooledVec) (h : Nat) (v : Vec α) :
    Prop where
  root : built.get? e.root = some v.root.node
  tail : built.get? e.tail = some (.leaf v.tail)
  sound : v.root.node.Sound s (h + 1)
  fits : v.tail.items.length ≤ 2 ^ s.leafBits
  level : s.level h < Word.width
  shift : v.shift = s.level h
  len : v.len = Word.add v.root.node.count v.tail.items.length

/-- A loader that has been asked for something: the pool is the same, and more is built. -/
structure Later (s : Shape) (H : Heap α) (l : Loader α) (next : NodeId) (H' : Heap α)
    (l' : Loader α) (next' : NodeId) : Prop where
  grows : H.Grows next H' next'
  sound : l'.Sound s H'
  pool : l'.pool = l.pool
  sub : l.built.Sub l'.built

variable {l l' : Loader α} {H H' H'' : Heap α} {next next' next'' : NodeId}

/-- A loaded vector with less than `2^64` elements is sound. -/
lemma Loads.vecSound {built : KeyMap (Node α)} {e : PooledVec} {h : Nat} {v : Vec α}
    (hv : Loads s built e h v) (hlt : v.toList.length < Word.count) : v.Sound s h := by
  have hlen := Vec.length_toList v
  refine ⟨hv.sound, hv.shift, hv.fits, ?_, hlt, .inl hv.level⟩
  rw [hv.len, Word.add_eq (hlen ▸ hlt), hlen]

/-- A loaded vector stays the one of its keys when more is built. -/
lemma Loads.mono {built built' : KeyMap (Node α)} {e : PooledVec} {h : Nat} {v : Vec α}
    (hv : Loads s built e h v) (hsub : built.Sub built') : Loads s built' e h v :=
  ⟨hsub _ _ hv.root, hsub _ _ hv.tail, hv.sound, hv.fits, hv.level, hv.shift, hv.len⟩

/-- A loaded vector is made of known nodes. -/
lemma Loads.known {p : Pool α} {plan : Plan} {built : KeyMap (Node α)} {e : PooledVec} {h : Nat}
    {v : Vec α} (hv : Loads s built e h v) (hb : p.Built plan H built) : v.Known H := by
  rw [Vec.known_iff]
  exact ⟨hb.known hv.root, hb.known hv.tail⟩

/-- A loader made from an accepted pool is sound. -/
lemma Sound.ofPool {name : String} {p : Pool α} (hl : ofPool s name p = .ok l) (H : Heap α) :
    l.Sound s H := by
  obtain ⟨-, -, -, plan, -, rfl⟩ := ofPool_eq_ok_iff.mp hl
  exact ⟨ready_of_ofPool hl, .empty⟩

lemma Sound.mono (hl : l.Sound s H) (hg : H.Grows next H' next') : l.Sound s H' :=
  ⟨hl.ready, hl.built.mono hg⟩

lemma Later.refl (hl : l.Sound s H) (hfree : H.FreeFrom next) : l.Later s H next H l next :=
  ⟨.refl hfree, hl, rfl, .refl _⟩

lemma Later.trans {l'' : Loader α} (h : l.Later s H next H' l' next')
    (h' : l'.Later s H' next' H'' l'' next'') : l.Later s H next H'' l'' next'' :=
  ⟨h.grows.trans h'.grows, h'.sound, h'.pool.trans h.pool, h.sub.trans h'.sub⟩

/-! ### The vector of two keys -/

/-- The node of any key: it is built, or the key is not in use and nothing happens. -/
lemma node_cases (hs : s.Valid) (hl : l.Ready s) {built : KeyMap (Node α)}
    (hb : l.pool.Built l.plan H built) (hfree : H.FreeFrom next) (k : Key) :
    (∃ n H' built' next', l.node maxLevels k (built, next) = (.ok n, built', next') ∧
      l.pool.Builds l.plan [k] H built next H' built' next' ∧ built'.get? k = some n) ∨
    l.pool.contains k = false ∧
      l.node maxLevels k (built, next) = (.error (.dangling l.name (.node k)), built, next) := by
  cases hk : l.plan.get? k with
  | some info => exact .inl (node_eq_ok hs hl hk (hl.height_lt hs hk) hb hfree)
  | none =>
      have hleaf : l.pool.leaves.get? k = none := by
        by_contra hne
        obtain ⟨items, hitems⟩ := Option.ne_none_iff_exists'.mp hne
        rw [hl.fits.leaf hitems] at hk
        cases hk
      have hinner : l.pool.inners.get? k = none := by
        by_contra hne
        obtain ⟨e, he⟩ := Option.ne_none_iff_exists'.mp hne
        obtain ⟨info, hinfo⟩ := hl.rated he
        rw [hinfo] at hk
        cases hk
      have hnew : built.get? k = none := by
        by_contra hne
        obtain ⟨n, hn⟩ := Option.ne_none_iff_exists'.mp hne
        obtain ⟨info, hinfo, -⟩ := hb.rated hn
        rw [hinfo] at hk
        cases hk
      refine .inr ⟨?_, node_unknown hnew hleaf hinner⟩
      rw [Pool.contains, KeyMap.contains_eq_false_iff.mpr hinner,
        KeyMap.contains_eq_false_iff.mpr hleaf]
      rfl

/-- The vector of a root and a tail that were built takes its length and its level from the plan. -/
lemma vecOfM_of_nodes {e : PooledVec} {st st₁ st₂ : KeyMap (Node α) × NodeId} {id : NodeId}
    {cs : List (Node α)} {sizes : Option (List Nat)} {tail : Leaf α} {info : NodeInfo}
    (hroot : l.node maxLevels e.root st = (.ok (.inner id cs sizes), st₁))
    (htail : l.node maxLevels e.tail st₁ = (.ok (.leaf tail), st₂))
    (hinfo : l.plan.get? e.root = some info) :
    l.vecOfM e st = (.ok ⟨Word.add info.size tail.items.length, l.pool.shape.shiftAt info.height,
      ⟨id, cs, sizes⟩, tail⟩, st₂) := by
  refine (run_bind_of_ok hroot).trans ((run_bind_of_ok htail).trans ?_)
  rw [Loader.info, hinfo]
  rfl

/-- A root and a tail that were built have their vector. -/
lemma exists_loads (hl : l.Ready s) {built : KeyMap (Node α)} (hb : l.pool.Built l.plan H built)
    {e : PooledVec} {st st₁ : KeyMap (Node α) × NodeId} {id : NodeId} {cs : List (Node α)}
    {sizes : Option (List Nat)} {tail : Leaf α}
    (hrun₁ : l.node maxLevels e.root st = (.ok (.inner id cs sizes), st₁))
    (hrun₂ : l.node maxLevels e.tail st₁ = (.ok (.leaf tail), built, next))
    (hroot : built.get? e.root = some (.inner id cs sizes))
    (htail : built.get? e.tail = some (.leaf tail)) :
    ∃ v h, l.vecOfM e st = (.ok v, built, next) ∧ Loads s built e h v := by
  have hshape := hl.shape
  obtain ⟨info, hinfo, hsound, hcount⟩ := hb.rated hroot
  obtain ⟨info', -, hfits, -⟩ := hb.rated htail
  rcases hl.fits.cases hinfo with ⟨items, -, rfl⟩ | ⟨-, branch, h, ns, -, hm, rfl⟩
  · obtain ⟨h, hzero⟩ := hsound.exists_succ
    cases hzero
  · refine ⟨_, h, vecOfM_of_nodes hrun₁ hrun₂ hinfo, hroot, htail, hshape ▸ hsound,
      hshape ▸ (Node.sound_leaf_iff.mp hfits).2, hshape ▸ hm.level, ?_, ?_⟩
    · rw [hshape, Shape.shiftAt_succ]
    · exact congrArg (Word.add · tail.items.length) hcount.symm

/-- What comes out when the vector of two keys is asked for, and what is built then: the root is
built first, if its key is in use, and the tail only after a root that is an inner node. -/
inductive Outcome (s : Shape) (l : Loader α) (e : PooledVec) (H : Heap α) (built : KeyMap (Node α))
    (next : NodeId) : Except Error (Vec α) → Heap α → KeyMap (Node α) → NodeId → Prop where
  | noRoot (builds : l.pool.Builds l.plan [e.root] H built next H built next)
      (unused : l.pool.contains e.root = false) :
      Outcome s l e H built next (.error (.dangling l.name (.node e.root))) H built next
  | rootIsLeaf {H' : Heap α} {built' : KeyMap (Node α)} {next' : NodeId} {leaf : Leaf α}
      (builds : l.pool.Builds l.plan [e.root] H built next H' built' next')
      (root : built'.get? e.root = some (.leaf leaf)) :
      Outcome s l e H built next (.error (.invariant l.name (.rootIsLeaf e.root))) H' built' next'
  | noTail {H' : Heap α} {built' : KeyMap (Node α)} {next' : NodeId} {id : NodeId}
      {cs : List (Node α)} {sizes : Option (List Nat)}
      (builds : l.pool.Builds l.plan [e.root] H built next H' built' next')
      (root : built'.get? e.root = some (.inner id cs sizes))
      (unused : l.pool.contains e.tail = false) :
      Outcome s l e H built next (.error (.dangling l.name (.node e.tail))) H' built' next'
  | tailIsInner {H' : Heap α} {built' : KeyMap (Node α)} {next' : NodeId} {id id' : NodeId}
      {cs cs' : List (Node α)} {sizes sizes' : Option (List Nat)}
      (builds : l.pool.Builds l.plan [e.root, e.tail] H built next H' built' next')
      (root : built'.get? e.root = some (.inner id cs sizes))
      (tail : built'.get? e.tail = some (.inner id' cs' sizes')) :
      Outcome s l e H built next (.error (.invariant l.name (.tailIsInner e.tail))) H' built' next'
  | vec {H' : Heap α} {built' : KeyMap (Node α)} {next' : NodeId} {v : Vec α} {h : Nat}
      (builds : l.pool.Builds l.plan [e.root, e.tail] H built next H' built' next')
      (loads : Loads s built' e h v) : Outcome s l e H built next (.ok v) H' built' next'

/-- Asking for the vector of two keys has one of these outcomes. -/
lemma vecOfM_outcome (hs : s.Valid) (hl : l.Ready s) {built : KeyMap (Node α)}
    (hb : l.pool.Built l.plan H built) (hfree : H.FreeFrom next) (e : PooledVec) :
    ∃ r H' built' next', l.vecOfM e (built, next) = (r, built', next') ∧
      l.Outcome s e H built next r H' built' next' := by
  rcases node_cases hs hl hb hfree e.root with
    ⟨n, H₁, built₁, next₁, hrun₁, hbuilds₁, hroot⟩ | ⟨hunused, hrun₁⟩
  · cases n with
    | leaf leaf => exact ⟨_, _, _, _, run_bind_of_ok hrun₁, .rootIsLeaf hbuilds₁ hroot⟩
    | inner id cs sizes =>
        rcases node_cases hs hl hbuilds₁.after hbuilds₁.grows.free e.tail with
          ⟨m, H₂, built₂, next₂, hrun₂, hbuilds₂, htail⟩ | ⟨hunused, hrun₂⟩
        · have hbuilds : l.pool.Builds l.plan [e.root, e.tail] H built next H₂ built₂ next₂ :=
            hbuilds₁.trans hbuilds₂ fun k hk => ⟨k, hk, .refl k⟩
          have hroot' := hbuilds₂.sub _ _ hroot
          cases m with
          | inner id' cs' sizes' =>
              exact ⟨_, _, _, _, (run_bind_of_ok hrun₁).trans (run_bind_of_ok hrun₂),
                .tailIsInner hbuilds hroot' htail⟩
          | leaf tail =>
              obtain ⟨v, h, hrun, hv⟩ := exists_loads hl hbuilds₂.after hrun₁ hrun₂ hroot' htail
              exact ⟨_, _, _, _, hrun, .vec hbuilds hv⟩
        · exact ⟨_, _, _, _, (run_bind_of_ok hrun₁).trans (run_bind_of_error hrun₂),
            .noTail hbuilds₁ hroot hunused⟩
  · exact ⟨_, _, _, _, run_bind_of_error hrun₁, .noRoot (.refl hb hfree _) hunused⟩

/-- Whatever keys are asked for, only their nodes are built, and a vector that comes out is
theirs. -/
lemma vecOfM_builds (hs : s.Valid) (hl : l.Ready s) {built : KeyMap (Node α)}
    (hb : l.pool.Built l.plan H built) (hfree : H.FreeFrom next) (e : PooledVec) :
    ∃ r H' built' next', l.vecOfM e (built, next) = (r, built', next') ∧
      l.pool.Builds l.plan [e.root, e.tail] H built next H' built' next' ∧
      ∀ v, r = .ok v → ∃ h, Loads s built' e h v := by
  have hroot : ∀ k ∈ [e.root], k ∈ [e.root, e.tail] := by simp
  obtain ⟨r, H', built', next', hrun, hout⟩ := vecOfM_outcome hs hl hb hfree e
  refine ⟨r, H', built', next', hrun, ?_⟩
  cases hout with
  | noRoot builds _ => exact ⟨builds.weaken hroot, fun _ hv => nomatch hv⟩
  | rootIsLeaf builds _ => exact ⟨builds.weaken hroot, fun _ hv => nomatch hv⟩
  | noTail builds _ _ => exact ⟨builds.weaken hroot, fun _ hv => nomatch hv⟩
  | tailIsInner builds _ _ => exact ⟨builds, fun _ hv => nomatch hv⟩
  | @vec _ _ _ v h builds loads => exact ⟨builds, fun w hw => ⟨h, Except.ok.inj hw ▸ loads⟩⟩

/-- The keys of an inner node and of a leaf have their vector. -/
lemma vecOfM_eq_ok (hs : s.Valid) (hl : l.Ready s) {built : KeyMap (Node α)}
    (hb : l.pool.Built l.plan H built) (hfree : H.FreeFrom next) {e : PooledVec}
    {branch : PooledBranch} {items : List α} (hroot : l.pool.inners.get? e.root = some branch)
    (hnot : l.pool.leaves.get? e.root = none) (htail : l.pool.leaves.get? e.tail = some items) :
    ∃ v st', l.vecOfM e (built, next) = (.ok v, st') := by
  have hused : l.pool.contains e.root = true := Pool.contains_iff.mpr (.inl ⟨branch, hroot⟩)
  have hused' : l.pool.contains e.tail = true := Pool.contains_iff.mpr (.inr ⟨items, htail⟩)
  obtain ⟨r, H', built', next', hrun, hout⟩ := vecOfM_outcome hs hl hb hfree e
  cases hout with
  | noRoot _ unused => rw [hused] at unused; cases unused
  | @rootIsLeaf _ _ _ leaf builds root =>
      have hmade : l.pool.leaves.get? e.root = some leaf.items := builds.after.made root
      rw [hnot] at hmade
      cases hmade
  | noTail _ _ unused => rw [hused'] at unused; cases unused
  | tailIsInner builds _ tail =>
      have hmade := (builds.after.made tail).1
      rw [htail] at hmade
      cases hmade
  | vec => exact ⟨_, _, hrun⟩

lemma vecOf_eq {e : PooledVec} {r : Except Error (Vec α)} {built' : KeyMap (Node α)}
    (hrun : l.vecOfM e (l.built, next) = (r, built', next')) :
    l.vecOf e next = ((r, { l with built := built' }), next') := by
  have hrun' : (l.vecOfM e).run.run (l.built, next) = (r, built', next') := hrun
  rw [Loader.vecOf]
  simp only [hrun']

/-- Whatever keys are asked for, a loader stays sound and only grows. -/
theorem Sound.vecOf (hs : s.Valid) (hl : l.Sound s H) (hfree : H.FreeFrom next) (e : PooledVec) :
    ∃ H', l.Later s H next H' (l.vecOf e next).1.2 (l.vecOf e next).2 ∧
      ∀ v, (l.vecOf e next).1.1 = .ok v → ∃ h, Loads s (l.vecOf e next).1.2.built e h v := by
  obtain ⟨r, H', built', next', hrun, hbuilds, hv⟩ :=
    vecOfM_builds hs hl.ready hl.built hfree e
  rw [vecOf_eq hrun]
  exact ⟨H', ⟨hbuilds.grows, ⟨hl.ready.withBuilt built', hbuilds.after⟩, rfl, hbuilds.sub⟩, hv⟩

/-- The vector of the keys of an inner node and of a leaf is loaded, if no key names two nodes. -/
theorem Sound.vecOf_eq_ok (hs : s.Valid) (hl : l.Sound s H) (hfree : H.FreeFrom next)
    (hd : l.pool.Disjoint) {e : PooledVec} {branch : PooledBranch} {items : List α}
    (hroot : l.pool.inners.get? e.root = some branch)
    (htail : l.pool.leaves.get? e.tail = some items) :
    ∃ v h H' l' next', l.vecOf e next = ((.ok v, l'), next') ∧ l.Later s H next H' l' next' ∧
      Loads s l'.built e h v := by
  have hnot : l.pool.leaves.get? e.root = none := by
    by_contra hne
    obtain ⟨items', hitems⟩ := Option.ne_none_iff_exists'.mp hne
    rw [hd hitems] at hroot
    cases hroot
  obtain ⟨v, ⟨built', next'⟩, hrun⟩ := vecOfM_eq_ok hs hl.ready hl.built hfree hroot hnot htail
  obtain ⟨H', hlater, hloads⟩ := hl.vecOf hs hfree e
  rw [vecOf_eq hrun] at hlater hloads ⊢
  obtain ⟨h, hv⟩ := hloads v rfl
  exact ⟨v, h, H', _, next', rfl, hlater, hv⟩

/-! ### Vectors of the pool -/

lemma load_of_getElem? {i : Nat} {e : PooledVec} (hi : l.pool.vectors[i]? = some e) :
    l.load i next = l.vecOf e next := by
  rw [Loader.load, hi]

/-- Whatever position is asked for, a loader stays sound and only grows. -/
lemma Sound.load (hs : s.Valid) (hl : l.Sound s H) (hfree : H.FreeFrom next) (i : Nat) :
    ∃ H', l.Later s H next H' (l.load i next).1.2 (l.load i next).2 := by
  cases hi : l.pool.vectors[i]? with
  | none =>
      rw [Loader.load, hi]
      exact ⟨H, .refl hl hfree⟩
  | some e =>
      rw [load_of_getElem? hi]
      obtain ⟨H', hlater, -⟩ := hl.vecOf hs hfree e
      exact ⟨H', hlater⟩

/-- Every vector of a pool is loaded, if no key names two nodes. -/
theorem Sound.load_eq_ok (hs : s.Valid) (hl : l.Sound s H) (hfree : H.FreeFrom next)
    (hd : l.pool.Disjoint) {i : Nat} {e : PooledVec} (hi : l.pool.vectors[i]? = some e) :
    ∃ v h H' l' next', l.load i next = ((.ok v, l'), next') ∧ l.Later s H next H' l' next' ∧
      Loads s l'.built e h v := by
  have hmem := List.mem_of_getElem? hi
  obtain ⟨branch, hroot⟩ := hl.ready.root hmem
  obtain ⟨items, htail⟩ := hl.ready.tail hmem
  rw [load_of_getElem? hi]
  exact hl.vecOf_eq_ok hs hfree hd hroot htail

/-- Loads the vectors at some positions one after the other. -/
def loadAll (l : Loader α) : List Nat → Fresh (List (Except Error (Vec α)) × Loader α)
  | [] => fun next => (([], l), next)
  | i :: is => fun next =>
    let ((r, l), next) := l.load i next
    let ((rs, l), next) := l.loadAll is next
    ((r :: rs, l), next)

/-- All vectors of a pool are loaded, in any order and any number of times, and stay what they are
when further ones are loaded. -/
theorem Sound.loadAll_eq_ok (hs : s.Valid) (hl : l.Sound s H) (hfree : H.FreeFrom next)
    (hd : l.pool.Disjoint) {is : List Nat} (his : ∀ i ∈ is, i < l.pool.vectors.length) :
    ∃ us H' l' next', l.loadAll is next = ((us.map .ok, l'), next') ∧
      l.Later s H next H' l' next' ∧
      List.Forall₂ (fun i u => ∃ e h, l.pool.vectors[i]? = some e ∧
        Loads s l'.built e h u) is us := by
  induction is generalizing l H next with
  | nil => exact ⟨[], H, l, next, rfl, .refl hl hfree, .nil⟩
  | cons i is ih =>
      obtain ⟨hi, his⟩ := List.forall_mem_cons.mp his
      obtain ⟨v, h, H₁, l₁, next₁, hload, hlater₁, hv⟩ :=
        hl.load_eq_ok hs hfree hd (List.getElem?_eq_getElem hi)
      have hpool := hlater₁.pool
      obtain ⟨us, H₂, l₂, next₂, hall, hlater₂, hus⟩ := ih hlater₁.sound hlater₁.grows.free
        (hpool ▸ hd) (fun j hj => hpool ▸ his j hj)
      refine ⟨v :: us, H₂, l₂, next₂, ?_, hlater₁.trans hlater₂, .cons ?_ (hpool ▸ hus)⟩
      · simp only [loadAll, hload, hall, List.map_cons]
      · exact ⟨_, h, List.getElem?_eq_getElem hi, hv.mono hlater₂.sub⟩

/-! ### Loaders in use -/

/-- The states of a loader in use, each with the next unused identity: any keys and any positions
may have been asked for, and identities drawn elsewhere. -/
inductive Calls (l : Loader α) (start : NodeId) : Loader α → NodeId → Prop where
  | start : Calls l start l start
  | elsewhere {l' : Loader α} {next next' : NodeId} (calls : Calls l start l' next)
      (le : next ≤ next') : Calls l start l' next'
  | vecOf {l' : Loader α} {next : NodeId} (calls : Calls l start l' next) (e : PooledVec) :
      Calls l start (l'.vecOf e next).1.2 (l'.vecOf e next).2
  | load {l' : Loader α} {next : NodeId} (calls : Calls l start l' next) (i : Nat) :
      Calls l start (l'.load i next).1.2 (l'.load i next).2

/-- A sound loader stays sound in use. -/
lemma Sound.calls (hs : s.Valid) {start : NodeId} (hl : l.Sound s H) (hfree : H.FreeFrom start)
    (hcalls : Calls l start l' next) : ∃ H', l.Later s H start H' l' next := by
  induction hcalls with
  | start => exact ⟨H, .refl hl hfree⟩
  | elsewhere _ hle ih =>
      obtain ⟨H', hlater⟩ := ih
      exact ⟨H', ⟨hlater.grows.keep, hlater.grows.le.trans hle,
        fun i hi => hlater.grows.free i (hle.trans hi)⟩, hlater.sound, hlater.pool, hlater.sub⟩
  | vecOf _ e ih =>
      obtain ⟨H', hlater⟩ := ih
      obtain ⟨H'', hlater', -⟩ := hlater.sound.vecOf hs hlater.grows.free e
      exact ⟨H'', hlater.trans hlater'⟩
  | load _ i ih =>
      obtain ⟨H', hlater⟩ := ih
      obtain ⟨H'', hlater'⟩ := hlater.sound.load hs hlater.grows.free i
      exact ⟨H'', hlater.trans hlater'⟩

/-- The nodes of a loaded vector are built. -/
lemma Loads.exists_key (hl : l.Sound s H) {e : PooledVec} {h : Nat} {v : Vec α}
    (hv : Loads s l.built e h v) {n : Node α} (hn : n ∈ v.nodes) :
    ∃ k, l.built.get? k = some n := by
  rw [Vec.nodes, List.mem_append, List.mem_singleton] at hn
  rcases hn with hn | rfl
  · exact hl.built.exists_key hv.root hn
  · exact ⟨e.tail, hv.tail⟩

/-- From a document that is accepted every vector can be loaded at any time. Its elements are those
that the pool has below the key of the root, from left to right, and those of the leaf of the tail;
its level is that of the height of the root; and its tree is the one that the key of the root stands
for, so that each inner node was made from an entry: if this is relaxed, the node has a table, which
says where its children end, and else it has none. -/
theorem load_ofJson (hs : s.Valid) {read? : Json → Option α} {name name' : String} {j : Json}
    {p : Pool α} {start : NodeId} (hp : Pool.ofJson read? name s j = .ok p)
    (hl : ofPool s name' p = .ok l) (hcalls : Calls l start l' next) {i : Nat}
    (hi : i < p.vectors.length) :
    ∃ e v l'' next', p.vectors[i]? = some e ∧ l'.load i next = ((.ok v, l''), next') ∧
      ∃ h xs ys, (∀ h', p.Height e.root h' ↔ h' = h) ∧ (∀ zs, p.Contents e.root zs ↔ zs = xs) ∧
        (∀ zs, p.Contents e.tail zs ↔ zs = ys) ∧ v.toList = xs ++ ys ∧
        (xs.length + ys.length < Word.count → v.len = xs.length + ys.length) ∧
        v.shift = s.leafBits + s.bits * (h - 1) ∧ p.Unfolds e.root v.root.node ∧
        ∀ id cs sizes, Node.inner id cs sizes ∈ v.nodes → ∃ k e, p.inners.get? k = some e ∧
          sizes = if e.relaxed then some (ends 0 (cs.map Node.count)) else none := by
  obtain ⟨hshape, hdisjoint, -⟩ := Pool.ofJson_eq_ok hp
  have hpool : l.pool = p := by
    obtain ⟨-, -, -, plan, -, rfl⟩ := ofPool_eq_ok_iff.mp hl
    rfl
  obtain ⟨H, hlater⟩ := (Sound.ofPool hl fun _ => none).calls hs (fun _ _ => rfl) hcalls
  have hpool' : l'.pool = p := hlater.pool.trans hpool
  obtain ⟨e, he⟩ : ∃ e, p.vectors[i]? = some e := ⟨_, List.getElem?_eq_getElem hi⟩
  obtain ⟨v, h, H', l'', next', hload, hlater', hv⟩ :=
    hlater.sound.load_eq_ok hs hlater.grows.free (hpool' ▸ hdisjoint) (hpool' ▸ he)
  have hb : p.Built l''.plan H' l''.built :=
    hpool' ▸ hlater'.pool ▸ hlater'.sound.built
  have hheight : p.Height e.root (h + 1) := hb.height hv.root (hshape ▸ hv.sound)
  have hroot : p.Contents e.root v.root.node.elements := hb.contents hv.root
  have htail : p.Contents e.tail v.tail.items := by
    have htail := hb.contents hv.tail
    rwa [Node.elements] at htail
  refine ⟨e, v, l'', next', he, hload, h + 1, v.root.node.elements, v.tail.items,
    ?_, ?_, ?_, ?_, ?_, hv.shift, hb.unfolds hv.root, ?_⟩
  · exact fun h' => ⟨fun hh => hh.unique hdisjoint hheight, fun heq => heq ▸ hheight⟩
  · exact fun zs => ⟨fun hz => hz.unique hdisjoint hroot, fun heq => heq ▸ hroot⟩
  · exact fun zs => ⟨fun hz => hz.unique hdisjoint htail, fun heq => heq ▸ htail⟩
  · rw [Vec.toList, Branch.elements_node]
  · intro hlt
    rw [hv.len]
    exact Word.add_eq hlt
  · intro id cs sizes hmem
    obtain ⟨k, hk⟩ := hv.exists_key hlater'.sound hmem
    obtain ⟨-, e, he, -, hsizes⟩ := hb.made hk
    exact ⟨k, e, he, hsizes⟩

/-- A relaxed node over one leaf that is both the only child and the tail. -/
theorem load_ofJson_sharedTail :
    let j : Json := .arr [.nat 1, .nat 1, .arr [.arr [.nat 0, .arr [.arr [.nat 1], .bool true]]],
      .arr [.arr [.nat 1, .arr [.bool true]]], .arr [.arr [.nat 0, .nat 1]]]
    ∃ p l, Pool.ofJson Json.bool? "pool" ⟨1, 1⟩ j = .ok p ∧ ofPool ⟨1, 1⟩ "pool" p = .ok l ∧
      ∃ e v l' next', p.vectors[0]? = some e ∧ l.load 0 0 = ((.ok v, l'), next') ∧
        ∃ h xs ys, (∀ h', p.Height e.root h' ↔ h' = h) ∧
          (∀ zs, p.Contents e.root zs ↔ zs = xs) ∧ (∀ zs, p.Contents e.tail zs ↔ zs = ys) ∧
          v.toList = xs ++ ys ∧
          (xs.length + ys.length < Word.count → v.len = xs.length + ys.length) ∧
          v.shift = 1 + 1 * (h - 1) ∧ v.root.sizes = some [1] ∧ p.Unfolds e.root v.root.node ∧
          ∀ id cs sizes, Node.inner id cs sizes ∈ v.nodes → ∃ k e, p.inners.get? k = some e ∧
            sizes = if e.relaxed then some (ends 0 (cs.map Node.count)) else none := by
  intro j
  have hs : Shape.Valid ⟨1, 1⟩ := by decide
  obtain ⟨p, l, hp, hl, hi, v₁, hv₁, hsizes⟩ :
      ∃ p l, Pool.ofJson Json.bool? "pool" ⟨1, 1⟩ j = .ok p ∧ ofPool ⟨1, 1⟩ "pool" p = .ok l ∧
        0 < p.vectors.length ∧ ∃ v, (l.load 0 0).1.1 = .ok v ∧ v.root.sizes = some [1] :=
    ⟨_, _, rfl, rfl, Nat.zero_lt_one, _, rfl, rfl⟩
  obtain ⟨e, v, l', next', he, hload, h, xs, ys, hheight, hxs, hys, hlist, hlen, hshift, hroot,
    htables⟩ := load_ofJson hs hp hl (@Calls.start Bool l 0) hi
  rw [hload] at hv₁
  obtain rfl := Except.ok.inj hv₁
  exact ⟨p, l, hp, hl, e, v, l', next', he, hload, h, xs, ys, hheight, hxs, hys, hlist,
    hlen, hshift, hsizes, hroot, htables⟩

end Loader

end RadixPool
