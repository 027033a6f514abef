import Mathlib
import RadixPool.Pool.Loader
import RadixPool.Proofs.Pool.Check
import RadixPool.Proofs.Vec.Sound

/-!
What a loader builds.

The nodes that a loader keeps are made as the entries of the pool say, out of nodes that it keeps
as well, and agree with the plan: this is the invariant `Pool.Built`. Building a node whose height
is in the plan succeeds, since heights decrease downwards and are less than the number of levels
allowed; it only adds to what is kept, and draws the identities of new nodes from the supply.

* `Loader.Ready`: loaders of accepted pools; `Loader.ofPool_eq_ok_iff`, `Loader.ofPool_of_fits`: the
  pools that are accepted; `Loader.isReadError_of_ofPool`: the others are refused with read errors.
* `Pool.Reaches`: the keys that are met on the way down from a key.
* `Pool.Made`, `Pool.Built`, `Pool.Builds`: the nodes built from a pool, and what building does.
* `Loader.node_eq_ok`: a key that is in the plan gets its node.
* `Pool.Built.contents`, `Pool.Built.height`: a node has the elements and the height of its key.
* `Pool.Unfolds`, `Pool.Built.unfolds`: the tree that a key stands for, which is what is built for
  it.
-/

namespace RadixPool

variable {α : Type} {s : Shape}

/-! ### Accepted pools -/

/-- Loaders of accepted pools: the pool has passed the check, the plan fits it and rates all inner
nodes, and the vectors have roots and tails of the right kind. -/
structure Loader.Ready (s : Shape) (l : Loader α) : Prop where
  shape : l.pool.shape = s
  checked : l.pool.Checked
  fits : l.pool.Fits l.plan.get?
  rated : ∀ {k e}, l.pool.inners.get? k = some e → ∃ info, l.plan.get? k = some info
  root : ∀ {v}, v ∈ l.pool.vectors → ∃ e, l.pool.inners.get? v.root = some e
  tail : ∀ {v}, v ∈ l.pool.vectors → ∃ items, l.pool.leaves.get? v.tail = some items

namespace Loader

/-- A pool is accepted exactly if its shape is the expected one, it passes the check, it has a plan,
and its vectors have roots and tails of the right kind. -/
theorem ofPool_eq_ok_iff {name : String} {p : Pool α} {l : Loader α} :
    ofPool s name p = .ok l ↔
      p.shape = s ∧ p.Checked ∧ (∀ v ∈ p.vectors, p.checkKinds name v = .ok ()) ∧
        ∃ plan, p.plan name = .ok plan ∧ l = ⟨name, p, plan, ∅⟩ := by
  rw [ofPool]
  split
  · next hne => exact ⟨(fun h => nomatch h), fun h => absurd h.1 hne⟩
  next heq =>
  rw [← @Pool.check_eq_ok_iff α name, ← forM_eq_ok_iff]
  cases p.check name with
  | error e => exact ⟨(fun h => nomatch h), fun h => nomatch h.2.1⟩
  | ok u =>
      cases p.plan name with
      | error e => exact ⟨(fun h => nomatch h), fun ⟨_, _, _, _, h, _⟩ => nomatch h⟩
      | ok plan =>
          simp only [bind, Except.bind]
          cases p.vectors.forM (p.checkKinds name) with
          | error e => exact ⟨(fun h => nomatch h), fun h => nomatch h.2.2.1⟩
          | ok u =>
              constructor
              · intro h
                exact ⟨not_not.mp heq, trivial, rfl, plan, rfl, (Except.ok.inj h).symm⟩
              · rintro ⟨-, -, -, plan', hplan, rfl⟩
                rw [Except.ok.inj hplan]
                rfl

/-- A pool that passes the check, with roots and tails of the right kind, is accepted if there is a
rating of all its nodes that fits. -/
theorem ofPool_of_fits {p : Pool α} {look : Rating} (hshape : p.shape = s) (hchecked : p.Checked)
    (hroot : ∀ {v}, v ∈ p.vectors → ∃ e, p.inners.get? v.root = some e)
    (htail : ∀ {v}, v ∈ p.vectors → ∃ items, p.leaves.get? v.tail = some items)
    (hf : p.Fits look) (hrated : ∀ {k e}, p.inners.get? k = some e → ∃ info, look k = some info)
    (name : String) : ∃ plan, ofPool s name p = .ok ⟨name, p, plan, ∅⟩ := by
  obtain ⟨plan, hplan, -⟩ : ∃ plan, p.plan name = .ok plan ∧ _ := Pool.exists_plan hf hrated
  have hkinds : ∀ v ∈ p.vectors, p.checkKinds name v = .ok () := fun v hv =>
    Pool.checkKinds_eq_ok_iff.mpr ⟨hroot hv, htail hv⟩
  exact ⟨plan, ofPool_eq_ok_iff.mpr ⟨hshape, hchecked, hkinds, plan, hplan, rfl⟩⟩

/-- A pool that is not accepted is refused with a read error. -/
theorem isReadError_of_ofPool {name : String} {p : Pool α} {e : Error}
    (he : ofPool s name p = .error e) : e.isReadError = true := by
  have h : FailsOnlyWith (·.isReadError = true) (ofPool s name p) := by
    rw [ofPool]
    split
    · exact .error rfl
    · exact Pool.readErrors_check.bind fun _ => Pool.readErrors_plan.bind fun _ =>
        (FailsOnlyWith.forM Pool.readErrors_checkKinds _).bind fun _ => .ok _
  exact h e he

/-- The loader of an accepted pool is ready. -/
theorem ready_of_ofPool {name : String} {p : Pool α} {l : Loader α}
    (hl : ofPool s name p = .ok l) : l.Ready s := by
  obtain ⟨hshape, hchecked, hkinds, plan, hplan, rfl⟩ := ofPool_eq_ok_iff.mp hl
  obtain ⟨hfits, hrated⟩ := Pool.fits_of_plan hplan
  exact ⟨hshape, hchecked, hfits, hrated, fun hv => (Pool.checkKinds_eq_ok_iff.mp (hkinds _ hv)).1,
    fun hv => (Pool.checkKinds_eq_ok_iff.mp (hkinds _ hv)).2⟩

/-- What is built does not matter for being ready. -/
lemma Ready.withBuilt {l : Loader α} (hl : l.Ready s) (built : KeyMap (Node α)) :
    Ready s { l with built } :=
  ⟨hl.shape, hl.checked, hl.fits, hl.rated, hl.root, hl.tail⟩

/-- Heights in a plan are less than the number of levels allowed. -/
lemma Ready.height_lt {l : Loader α} (hs : s.Valid) (hl : l.Ready s) {k : Key} {info : NodeInfo}
    (hk : l.plan.get? k = some info) : info.height < maxLevels := by
  rcases hl.fits.cases hk with ⟨items, -, rfl⟩ | ⟨-, e, h, ns, -, hm, rfl⟩
  · exact Nat.zero_lt_succ _
  · have hlt := (Shape.lt_level hs h).trans (hl.shape ▸ hm.level)
    exact Nat.succ_lt_succ hlt

/-! ### Size tables -/

lemma sizeTable_eq {l : Loader α} {h before : Nat} {ks : List Key} {ns : List Nat}
    (hks : ks.map l.plan.get? = ns.map fun n => some ⟨h, n⟩) (hlt : before + ns.sum < Word.count) :
    l.sizeTable before ks = .ok (ends before ns) := by
  induction ks generalizing before ns with
  | nil =>
      obtain rfl : ns = [] := by simpa using hks.symm
      rfl
  | cons k ks ih =>
      cases ns with
      | nil => cases hks
      | cons n ns =>
          rw [List.map_cons, List.map_cons, List.cons.injEq] at hks
          rw [List.sum_cons] at hlt
          have hinfo : l.info k = .ok ⟨h, n⟩ := by rw [info, hks.1]
          have hadd : Word.add before n = before + n := Word.add_eq (by omega)
          have htable : l.sizeTable (before + n) ks = .ok (ends (before + n) ns) :=
            ih hks.2 (by omega)
          rw [sizeTable, hinfo]
          simp only [bind, Except.bind, hadd, htable]
          rfl

/-- The table of a relaxed node says where its children end. -/
lemma sizesOf_eq {l : Loader α} {e : PooledBranch} {h : Nat} {ns : List Nat}
    (hm : Measured l.pool.shape l.plan.get? e h ns) :
    l.sizesOf e = .ok (if e.relaxed then some (ends 0 ns) else none) := by
  rw [sizesOf]
  split
  · rw [sizeTable_eq hm.children (by rw [Nat.zero_add]; exact hm.fits)]
    rfl
  · rfl

end Loader

/-! ### The nodes built from a pool -/

namespace Pool

/-- The keys that are met on the way down from a key. -/
inductive Reaches (p : Pool α) : Key → Key → Prop where
  | refl (k : Key) : Reaches p k k
  | step {k c q : Key} {e : PooledBranch} (leaf : p.leaves.get? k = none)
      (entry : p.inners.get? k = some e) (child : c ∈ e.children) (rest : Reaches p c q) :
      Reaches p k q

lemma Reaches.trans {p : Pool α} {k q r : Key} (h : p.Reaches k q) (h' : p.Reaches q r) :
    p.Reaches k r := by
  induction h with
  | refl => exact h'
  | step leaf entry child _ ih => exact .step leaf entry child (ih h')

/-- Under a rating that fits, heights do not increase on the way down. -/
lemma Reaches.height_le {p : Pool α} {look : Rating} (hf : p.Fits look) {k q : Key}
    (h : p.Reaches k q) {info : NodeInfo} (hk : look k = some info) :
    ∃ i, look q = some i ∧ i.height ≤ info.height := by
  induction h generalizing info with
  | refl => exact ⟨info, hk, le_rfl⟩
  | step leaf entry child _ ih =>
      obtain ⟨e, h, ns, he, hm, rfl⟩ := hf.inner hk leaf
      obtain rfl := Option.some.inj (entry.symm.trans he)
      obtain ⟨n, -, hc⟩ := hm.exists_of_mem child
      obtain ⟨i, hi, hle⟩ := ih hc
      exact ⟨i, hi, hle.trans (Nat.le_succ h)⟩

/-- A node is made as the entry of a key says, out of nodes that were built. -/
def Made (p : Pool α) (built : KeyMap (Node α)) (k : Key) : Node α → Prop
  | .leaf l => p.leaves.get? k = some l.items
  | .inner _ cs sizes =>
    p.leaves.get? k = none ∧ ∃ e, p.inners.get? k = some e ∧
      e.children.map built.get? = cs.map some ∧
      sizes = if e.relaxed then some (ends 0 (cs.map Node.count)) else none

/-- The nodes built from a pool: they are known, made as the pool says and rated as the plan says,
and different keys have different nodes. -/
structure Built (p : Pool α) (plan : Plan) (H : Heap α) (built : KeyMap (Node α)) : Prop where
  known : ∀ {k n}, built.get? k = some n → n.Known H
  made : ∀ {k n}, built.get? k = some n → p.Made built k n
  rated : ∀ {k n}, built.get? k = some n →
    ∃ info, plan.get? k = some info ∧ n.Sound p.shape info.height ∧ n.count = info.size
  inj : ∀ {k k' n n'}, built.get? k = some n → built.get? k' = some n' → n.id = n'.id → k = k'

/-- What building the nodes of some keys does: it adds to what was built, with new identities, and
nothing that the keys do not reach. -/
structure Builds (p : Pool α) (plan : Plan) (ks : List Key) (H : Heap α) (built : KeyMap (Node α))
    (next : NodeId) (H' : Heap α) (built' : KeyMap (Node α)) (next' : NodeId) : Prop where
  grows : H.Grows next H' next'
  after : p.Built plan H' built'
  sub : built.Sub built'
  new : ∀ {q n}, built'.get? q = some n → built.get? q = some n ∨ ∃ k ∈ ks, p.Reaches k q

variable {p : Pool α} {plan : Plan} {H H' H'' : Heap α} {built built' built'' : KeyMap (Node α)}
  {next next' next'' : NodeId}

lemma Builds.refl (hb : p.Built plan H built) (hfree : H.FreeFrom next) (ks : List Key) :
    p.Builds plan ks H built next H built next := ⟨.refl hfree, hb, .refl _, .inl⟩

lemma Builds.trans {ks ks' ks'' : List Key} (h : p.Builds plan ks H built next H' built' next')
    (h' : p.Builds plan ks' H' built' next' H'' built'' next'')
    (hks : ∀ k ∈ ks ++ ks', ∃ k' ∈ ks'', p.Reaches k' k) :
    p.Builds plan ks'' H built next H'' built'' next'' := by
  refine ⟨h.grows.trans h'.grows, h'.after, h.sub.trans h'.sub, fun {q n} hq => ?_⟩
  have hfrom : ∀ k ∈ ks ++ ks', p.Reaches k q → ∃ k' ∈ ks'', p.Reaches k' q := by
    intro k hk hkq
    obtain ⟨k', hk', hreach⟩ := hks k hk
    exact ⟨k', hk', hreach.trans hkq⟩
  rcases h'.new hq with hq | ⟨k, hk, hkq⟩
  · rcases h.new hq with hq | ⟨k, hk, hkq⟩
    · exact .inl hq
    · exact .inr (hfrom k (List.mem_append_left _ hk) hkq)
  · exact .inr (hfrom k (List.mem_append_right _ hk) hkq)

/-- Fewer keys can have been asked for. -/
lemma Builds.weaken {ks ks' : List Key} (h : p.Builds plan ks H built next H' built' next')
    (hks : ∀ k ∈ ks, k ∈ ks') : p.Builds plan ks' H built next H' built' next' := by
  refine ⟨h.grows, h.after, h.sub, fun {q n} hq => ?_⟩
  rcases h.new hq with hold | ⟨k, hk, hreach⟩
  · exact .inl hold
  · exact .inr ⟨k, hks k hk, hreach⟩

/-- Nothing is built in the beginning. -/
lemma Built.empty : p.Built plan H ∅ :=
  ⟨fun h => by simp at h, fun h => by simp at h, fun h => by simp at h, fun h => by simp at h⟩

/-- What is built stays so in a larger heap. -/
lemma Built.mono (hb : p.Built plan H built) (hg : H.Grows next H' next') :
    p.Built plan H' built :=
  ⟨fun hk => hg.known (hb.known hk), hb.made, hb.rated, hb.inj⟩

lemma Made.mono {k : Key} {n : Node α} (hn : p.Made built k n) (hsub : built.Sub built') :
    p.Made built' k n := by
  cases n with
  | leaf l => exact hn
  | inner id cs sizes =>
      obtain ⟨hleaf, e, he, hcs, hsizes⟩ := hn
      exact ⟨hleaf, e, he, hsub.map_get? hcs, hsizes⟩

/-- A new node is built under a new key. -/
lemma Built.insert (hb : p.Built plan H built) (hfree : H.FreeFrom next) {k : Key} {n : Node α}
    (hk : built.get? k = none) (hg : H.Grows next H' (next + 1)) (hid : n.id = next)
    (hknown : n.Known H') (hmade : p.Made built k n)
    (hrated : ∃ info, plan.get? k = some info ∧ n.Sound p.shape info.height ∧
      n.count = info.size) :
    p.Builds plan [k] H built next H' (built.insert k n) (next + 1) := by
  have hsub : built.Sub (built.insert k n) := .insert n hk
  have hold : ∀ {k' n'}, built.get? k' = some n' → n'.id ≠ next := by
    intro k' n' hk'
    exact Nat.ne_of_lt (Heap.lt_of_eq_some hfree (hb.known hk' n' (Node.mem_nodes_self n')))
  -- every key of the larger map is an old one or the new one
  have hcases : ∀ {k' n'}, (built.insert k n).get? k' = some n' →
      k' = k ∧ n' = n ∨ built.get? k' = some n' := by
    intro k' n' hk'
    rw [KeyMap.get?_insert] at hk'
    split at hk'
    · next heq => exact .inl ⟨heq, (Option.some.inj hk').symm⟩
    · exact .inr hk'
  refine ⟨hg, ⟨fun hk' => ?_, fun hk' => ?_, fun hk' => ?_, fun hk₁ hk₂ heq => ?_⟩, hsub,
    fun hk' => ?_⟩
  · rcases hcases hk' with ⟨-, rfl⟩ | hk'
    · exact hknown
    · exact hg.known (hb.known hk')
  · rcases hcases hk' with ⟨rfl, rfl⟩ | hk'
    · exact hmade.mono hsub
    · exact (hb.made hk').mono hsub
  · rcases hcases hk' with ⟨rfl, rfl⟩ | hk'
    · exact hrated
    · exact hb.rated hk'
  · rcases hcases hk₁ with ⟨h₁, hn₁⟩ | h₁ <;> rcases hcases hk₂ with ⟨h₂, hn₂⟩ | h₂
    · rw [h₁, h₂]
    · exact absurd (heq.symm.trans (hn₁ ▸ hid)) (hold h₂)
    · exact absurd (heq.trans (hn₂ ▸ hid)) (hold h₁)
    · exact hb.inj h₁ h₂ heq
  · rcases hcases hk' with ⟨rfl, -⟩ | hk'
    · exact .inr ⟨_, List.mem_singleton_self _, .refl _⟩
    · exact .inl hk'

/-- The children of a measured entry, once built, have the counts and the height that the plan has
for them. -/
lemma Built.below (hb : p.Built plan H built) {h : Nat} {ks : List Key} {ns : List Nat}
    {cs : List (Node α)} (hks : ks.map plan.get? = ns.map fun n => some ⟨h, n⟩)
    (hcs : ks.map built.get? = cs.map some) :
    cs.map Node.count = ns ∧ ∀ c ∈ cs, c.Sound p.shape h := by
  induction ks generalizing ns cs with
  | nil =>
      obtain rfl : ns = [] := by simpa using hks.symm
      obtain rfl : cs = [] := by simpa using hcs.symm
      exact ⟨rfl, fun _ hc => nomatch hc⟩
  | cons k ks ih =>
      cases ns with
      | nil => cases hks
      | cons n ns =>
          cases cs with
          | nil => cases hcs
          | cons c cs =>
              rw [List.map_cons, List.map_cons, List.cons.injEq] at hks hcs
              obtain ⟨info, hinfo, hsound, hcount⟩ := hb.rated hcs.1
              obtain rfl := Option.some.inj (hinfo.symm.trans hks.1)
              obtain ⟨hcounts, hbelow⟩ := ih hks.2 hcs.2
              refine ⟨by rw [List.map_cons, hcounts, hcount], fun d hd => ?_⟩
              rcases List.mem_cons.mp hd with rfl | hd
              · exact hsound
              · exact hbelow d hd

/-- Nodes that were built are known. -/
lemma Built.known_of_map (hb : p.Built plan H built) {ks : List Key} {cs : List (Node α)}
    (hcs : ks.map built.get? = cs.map some) : ∀ c ∈ cs, c.Known H := by
  intro c hc
  have hmem : some c ∈ ks.map built.get? := hcs ▸ List.mem_map_of_mem hc
  obtain ⟨k, -, hk⟩ := List.mem_map.mp hmem
  exact hb.known hk

/-- The key of an inner node is not among those below it, which are less high. -/
lemma Builds.get?_eq_none (hf : p.Fits plan.get?) {k : Key} {e : PooledBranch} {h n : Nat}
    {ns : List Nat} (hm : Measured p.shape plan.get? e h ns) (hk : plan.get? k = some ⟨h + 1, n⟩)
    (hbuilds : p.Builds plan e.children H built next H' built' next')
    (hnew : built.get? k = none) : built'.get? k = none := by
  by_contra hne
  obtain ⟨m, hm'⟩ := Option.ne_none_iff_exists'.mp hne
  rcases hbuilds.new hm' with hold | ⟨c, hc, hreach⟩
  · rw [hnew] at hold
    cases hold
  · obtain ⟨n', -, hc'⟩ := hm.exists_of_mem hc
    obtain ⟨i, hi, hle⟩ := hreach.height_le hf hc'
    obtain rfl := Option.some.inj (hk.symm.trans hi)
    exact Nat.not_succ_le_self h hle

/-- The node of a measured entry over children that were built. -/
lemma Built.sound_inner (hb : p.Built plan H built) (hs : p.shape.Valid) (hp : p.Checked) {k : Key}
    {e : PooledBranch} (he : p.inners.get? k = some e) {h : Nat} {ns : List Nat}
    (hm : Measured p.shape plan.get? e h ns) {cs : List (Node α)}
    (hcs : e.children.map built.get? = cs.map some) (id : NodeId) :
    (Node.inner id cs (if e.relaxed then some (ends 0 ns) else none)).Sound p.shape (h + 1) := by
  obtain ⟨hcounts, hbelow⟩ := hb.below hm.children hcs
  have hlength : cs.length = e.children.length := by
    simpa using (congrArg List.length hcs).symm
  refine .inner ?_ (fun hnil => hm.flat ?_) hbelow ?_
  · rw [hlength, ← Shape.fanout_eq hs]
    exact hp.width he
  · rw [← List.length_eq_zero_iff, ← hlength, hnil, List.length_nil]
  · rw [hcounts]
    cases hrel : e.relaxed with
    | true => exact rfl
    | false => exact ⟨hm.level, hm.full hrel⟩

/-! ### What the nodes are for -/

/-- A node has the elements that its key has in the pool. -/
theorem Built.contents (hb : p.Built plan H built) {k : Key} {n : Node α}
    (hk : built.get? k = some n) : p.Contents k n.elements := by
  induction n using Node.induct generalizing k with
  | leaf l =>
      rw [Node.elements]
      exact .leaf (hb.made hk)
  | inner id cs sizes ih =>
      obtain ⟨-, e, he, hcs, -⟩ := hb.made hk
      rw [Node.elements]
      refine .inner he ?_
      clear he hk
      generalize e.children = ks at hcs
      induction cs generalizing ks with
      | nil =>
          obtain rfl : ks = [] := by simpa using hcs
          exact .nil
      | cons c cs ihcs =>
          cases ks with
          | nil => cases hcs
          | cons k ks =>
              rw [List.map_cons, List.map_cons, List.cons.injEq] at hcs
              exact .cons (ih c List.mem_cons_self hcs.1)
                (ihcs (fun d hd => ih d (List.mem_cons_of_mem c hd)) ks hcs.2)

/-- The tree that a key stands for: the entries of a pool say what its leaves hold and which trees
stand below its inner nodes. An inner node with a relaxed entry has the table that says where the
children end, and no other one has a table. -/
inductive Unfolds (p : Pool α) : Key → Node α → Prop where
  | leaf {k : Key} {l : Leaf α} (entry : p.leaves.get? k = some l.items) : Unfolds p k (.leaf l)
  | inner {k : Key} {e : PooledBranch} {id : NodeId} {cs : List (Node α)}
      {sizes : Option (List Nat)} (entry : p.inners.get? k = some e)
      (below : List.Forall₂ (Unfolds p) e.children cs)
      (table : sizes = if e.relaxed then some (ends 0 (cs.map Node.count)) else none) :
      Unfolds p k (.inner id cs sizes)

/-- A node is the tree that its key stands for. -/
theorem Built.unfolds (hb : p.Built plan H built) {k : Key} {n : Node α}
    (hk : built.get? k = some n) : p.Unfolds k n := by
  induction n using Node.induct generalizing k with
  | leaf l => exact .leaf (hb.made hk)
  | inner id cs sizes ih =>
      obtain ⟨-, e, he, hcs, hsizes⟩ := hb.made hk
      rw [← List.forall₂_eq_eq_eq, List.forall₂_map_left_iff, List.forall₂_map_right_iff] at hcs
      refine .inner he (List.forall₂_iff_zip.mpr ⟨hcs.length_eq, fun {c n} hmem => ?_⟩) hsizes
      exact ih n (List.of_mem_zip hmem).2 ((List.forall₂_iff_zip.mp hcs).2 hmem)

/-- The nodes below a built node are built. -/
lemma Built.exists_key (hb : p.Built plan H built) {k : Key} {n m : Node α}
    (hk : built.get? k = some n) (hm : m ∈ n.nodes) : ∃ k', built.get? k' = some m := by
  induction n using Node.induct generalizing k with
  | leaf l =>
      rw [Node.nodes, List.mem_singleton] at hm
      exact ⟨k, hm ▸ hk⟩
  | inner id cs sizes ih =>
      rcases Node.mem_nodes_inner.mp hm with rfl | ⟨c, hc, hmc⟩
      · exact ⟨k, hk⟩
      · obtain ⟨-, e, -, hcs, -⟩ := hb.made hk
        have hmem : some c ∈ e.children.map built.get? := hcs ▸ List.mem_map_of_mem hc
        obtain ⟨k', -, hk'⟩ := List.mem_map.mp hmem
        exact ih c hc hk' hmc

/-- A node has the height that its key has in the pool. -/
theorem Built.height (hb : p.Built plan H built) {k : Key} {n : Node α} {h : Nat}
    (hk : built.get? k = some n) (hn : n.Sound p.shape h) : p.Height k h := by
  induction hn generalizing k with
  | leaf => exact .leaf (hb.made hk)
  | @inner h id cs sizes _ flat _ _ ih =>
      obtain ⟨-, e, he, hcs, -⟩ := hb.made hk
      refine .inner he (fun hnil => flat ?_) fun c hc => ?_
      · rw [hnil] at hcs
        simpa using hcs.symm
      · have hmem : built.get? c ∈ cs.map some := hcs ▸ List.mem_map_of_mem hc
        obtain ⟨d, hd, heq⟩ := List.mem_map.mp hmem
        exact ih d hd heq.symm

end Pool

/-! ### Building nodes -/

namespace Loader

variable {l : Loader α} {H : Heap α} {built built' : KeyMap (Node α)} {next next' : NodeId}

/-- What it takes to build the node of a key. -/
def make (l : Loader α) (levels : Nat) (k : Key) : Build α (Node α) :=
  match l.pool.leaves.get? k with
  | some items => build k fun id => .leaf ⟨id, items⟩
  | none =>
    match l.pool.inners.get? k with
    | none => throw (.dangling l.name (.node k))
    | some e => do
      let children ← e.children.mapM (node l levels)
      let sizes ← ExceptT.mk (pure (l.sizesOf e))
      build k fun id => .inner id children sizes

lemma node_succ (levels : Nat) (k : Key) :
    l.node (levels + 1) k (built, next) =
      (match built.get? k with
      | some n => pure n
      | none => l.make levels k : Build α (Node α)) (built, next) := rfl

lemma node_of_built {levels : Nat} {k : Key} {n : Node α} (hk : built.get? k = some n) :
    l.node (levels + 1) k (built, next) = (.ok n, built, next) := by
  rw [node_succ, hk]
  rfl

lemma make_leaf {levels : Nat} {k : Key} {items : List α}
    (hleaf : l.pool.leaves.get? k = some items) :
    l.make levels k (built, next) =
      (.ok (.leaf ⟨next, items⟩), built.insert k (.leaf ⟨next, items⟩), next + 1) := by
  rw [make, hleaf]
  rfl

lemma make_inner {levels : Nat} {k : Key} {e : PooledBranch} {cs : List (Node α)}
    {sizes : Option (List Nat)} (hleaf : l.pool.leaves.get? k = none)
    (he : l.pool.inners.get? k = some e)
    (hcs : e.children.mapM (l.node levels) (built, next) = (.ok cs, built', next'))
    (hsizes : l.sizesOf e = .ok sizes) :
    l.make levels k (built, next) =
      (.ok (.inner next' cs sizes), built'.insert k (.inner next' cs sizes), next' + 1) := by
  rw [make, hleaf]
  dsimp only
  rw [he]
  dsimp only
  rw [run_bind_of_ok hcs, hsizes]
  rfl

lemma node_unknown {levels : Nat} {k : Key} (hk : built.get? k = none)
    (hleaf : l.pool.leaves.get? k = none) (he : l.pool.inners.get? k = none) :
    l.node (levels + 1) k (built, next) = (.error (.dangling l.name (.node k)), built, next) := by
  rw [node_succ, hk]
  dsimp only
  rw [make, hleaf]
  dsimp only
  rw [he]
  rfl

/-- Nodes built one after the other are all there in the end. -/
lemma mapM_node_eq_ok {levels h : Nat}
    (hnode : ∀ {k n H built next}, l.plan.get? k = some ⟨h, n⟩ → l.pool.Built l.plan H built →
      H.FreeFrom next → ∃ c H' built' next',
        l.node levels k (built, next) = (.ok c, built', next') ∧
        l.pool.Builds l.plan [k] H built next H' built' next' ∧ built'.get? k = some c)
    {ks : List Key} {ns : List Nat} (hks : ks.map l.plan.get? = ns.map fun n => some ⟨h, n⟩)
    (hb : l.pool.Built l.plan H built) (hfree : H.FreeFrom next) :
    ∃ cs H' built' next', ks.mapM (l.node levels) (built, next) = (.ok cs, built', next') ∧
      l.pool.Builds l.plan ks H built next H' built' next' ∧ ks.map built'.get? = cs.map some := by
  induction ks generalizing ns H built next with
  | nil => exact ⟨[], H, built, next, rfl, .refl hb hfree [], rfl⟩
  | cons k ks ih =>
      cases ns with
      | nil => cases hks
      | cons n ns =>
          rw [List.map_cons, List.map_cons, List.cons.injEq] at hks
          obtain ⟨c, H₁, built₁, next₁, hrun₁, hbuilds₁, hc⟩ := hnode hks.1 hb hfree
          obtain ⟨cs, H₂, built₂, next₂, hrun₂, hbuilds₂, hcs⟩ :=
            ih hks.2 hbuilds₁.after hbuilds₁.grows.free
          refine ⟨c :: cs, H₂, built₂, next₂, run_mapM_cons_of_ok hrun₁ hrun₂,
            hbuilds₁.trans hbuilds₂ fun q hq => ⟨q, hq, .refl q⟩, ?_⟩
          rw [List.map_cons, List.map_cons, hcs, hbuilds₂.sub k c hc]

/-- A key that is in the plan gets its node. -/
theorem node_eq_ok (hs : s.Valid) (hl : l.Ready s) {levels : Nat} {k : Key} {info : NodeInfo}
    (hk : l.plan.get? k = some info) (hlt : info.height < levels)
    (hb : l.pool.Built l.plan H built) (hfree : H.FreeFrom next) :
    ∃ n H' built' next', l.node levels k (built, next) = (.ok n, built', next') ∧
      l.pool.Builds l.plan [k] H built next H' built' next' ∧ built'.get? k = some n := by
  induction levels generalizing k info H built next with
  | zero => cases hlt
  | succ levels ih =>
      cases hstored : built.get? k with
      | some n => exact ⟨n, H, built, next, node_of_built hstored, .refl hb hfree [k], hstored⟩
      | none =>
          rw [node_succ, hstored]
          have hs' : l.pool.shape.Valid := hl.shape ▸ hs
          rcases hl.fits.cases hk with ⟨items, hleaf, rfl⟩ | ⟨hleaf, e, h, ns, he, hm, rfl⟩
          · obtain ⟨H₁, hg₁, hk₁⟩ := Heap.alloc_leaf hfree items
            have hfits : items.length ≤ 2 ^ l.pool.shape.leafBits :=
              Shape.leafCapacity_eq hs' ▸ hl.checked.leaf hleaf
            exact ⟨_, H₁, _, _, make_leaf hleaf, hb.insert hfree hstored hg₁ rfl hk₁ hleaf
              ⟨_, hk, .leaf hfits, Node.count_leaf _⟩, KeyMap.get?_insert_self _ _ _⟩
          · obtain ⟨cs, H₁, built₁, next₁, hrun, hbuilds, hcs⟩ := mapM_node_eq_ok
              (fun hk' hb' hfree' => ih hk' (Nat.lt_of_succ_lt_succ hlt) hb' hfree')
              hm.children hb hfree
            have hcounts := (hbuilds.after.below hm.children hcs).1
            have hsound := hbuilds.after.sound_inner hs' hl.checked he hm hcs next₁
            have hnew := hbuilds.get?_eq_none hl.fits hm hk hstored
            obtain ⟨H₂, hg₂, hk₂⟩ := Heap.alloc_inner hbuilds.grows.free cs
              (hbuilds.after.known_of_map hcs) (if e.relaxed then some (ends 0 ns) else none)
            have hinsert := hbuilds.after.insert hbuilds.grows.free hnew hg₂ rfl hk₂
              ⟨hleaf, e, he, hcs, by rw [hcounts]⟩
              ⟨_, hk, hsound, by rw [Node.count_inner, hcounts]⟩
            refine ⟨_, H₂, _, _, make_inner hleaf he hrun (sizesOf_eq hm),
              hbuilds.trans hinsert fun q hq => ⟨k, List.mem_singleton_self k, ?_⟩,
              KeyMap.get?_insert_self _ _ _⟩
            rcases List.mem_append.mp hq with hq | hq
            · exact .step hleaf he hq (.refl q)
            · rw [List.mem_singleton.mp hq]
              exact .refl k

end Loader

end RadixPool
