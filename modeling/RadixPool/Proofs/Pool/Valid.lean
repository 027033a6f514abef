import Mathlib
import RadixPool.Proofs.Pool.Document
import RadixPool.Proofs.Pool.Loader

/-!
Which pools are accepted.

What a loader wants of a pool is said here without reference to the order in which it looks at the
nodes. The search of the planner fits this: what it rates has the height and the elements that the
entries say, and where the entries are in order there is a rating for it to find, because a finite
relation without cycles can be followed downwards only so far.

* `Pool.Child`, `Pool.Acyclic`: the relation between a node and its children, and its lack of
  cycles.
* `Pool.Valid`: pools in order.
* `Pool.Weighs`: the height and the number of elements of a key.
* `Pool.visit_eq_of_lt`: the bound on the length of a path never ends a search.
* `Loader.exists_ofPool_iff`: a loader accepts exactly the pools in order.
-/

namespace RadixPool

variable {α : Type} {s : Shape}

namespace Measured

variable {look : Rating} {e : PooledBranch} {h : Nat} {ns : List Nat}

/-- All children but the last have all counts but the last. -/
lemma map_dropLast (hcs : e.children.map look = ns.map fun n => some ⟨h, n⟩) :
    e.children.dropLast.map look = ns.dropLast.map fun n => some ⟨h, n⟩ := by
  rw [List.map_dropLast, List.map_dropLast, hcs]

/-- Each child but the last is rated with a count that is not the last. -/
lemma exists_of_mem_dropLast (hm : Measured s look e h ns) {c : Key}
    (hc : c ∈ e.children.dropLast) : ∃ n ∈ ns.dropLast, look c = some ⟨h, n⟩ := by
  have hmem : look c ∈ ns.dropLast.map fun n => some (⟨h, n⟩ : NodeInfo) :=
    map_dropLast hm.children ▸ List.mem_map_of_mem hc
  obtain ⟨n, hn, heq⟩ := List.mem_map.mp hmem
  exact ⟨n, hn, heq.symm⟩

/-- Each count but the last is that of a child that is not the last. -/
lemma exists_child_of_mem_dropLast (hcs : e.children.map look = ns.map fun n => some ⟨h, n⟩)
    {n : Nat} (hn : n ∈ ns.dropLast) : ∃ c ∈ e.children.dropLast, look c = some ⟨h, n⟩ := by
  have hmem : some (⟨h, n⟩ : NodeInfo) ∈ e.children.dropLast.map look :=
    map_dropLast hcs ▸ List.mem_map_of_mem hn
  exact List.mem_map.mp hmem

end Measured

namespace Pool

variable {name : String} {p : Pool α} {look : Rating}

/-! ### Pools in order -/

/-- The second key is that of an inner node, and the first one is listed among its children. -/
def Child (p : Pool α) (c k : Key) : Prop := ∃ e, p.inners.get? k = some e ∧ c ∈ e.children

/-- No node lies below itself. -/
def Acyclic (p : Pool α) : Prop := ∀ k, ¬ Relation.TransGen p.Child k k

/-- Pools in order. Nothing is said of the vectors but that their roots are inner nodes and their
tails leaves: all nodes count, also those that no vector reaches. -/
structure Valid (p : Pool α) : Prop where
  /-- Leaves are not too large. -/
  leaf : ∀ {k items}, p.leaves.get? k = some items → items.length ≤ 2 ^ p.shape.leafBits
  /-- Inner nodes do not have too many children. -/
  width : ∀ {k e}, p.inners.get? k = some e → e.children.length ≤ 2 ^ p.shape.bits
  /-- Children exist. -/
  child : ∀ {c k}, p.Child c k → p.contains c = true
  acyclic : p.Acyclic
  /-- The children of a node have one height. -/
  even : ∀ {c c' k h h'}, p.Child c k → p.Child c' k → p.Height c h → p.Height c' h' → h = h'
  /-- All children of a regular node but the last are full. -/
  full : ∀ {k e c h xs}, p.inners.get? k = some e → e.relaxed = false → c ∈ e.children.dropLast →
    p.Height c h → p.Contents c xs → xs.length = 2 ^ (p.shape.bits * h + p.shape.leafBits)
  /-- The number of elements of a node is a word. -/
  count : ∀ {k xs}, p.Contents k xs → xs.length < Word.count
  /-- The level of an inner node addresses elements. -/
  level : ∀ {k e h}, p.inners.get? k = some e → p.Height k h →
    p.shape.leafBits + p.shape.bits * (h - 1) < Word.width
  root : ∀ {v}, v ∈ p.vectors → ∃ e, p.inners.get? v.root = some e
  tail : ∀ {v}, v ∈ p.vectors → ∃ items, p.leaves.get? v.tail = some items

/-- Height and number of elements of a key, read off the entries. -/
def Weighs (p : Pool α) (k : Key) (i : NodeInfo) : Prop :=
  p.Height k i.height ∧ ∃ xs, p.Contents k xs ∧ xs.length = i.size

lemma Weighs.unique (hp : p.Disjoint) {k : Key} {i i' : NodeInfo} (hi : p.Weighs k i)
    (hi' : p.Weighs k i') : i = i' := by
  obtain ⟨hh, xs, hxs, hsize⟩ := hi
  obtain ⟨hh', xs', hxs', hsize'⟩ := hi'
  rw [NodeInfo.mk.injEq, ← hsize, ← hsize', hxs.unique hp hxs']
  exact ⟨hh.unique hp hh', rfl⟩

/-! ### What is rated -/

/-- Keys that are rated with one height have elements one after the other. -/
lemma contentsAll_of_weighs {h : Nat} {ks : List Key} {ns : List Nat}
    (hks : ks.map look = ns.map fun n => some ⟨h, n⟩)
    (hw : ∀ k ∈ ks, ∀ i, look k = some i → p.Weighs k i) :
    ∃ xs, p.ContentsAll ks xs ∧ xs.length = ns.sum := by
  induction ks generalizing ns with
  | nil =>
      obtain rfl : ns = [] := by simpa using hks.symm
      exact ⟨[], .nil, rfl⟩
  | cons k ks ih =>
      cases ns with
      | nil => cases hks
      | cons n ns =>
          rw [List.map_cons, List.map_cons, List.cons.injEq] at hks
          obtain ⟨hk, hw⟩ := List.forall_mem_cons.mp hw
          obtain ⟨-, xs, hxs, hlen⟩ := hk _ hks.1
          obtain ⟨ys, hys, hsum⟩ := ih hks.2 hw
          refine ⟨xs ++ ys, .cons hxs hys, ?_⟩
          rw [List.length_append, hlen, hsum, List.sum_cons]

/-- A rating that fits says what the entries say. -/
theorem Fits.weighs (hf : p.Fits look) {k : Key} {i : NodeInfo} (hk : look k = some i) :
    p.Weighs k i := by
  induction hn : i.height using Nat.strong_induction_on generalizing k i with
  | _ n ih =>
    rcases hf.cases hk with ⟨items, hleaf, rfl⟩ | ⟨-, e, h, ns, he, hm, rfl⟩
    · exact ⟨.leaf hleaf, items, .leaf hleaf, rfl⟩
    · have hbelow : ∀ c ∈ e.children, ∀ j, look c = some j → p.Weighs c j := by
        intro c hc j hj
        obtain ⟨m, -, hcm⟩ := hm.exists_of_mem hc
        obtain rfl := Option.some.inj (hcm.symm.trans hj)
        exact ih h (hn ▸ Nat.lt_succ_self h) hj rfl
      obtain ⟨xs, hxs, hlen⟩ := contentsAll_of_weighs hm.children hbelow
      refine ⟨.inner he hm.flat fun c hc => ?_, xs, .inner he hxs, hlen⟩
      obtain ⟨m, -, hcm⟩ := hm.exists_of_mem hc
      exact (hbelow c hc _ hcm).1

section Rated

variable (hd : p.Disjoint) (hf : p.Fits look)
  (hall : ∀ {k e}, p.inners.get? k = some e → ∃ i, look k = some i)

include hd hf hall

/-- An inner node of a pool whose inner nodes are rated is measured. -/
lemma exists_measured {k : Key} {e : PooledBranch} (he : p.inners.get? k = some e) :
    ∃ h ns, Measured p.shape look e h ns ∧ look k = some ⟨h + 1, ns.sum⟩ := by
  obtain ⟨i, hi⟩ := hall he
  rcases hf.cases hi with ⟨items, hleaf, -⟩ | ⟨-, e', h, ns, he', hm, rfl⟩
  · rw [hd hleaf] at he
    cases he
  · obtain rfl := Option.some.inj (he.symm.trans he')
    exact ⟨h, ns, hm, hi⟩

/-- Heights decrease downwards, so no node is met below itself. -/
lemma acyclic_of_fits : p.Acyclic := by
  have hchild : ∀ {c k}, p.Child c k → ∀ i, look k = some i → ∃ j, look c = some j ∧
      j.height < i.height := by
    rintro c k ⟨e, he, hc⟩ i hi
    obtain ⟨h, ns, hm, hk⟩ := exists_measured hd hf hall he
    obtain rfl := Option.some.inj (hk.symm.trans hi)
    obtain ⟨n, -, hcn⟩ := hm.exists_of_mem hc
    exact ⟨_, hcn, Nat.lt_succ_self h⟩
  have hbelow : ∀ {c k}, Relation.TransGen p.Child c k → ∀ i, look k = some i →
      ∃ j, look c = some j ∧ j.height < i.height := by
    intro c k hck
    induction hck with
    | single hck => exact hchild hck
    | tail _ hstep ih =>
        intro i hi
        obtain ⟨j, hj, hlt⟩ := hchild hstep i hi
        obtain ⟨j', hj', hlt'⟩ := ih j hj
        exact ⟨j', hj', hlt'.trans hlt⟩
  intro k hk
  obtain ⟨k', -, e, he, -⟩ := Relation.TransGen.tail'_iff.mp hk
  obtain ⟨i, hi⟩ := hall he
  obtain ⟨j, hj, hlt⟩ := hbelow hk i hi
  rw [Option.some.inj (hi.symm.trans hj)] at hlt
  exact Nat.lt_irrefl _ hlt

/-- A rating of all nodes makes sure that heights and counts are in order. -/
theorem valid_of_fits (hs : p.shape.Valid) (hc : p.Checked)
    (hroot : ∀ {v}, v ∈ p.vectors → ∃ e, p.inners.get? v.root = some e)
    (htail : ∀ {v}, v ∈ p.vectors → ∃ items, p.leaves.get? v.tail = some items) : p.Valid where
  leaf hk := Shape.leafCapacity_eq hs ▸ hc.leaf hk
  width he := Shape.fanout_eq hs ▸ hc.width he
  child := fun ⟨_, he, hmem⟩ => hc.child he hmem
  acyclic := acyclic_of_fits hd hf hall
  even := by
    rintro c c' k h h' ⟨e, he, hmem⟩ ⟨e', he', hmem'⟩ hh hh'
    obtain rfl := Option.some.inj (he.symm.trans he')
    obtain ⟨g, ns, hm, -⟩ := exists_measured hd hf hall he
    obtain ⟨n, -, hn⟩ := hm.exists_of_mem hmem
    obtain ⟨n', -, hn'⟩ := hm.exists_of_mem hmem'
    exact (hh.unique hd (hf.weighs hn).1).trans ((hf.weighs hn').1.unique hd hh')
  full := by
    intro k e c h xs he hrel hmem hh hxs
    obtain ⟨g, ns, hm, -⟩ := exists_measured hd hf hall he
    obtain ⟨n, hn, hcn⟩ := hm.exists_of_mem_dropLast hmem
    obtain ⟨hg, ys, hys, hlen⟩ := hf.weighs hcn
    have hlevel : p.shape.bits * h + p.shape.leafBits = p.shape.level g := by
      rw [hh.unique hd hg, Shape.level, Nat.add_comm]
    rw [hxs.unique hd hys, hlen, hlevel]
    exact hm.full hrel n hn
  count := by
    intro k xs hxs
    cases hxs with
    | leaf hleaf =>
        have hlt : 2 ^ p.shape.leafBits < 2 ^ 64 := Nat.pow_lt_pow_right (by decide) hs.leafBits_lt
        exact (Shape.leafCapacity_eq hs ▸ hc.leaf hleaf).trans_lt hlt
    | inner he below =>
        obtain ⟨g, ns, hm, hk⟩ := exists_measured hd hf hall he
        obtain ⟨-, ys, hys, hlen⟩ := hf.weighs hk
        rw [(Contents.inner he below).unique hd hys, hlen]
        exact hm.fits
  level := by
    intro k e h he hh
    obtain ⟨g, ns, hm, hk⟩ := exists_measured hd hf hall he
    rw [hh.unique hd (hf.weighs hk).1]
    exact hm.level
  root := hroot
  tail := htail

end Rated

/-! ### There is a rating -/

/-- If no node lies below itself, what passes from the inner children of a node to the node holds of
all inner nodes. -/
lemma Acyclic.induct (hp : p.Acyclic) {motive : Key → Prop}
    (step : ∀ k e, p.inners.get? k = some e →
      (∀ c ∈ e.children, (∃ e, p.inners.get? c = some e) → motive c) → motive k)
    {k : Key} {e : PooledBranch} (he : p.inners.get? k = some e) : motive k := by
  let below : { k // k ∈ p.inners.keys } → { k // k ∈ p.inners.keys } → Prop :=
    fun c k => Relation.TransGen p.Child c k
  have hfinite : Finite { k // k ∈ p.inners.keys } := (List.finite_toSet p.inners.keys).to_subtype
  have htrans : IsTrans _ below := ⟨fun _ _ _ => Relation.TransGen.trans⟩
  have hirrefl : Std.Irrefl below := ⟨fun k => hp k⟩
  have hwf : WellFounded below := Finite.wellFounded_of_trans_of_irrefl below
  suffices hall : ∀ k : { k // k ∈ p.inners.keys }, motive k from
    hall ⟨k, KeyMap.mem_keys_iff.mpr ⟨e, he⟩⟩
  intro k
  induction k using hwf.induction with
  | _ k ih =>
    obtain ⟨e, he⟩ := KeyMap.mem_keys_iff.mp k.property
    refine step k e he fun c hc hinner => ?_
    exact ih ⟨c, KeyMap.mem_keys_iff.mpr hinner⟩ (.single ⟨e, he, hc⟩)

/-- Keys with one height and some elements have their counts. -/
lemma exists_counts {h : Nat} {ks : List Key} {xs : List α} (hks : ∀ k ∈ ks, p.Height k h)
    (hxs : p.ContentsAll ks xs) : ∃ ns : List Nat, ns.sum = xs.length ∧
      List.Forall₂ (fun k n => p.Weighs k ⟨h, n⟩) ks ns := by
  induction ks generalizing xs with
  | nil =>
      cases hxs
      exact ⟨[], rfl, .nil⟩
  | cons k ks ih =>
      cases hxs with
      | @cons _ _ xs ys head tail =>
          obtain ⟨hk, hks⟩ := List.forall_mem_cons.mp hks
          obtain ⟨ns, hsum, hns⟩ := ih hks tail
          refine ⟨xs.length :: ns, ?_, .cons ⟨hk, xs, head, rfl⟩ hns⟩
          rw [List.sum_cons, hsum, List.length_append]

/-- Keys that all have elements have elements one after the other. -/
lemma exists_contentsAll {ks : List Key} (hks : ∀ k ∈ ks, ∃ xs, p.Contents k xs) :
    ∃ xs, p.ContentsAll ks xs := by
  induction ks with
  | nil => exact ⟨[], .nil⟩
  | cons k ks ih =>
      obtain ⟨⟨xs, hxs⟩, hks⟩ := List.forall_mem_cons.mp hks
      obtain ⟨ys, hys⟩ := ih hks
      exact ⟨xs ++ ys, .cons hxs hys⟩

/-- In a pool in order every inner node has a height and elements. -/
lemma Valid.exists_weighs (hp : p.Valid) {k : Key} {e : PooledBranch}
    (he : p.inners.get? k = some e) : ∃ i, p.Weighs k i := by
  refine hp.acyclic.induct (motive := fun k => ∃ i, p.Weighs k i) (fun k e he ih => ?_) he
  have hbelow : ∀ c ∈ e.children, ∃ i, p.Weighs c i := by
    intro c hc
    rcases contains_iff.mp (hp.child ⟨e, he, hc⟩) with hinner | ⟨items, hleaf⟩
    · exact ih c hc hinner
    · exact ⟨⟨0, items.length⟩, .leaf hleaf, items, .leaf hleaf, rfl⟩
  obtain ⟨xs, hxs⟩ := exists_contentsAll fun c hc => by
    obtain ⟨i, -, xs, hxs, -⟩ := hbelow c hc
    exact ⟨xs, hxs⟩
  -- the first child, if there is one, says how high all of them are
  obtain ⟨h, hflat, hheight⟩ : ∃ h, (e.children = [] → h = 0) ∧ ∀ c ∈ e.children, p.Height c h := by
    cases hcs : e.children with
    | nil => exact ⟨0, fun _ => rfl, fun _ hc => nomatch hc⟩
    | cons c cs =>
        have hc : c ∈ e.children := hcs ▸ List.mem_cons_self
        obtain ⟨i, hi, -⟩ := hbelow c hc
        refine ⟨i.height, (fun hnil => nomatch hnil), fun c' hc' => ?_⟩
        have hc' : c' ∈ e.children := hcs ▸ hc'
        obtain ⟨i', hi', -⟩ := hbelow c' hc'
        exact hp.even ⟨e, he, hc'⟩ ⟨e, he, hc⟩ hi' hi ▸ hi'
  exact ⟨⟨h + 1, xs.length⟩, .inner he hflat hheight, xs, .inner he hxs, rfl⟩

open Classical in
/-- The rating that says of each key what it weighs. -/
noncomputable def weight (p : Pool α) : Rating := fun k =>
  if h : ∃ i, p.Weighs k i then some h.choose else none

lemma weight_eq_some_iff (hd : p.Disjoint) {k : Key} {i : NodeInfo} :
    p.weight k = some i ↔ p.Weighs k i := by
  rw [weight]
  split
  · next h =>
    rw [Option.some.injEq]
    exact ⟨fun heq => heq ▸ h.choose_spec, fun hi => h.choose_spec.unique hd hi⟩
  · next h => exact ⟨(fun heq => nomatch heq), fun hi => absurd ⟨i, hi⟩ h⟩

/-- In a pool in order the weights of the nodes fit. -/
lemma Valid.fits_weight (hd : p.Disjoint) (hp : p.Valid) : p.Fits p.weight := by
  refine ⟨fun hleaf => (weight_eq_some_iff hd).mpr ⟨.leaf hleaf, _, .leaf hleaf, rfl⟩,
    fun {k i} hk hleaf => ?_⟩
  obtain ⟨hheight, xs, hxs, hlen⟩ := (weight_eq_some_iff hd).mp hk
  obtain ⟨height, size⟩ := i
  cases hheight with
  | leaf hk' => rw [hleaf] at hk'; cases hk'
  | @inner _ e h he flat below =>
      cases hxs with
      | leaf hk' => rw [hleaf] at hk'; cases hk'
      | @inner _ e' _ he' hall =>
          obtain rfl := Option.some.inj (he.symm.trans he')
          obtain ⟨ns, hsum, hns⟩ := exists_counts below hall
          have hchildren : e.children.map p.weight = ns.map fun n => some ⟨h, n⟩ := by
            rw [← List.forall₂_eq_eq_eq, List.forall₂_map_left_iff, List.forall₂_map_right_iff]
            exact hns.imp fun _ _ hw => (weight_eq_some_iff hd).mpr hw
          refine ⟨e, h, ns, he, ⟨hchildren, flat, fun hrel n hn => ?_, ?_, ?_⟩, ?_⟩
          · obtain ⟨c, hc, hcn⟩ := Measured.exists_child_of_mem_dropLast hchildren hn
            obtain ⟨hch, ys, hys, hlen'⟩ := (weight_eq_some_iff hd).mp hcn
            have hfull := hp.full he hrel hc hch hys
            rwa [hlen', Nat.add_comm] at hfull
          · rw [hsum]
            exact hp.count (.inner he hall)
          · exact hp.level he (.inner he flat below)
          · rw [hsum, hlen]

/-- Pools in order pass the check. -/
lemma Valid.checked (hs : p.shape.Valid) (hp : p.Valid) : p.Checked where
  leaf hk := (Shape.leafCapacity_eq hs).symm ▸ hp.leaf hk
  width he := (Shape.fanout_eq hs).symm ▸ hp.width he
  child he hc := hp.child ⟨_, he, hc⟩
  root hv := contains_iff.mpr (.inl (hp.root hv))
  tail hv := contains_iff.mpr (.inr (hp.tail hv))

/-! ### The bound on the length of a path -/

/-- The bound on the length of a path never ends a search: a path has no key twice, so its length is
bounded by the number of inner nodes anyway, and a larger bound gives the same answer. -/
theorem visit_eq_of_lt {fuel fuel' : Nat} {path : List Key} (hpath : path.Nodup)
    (hinner : ∀ q ∈ path, ∃ e, p.inners.get? q = some e)
    (hfuel : p.inners.size < path.length + fuel) (hfuel' : p.inners.size < path.length + fuel') :
    visit name p fuel path = visit name p fuel' path := by
  induction fuel generalizing fuel' path with
  | zero =>
      have hle := KeyMap.length_le_size hpath hinner
      omega
  | succ fuel ih =>
      cases fuel' with
      | zero =>
          have hle := KeyMap.length_le_size hpath hinner
          omega
      | succ fuel' =>
          funext plan k
          rw [visit, visit]
          split
          · rfl
          next hnotin =>
          split
          · rfl
          split
          · rfl
          next e he =>
          have hpath' : (k :: path).Nodup := List.nodup_cons.mpr ⟨by simpa using hnotin, hpath⟩
          have hinner' : ∀ q ∈ k :: path, ∃ e, p.inners.get? q = some e :=
            List.forall_mem_cons.mpr ⟨⟨e, he⟩, hinner⟩
          have hlength : (k :: path).length = path.length + 1 := List.length_cons
          have hrest : visit name p fuel (k :: path) = visit name p fuel' (k :: path) :=
            ih hpath' hinner' (by omega) (by omega)
          rw [hrest]

end Pool

/-! ### Acceptance -/

namespace Loader

/-- If no key names two nodes, then a loader accepts exactly the pools in order. The search ends by
itself: the bound on the length of its paths may as well be any larger one, whether or not the pool
is accepted. -/
theorem exists_ofPool_iff {p : Pool α} (hs : s.Valid) (hshape : p.shape = s) (hd : p.Disjoint)
    (name : String) :
    ((∃ l, ofPool s name p = .ok l) ↔ p.Valid) ∧
      ∀ bound, p.inners.size < bound → p.plan name =
        p.inners.keys.foldlM (Pool.visit name p bound [])
          (p.leaves.mapValues fun items => ⟨0, items.length⟩) := by
  subst hshape
  refine ⟨⟨?_, fun hp => ?_⟩, fun bound hbound => ?_⟩
  · rintro ⟨l, hl⟩
    have hready := ready_of_ofPool hl
    obtain ⟨-, -, -, plan, -, rfl⟩ := ofPool_eq_ok_iff.mp hl
    exact Pool.valid_of_fits hd hready.fits hready.rated hs hready.checked hready.root hready.tail
  · obtain ⟨plan, hl⟩ := ofPool_of_fits rfl (hp.checked hs) hp.root hp.tail (hp.fits_weight hd)
      (fun he => by
        obtain ⟨i, hi⟩ := hp.exists_weighs he
        exact ⟨i, (Pool.weight_eq_some_iff hd).mpr hi⟩) name
    exact ⟨_, hl⟩
  · rw [Pool.plan, Pool.visit_eq_of_lt List.nodup_nil (fun _ hq => nomatch hq) (by simp)
      (by simpa using hbound)]

/-- A pool whose vectors do not reach all inner nodes, and the same pool with a further node that no
vector reaches and that is its own child: the first one is accepted and the second one is not. -/
theorem exists_ofPool_iff_unreached :
    ∃ p q : Pool Bool, p.Disjoint ∧ q.Disjoint ∧ q.vectors = p.vectors ∧ q.leaves = p.leaves ∧
      q.inners = p.inners.insert 4 ⟨[4], true⟩ ∧ p.Valid ∧ ¬ q.Valid ∧
      ∀ r ∈ [p, q], ((∃ l, ofPool ⟨1, 1⟩ "pool" r = .ok l) ↔ r.Valid) ∧
        ∀ bound, r.inners.size < bound → r.plan "pool" =
          r.inners.keys.foldlM (Pool.visit "pool" r bound [])
            (r.leaves.mapValues fun items => ⟨0, items.length⟩) := by
  have hs : Shape.Valid ⟨1, 1⟩ := by decide
  let inner : Nat → List Json → Json := fun k cs => .arr [.nat k, .arr [.arr cs, .bool (k == 4)]]
  let leaves : Json := .arr [.arr [.nat 0, .arr [.bool true, .bool false]],
    .arr [.nat 1, .arr [.bool true]]]
  let vectors : Json := .arr [.arr [.nat 2, .nat 1]]
  let j : List Json → Json := fun more =>
    .arr [.nat 1, .nat 1, .arr ([inner 2 [.nat 0, .nat 1], inner 3 []] ++ more), leaves, vectors]
  obtain ⟨p, hp⟩ : ∃ p, Pool.ofJson Json.bool? "pool" ⟨1, 1⟩ (j []) = .ok p := ⟨_, rfl⟩
  obtain ⟨q, hq⟩ : ∃ q, Pool.ofJson Json.bool? "pool" ⟨1, 1⟩ (j [inner 4 [.nat 4]]) = .ok q :=
    ⟨_, rfl⟩
  obtain ⟨hpshape, hpd, -⟩ := Pool.ofJson_eq_ok hp
  obtain ⟨hqshape, hqd, -⟩ := Pool.ofJson_eq_ok hq
  have hiff := exists_ofPool_iff hs hpshape hpd "pool"
  have hiff' := exists_ofPool_iff hs hqshape hqd "pool"
  cases hp
  cases hq
  refine ⟨_, _, hpd, hqd, rfl, rfl, rfl, hiff.1.mp ⟨_, rfl⟩, fun h => ?_, ?_⟩
  · obtain ⟨l, hl⟩ := hiff'.1.mpr h
    cases hl
  · exact List.forall_mem_cons.mpr ⟨hiff, List.forall_mem_singleton.mpr hiff'⟩

end Loader

end RadixPool
