import Mathlib
import RadixPool.Proofs.Computation
import RadixPool.Proofs.Pool.Plan

/-!
What the checks of a pool establish.

* `Pool.Checked`: pools within the limits of their shape in which every key that is referred to is
  in use; `Pool.check_eq_ok_iff`: the pools that pass the check.
* `Pool.checkKinds_eq_ok_iff`: roots are inner nodes and tails are leaves.
* `Pool.readErrors_check`, `Pool.readErrors_plan`, `Pool.readErrors_checkKinds`: whatever is
  wrong, it is a read error.
* `Pool.Contents`, `Pool.Height`: the elements below a key, read off the entries from left to right,
  and the number of inner levels there.
* `Pool.Disjoint`: no key names both a leaf and an inner node; then contents and height are unique.
-/

namespace RadixPool

variable {α : Type}

namespace Pool

variable {name : String} {p : Pool α}

/-! ### Limits and keys -/

lemma contains_iff {k : Key} :
    p.contains k = true ↔
      (∃ e, p.inners.get? k = some e) ∨ ∃ items, p.leaves.get? k = some items := by
  rw [contains, Bool.or_eq_true, KeyMap.contains_iff, KeyMap.contains_iff]

/-- Pools within the limits of their shape in which every key that is referred to is in use. -/
structure Checked (p : Pool α) : Prop where
  leaf : ∀ {k items}, p.leaves.get? k = some items → items.length ≤ p.shape.leafCapacity
  width : ∀ {k e}, p.inners.get? k = some e → e.children.length ≤ p.shape.fanout
  child : ∀ {k e c}, p.inners.get? k = some e → c ∈ e.children → p.contains c = true
  root : ∀ {v}, v ∈ p.vectors → p.contains v.root = true
  tail : ∀ {v}, v ∈ p.vectors → p.contains v.tail = true

lemma checkKey_eq_ok_iff {k : Key} : p.checkKey name k = .ok () ↔ p.contains k = true := by
  rw [checkKey]
  split
  · next h => exact ⟨fun _ => h, fun _ => rfl⟩
  · next h => exact ⟨(fun he => nomatch he), fun he => absurd he h⟩

lemma checkLeaf_eq_ok_iff {k : Key} {items : List α} :
    p.checkLeaf name k items = .ok () ↔ items.length ≤ p.shape.leafCapacity := by
  rw [checkLeaf]
  split
  · next h => exact ⟨(fun he => nomatch he), fun he => absurd he (Nat.not_le_of_lt h)⟩
  · next h => exact ⟨fun _ => Nat.le_of_not_lt h, fun _ => rfl⟩

lemma checkInner_eq_ok_iff {k : Key} {e : PooledBranch} :
    p.checkInner name k e = .ok () ↔
      e.children.length ≤ p.shape.fanout ∧ ∀ c ∈ e.children, p.contains c = true := by
  rw [checkInner]
  split
  · next h => exact ⟨(fun he => nomatch he), fun he => absurd he.1 (Nat.not_le_of_lt h)⟩
  · next h =>
    rw [forM_eq_ok_iff]
    simp only [checkKey_eq_ok_iff]
    exact ⟨fun he => ⟨Nat.le_of_not_lt h, he⟩, fun he => he.2⟩

/-- The pools that pass the check. -/
theorem check_eq_ok_iff : p.check name = .ok () ↔ p.Checked := by
  rw [check, then_eq_ok_iff, then_eq_ok_iff]
  simp only [forM_eq_ok_iff, then_eq_ok_iff, checkKey_eq_ok_iff, checkLeaf_eq_ok_iff,
    checkInner_eq_ok_iff, Prod.forall, KeyMap.mem_entries_iff]
  constructor
  · rintro ⟨hleaves, hinners, hvectors⟩
    exact ⟨fun h => hleaves _ _ h, fun h => (hinners _ _ h).1, fun h => (hinners _ _ h).2 _,
      fun h => (hvectors _ h).1, fun h => (hvectors _ h).2⟩
  · intro h
    exact ⟨fun _ _ hl => h.leaf hl, fun _ _ he => ⟨h.width he, fun _ hc => h.child he hc⟩,
      fun _ hv => ⟨h.root hv, h.tail hv⟩⟩

/-- Roots must be inner nodes, and tails leaves. -/
lemma checkKinds_eq_ok_iff {v : PooledVec} :
    p.checkKinds name v = .ok () ↔
      (∃ e, p.inners.get? v.root = some e) ∧ ∃ items, p.leaves.get? v.tail = some items := by
  rw [checkKinds, ← KeyMap.contains_iff, ← KeyMap.contains_iff]
  cases p.inners.contains v.root <;> cases p.leaves.contains v.tail <;> simp

/-! ### What pools are refused with -/

lemma readErrors_checkKey (k : Key) :
    FailsOnlyWith (·.isReadError = true) (p.checkKey name k) := by
  rw [checkKey]
  split
  · exact .ok ()
  · exact .error rfl

lemma readErrors_checkLeaf (k : Key) (items : List α) :
    FailsOnlyWith (·.isReadError = true) (p.checkLeaf name k items) := by
  rw [checkLeaf]
  split
  · exact .error rfl
  · exact .ok ()

lemma readErrors_checkInner (k : Key) (e : PooledBranch) :
    FailsOnlyWith (·.isReadError = true) (p.checkInner name k e) := by
  rw [checkInner]
  split
  · exact .error rfl
  · exact .forM readErrors_checkKey _

lemma readErrors_check : FailsOnlyWith (·.isReadError = true) (p.check name) :=
  .bind (.forM (fun _ => readErrors_checkLeaf _ _) _) fun _ =>
    .bind (.forM (fun _ => readErrors_checkInner _ _) _) fun _ =>
      .forM (fun _ => (readErrors_checkKey _).bind fun _ => readErrors_checkKey _) _

lemma readErrors_sumChildren {plan : Plan} {k : Key} {relaxed : Bool} {height : Option Nat}
    {size : Nat} {cs : List Key} :
    FailsOnlyWith (·.isReadError = true) (p.sumChildren name plan k relaxed height size cs) := by
  induction cs generalizing height size with
  | nil => exact .ok _
  | cons c cs ih =>
      rw [sumChildren]
      split
      · exact .error rfl
      split
      · exact .error rfl
      split
      · exact .error rfl
      split
      · exact .error rfl
      · exact ih

lemma readErrors_measure {plan : Plan} {k : Key} {e : PooledBranch} :
    FailsOnlyWith (·.isReadError = true) (p.measure name plan k e) := by
  refine readErrors_sumChildren.bind fun info => ?_
  split
  · exact .ok info
  · exact .error rfl

lemma readErrors_visit (fuel : Nat) (path : List Key) (plan : Plan) (k : Key) :
    FailsOnlyWith (·.isReadError = true) (visit name p fuel path plan k) := by
  induction fuel generalizing path plan k with
  | zero => exact .error rfl
  | succ fuel ih =>
      rw [visit]
      split
      · exact .error rfl
      split
      · exact .ok plan
      split
      · exact .error rfl
      · exact (FailsOnlyWith.foldlM (ih _) _ _).bind fun _ => readErrors_measure.bind fun _ => .ok _

lemma readErrors_plan : FailsOnlyWith (·.isReadError = true) (p.plan name) :=
  .foldlM (readErrors_visit _ _) _ _

lemma readErrors_checkKinds (v : PooledVec) :
    FailsOnlyWith (·.isReadError = true) (p.checkKinds name v) := by
  rw [checkKinds]
  split
  · exact .error rfl
  split
  · exact .error rfl
  · exact .ok ()

/-! ### Contents and heights -/

mutual

/-- The elements below a key: those of a leaf, or those below the children in order. -/
inductive Contents (p : Pool α) : Key → List α → Prop where
  | leaf {k : Key} {items : List α} (entry : p.leaves.get? k = some items) : Contents p k items
  | inner {k : Key} {e : PooledBranch} {xs : List α} (entry : p.inners.get? k = some e)
      (below : ContentsAll p e.children xs) : Contents p k xs

/-- The elements below some keys in order. -/
inductive ContentsAll (p : Pool α) : List Key → List α → Prop where
  | nil : ContentsAll p [] []
  | cons {k : Key} {ks : List Key} {xs ys : List α} (head : Contents p k xs)
      (tail : ContentsAll p ks ys) : ContentsAll p (k :: ks) (xs ++ ys)

end

/-- The number of inner levels below a key, which is one for an inner node without children. -/
inductive Height (p : Pool α) : Key → Nat → Prop where
  | leaf {k : Key} {items : List α} (entry : p.leaves.get? k = some items) : Height p k 0
  | inner {k : Key} {e : PooledBranch} {h : Nat} (entry : p.inners.get? k = some e)
      (flat : e.children = [] → h = 0) (below : ∀ c ∈ e.children, Height p c h) :
      Height p k (h + 1)

/-- No key names both a leaf and an inner node. -/
def Disjoint (p : Pool α) : Prop :=
  ∀ {k items}, p.leaves.get? k = some items → p.inners.get? k = none

/-- If no key names two nodes, then a key has at most one contents. -/
theorem Contents.unique (hp : p.Disjoint) {k : Key} {xs ys : List α} (hxs : p.Contents k xs)
    (hys : p.Contents k ys) : xs = ys := by
  refine Contents.rec (motive_1 := fun k xs _ => ∀ ys, p.Contents k ys → xs = ys)
    (motive_2 := fun ks xs _ => ∀ ys, p.ContentsAll ks ys → xs = ys) ?_ ?_ ?_ ?_ hxs ys hys
  · intro k items hk ys hys
    cases hys with
    | leaf entry => exact Option.some.inj (hk.symm.trans entry)
    | inner entry => rw [hp hk] at entry; cases entry
  · intro k e xs he _ ih ys hys
    cases hys with
    | leaf entry => rw [hp entry] at he; cases he
    | inner entry below =>
        obtain rfl := Option.some.inj (he.symm.trans entry)
        exact ih ys below
  · intro ys hys
    cases hys
    rfl
  · intro k ks xs xs' _ _ ih ihs ys hys
    cases hys with
    | cons head tail => rw [ih _ head, ihs _ tail]

/-- If no key names two nodes, then a key has at most one height. -/
theorem Height.unique (hp : p.Disjoint) {k : Key} {h h' : Nat} (hk : p.Height k h)
    (hk' : p.Height k h') : h = h' := by
  induction hk generalizing h' with
  | leaf entry =>
      cases hk' with
      | leaf => rfl
      | inner entry' => rw [hp entry] at entry'; cases entry'
  | @inner k e h entry flat below ih =>
      cases hk' with
      | leaf entry' => rw [hp entry'] at entry; cases entry
      | @inner _ e' _ entry' flat' below' =>
          obtain rfl := Option.some.inj (entry.symm.trans entry')
          cases hcs : e.children with
          | nil => rw [flat hcs, flat' hcs]
          | cons c cs =>
              have hc : c ∈ e.children := hcs ▸ List.mem_cons_self
              rw [ih c hc (below' c hc)]

end Pool

end RadixPool
