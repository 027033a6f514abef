import Mathlib
import RadixPool.Proofs.KeyMap
import RadixPool.Proofs.Tree.Sound

/-!
What a plan says of a pool.

A rating gives heights and counts to keys. It fits a pool if every leaf has height 0 and the
length of the leaf, and every inner node what its children make of it. The planner finds such a
rating if there is one: it visits the children of a node first, and no node is met below itself
because heights decrease downwards.

* `Measured`: the children of an inner node under a rating.
* `Pool.measure_eq_ok_iff`: what it takes to measure an inner node.
* `Pool.Fits`: ratings that fit a pool.
* `Pool.fits_of_plan`, `Pool.exists_plan`: the planner finds a rating of all nodes, exactly if there
  is one.
-/

namespace RadixPool

variable {α : Type} {s : Shape}

/-- A rating of keys, with nothing for keys that are not rated. -/
abbrev Rating := Key → Option NodeInfo

/-- Under the rating the children of an inner node have height `h` and counts `ns`, and the node may
stand in a pool of the shape. -/
structure Measured (s : Shape) (look : Rating) (e : PooledBranch) (h : Nat) (ns : List Nat) :
    Prop where
  children : e.children.map look = ns.map fun n => some ⟨h, n⟩
  flat : e.children = [] → h = 0
  full : e.relaxed = false → ∀ n ∈ ns.dropLast, n = 2 ^ s.level h
  fits : ns.sum < Word.count
  level : s.level h < Word.width

namespace Measured

variable {look look' : Rating} {e : PooledBranch} {h : Nat} {ns : List Nat}

/-- Each child is rated. -/
lemma exists_of_mem (hm : Measured s look e h ns) {c : Key} (hc : c ∈ e.children) :
    ∃ n ∈ ns, look c = some ⟨h, n⟩ := by
  have hmem : look c ∈ ns.map fun n => some ⟨h, n⟩ := hm.children ▸ List.mem_map_of_mem hc
  obtain ⟨n, hn, heq⟩ := List.mem_map.mp hmem
  exact ⟨n, hn, heq.symm⟩

/-- Only the rating of the children counts. -/
lemma congr (hm : Measured s look e h ns) (heq : ∀ c ∈ e.children, look' c = look c) :
    Measured s look' e h ns :=
  ⟨(List.map_congr_left heq).trans hm.children, hm.flat, hm.full, hm.fits, hm.level⟩

end Measured

namespace Pool

variable {name : String} {p : Pool α}

/-! ### Measuring an inner node -/

/-- Adding up goes past a child that is rated, has the height of those before it and is full if a
regular node has further ones, as long as the sum is a word. -/
lemma sumChildren_cons_eq_ok_iff {plan : Plan} {k : Key} {relaxed : Bool} {height : Option Nat}
    {size : Nat} {c : Key} {cs : List Key} {info : NodeInfo} :
    p.sumChildren name plan k relaxed height size (c :: cs) = .ok info ↔
      ∃ i, plan.get? c = some i ∧ height.getD i.height = i.height ∧
        (relaxed = false → cs ≠ [] → p.shape.fullSize? i.height = some i.size) ∧
        size + i.size < Word.count ∧
        p.sumChildren name plan k relaxed (some i.height) (size + i.size) cs = .ok info := by
  rw [sumChildren]
  cases hc : plan.get? c with
  | none => simp
  | some i =>
      dsimp only
      constructor
      · intro hok
        split at hok
        · cases hok
        next hheight =>
        split at hok
        · cases hok
        next hfull =>
        split at hok
        · cases hok
        next size' hadd =>
        obtain ⟨hlt, rfl⟩ := Word.add?_eq_some_iff.mp hadd
        refine ⟨i, rfl, not_not.mp hheight, fun hrel hcs => ?_, hlt, hok⟩
        by_contra hne
        exact hfull ⟨by simp [hrel], hcs, hne⟩
      · rintro ⟨i', hi, hheight, hfull, hlt, hok⟩
        obtain rfl := Option.some.inj hi
        have hpartial : ¬ (!relaxed ∧ cs ≠ [] ∧ p.shape.fullSize? i.height ≠ some i.size) := by
          rintro ⟨hrel, hcs, hne⟩
          exact hne (hfull (by simpa using hrel) hcs)
        rw [if_neg (not_not.mpr hheight), if_neg hpartial, Word.add?_eq_some_iff.mpr ⟨hlt, rfl⟩]
        exact hok

/-- A property of all but the last of some numbers. -/
lemma forall_mem_dropLast_cons {P : Nat → Prop} {n : Nat} {ns : List Nat} :
    (∀ m ∈ (n :: ns).dropLast, P m) ↔ (ns ≠ [] → P n) ∧ ∀ m ∈ ns.dropLast, P m := by
  cases ns with
  | nil => simp
  | cons m ns => simp [List.dropLast_cons_cons]

/-- Adding up succeeds exactly if all children are rated with one height, all but the last are full
or the node is relaxed, and the sum is a word. -/
lemma sumChildren_eq_ok_iff {plan : Plan} {k : Key} {relaxed : Bool} {height : Option Nat}
    {size : Nat} (hsize : size < Word.count) {cs : List Key} {info : NodeInfo} :
    p.sumChildren name plan k relaxed height size cs = .ok info ↔
      ∃ h, ∃ ns : List Nat,
        cs.map plan.get? = ns.map (fun n => some ⟨h, n⟩) ∧ height.getD h = h ∧
        (cs = [] → height = none → h = 0) ∧
        (relaxed = false → ∀ n ∈ ns.dropLast, p.shape.fullSize? h = some n) ∧
        size + ns.sum < Word.count ∧ info = ⟨h + 1, size + ns.sum⟩ := by
  induction cs generalizing height size with
  | nil =>
      rw [sumChildren, Except.ok.injEq]
      constructor
      · rintro rfl
        refine ⟨height.getD 0, [], rfl, ?_, ?_, by simp, hsize, ?_⟩
        · cases height <;> rfl
        · rintro - rfl
          rfl
        · cases height <;> rfl
      · rintro ⟨h, ns, hns, hheight, hflat, -, -, rfl⟩
        obtain rfl : ns = [] := by simpa using hns.symm
        cases height with
        | none =>
            rw [hflat rfl rfl]
            rfl
        | some h' =>
            obtain rfl : h' = h := hheight
            rfl
  | cons c cs ih =>
      rw [sumChildren_cons_eq_ok_iff]
      constructor
      · rintro ⟨i, hc, hheight, hfull, hlt, hok⟩
        obtain ⟨h, ns, hns, hh, -, hreg, hsum, rfl⟩ := (ih hlt).mp hok
        obtain rfl : i.height = h := hh
        refine ⟨i.height, i.size :: ns, by simp [hc, hns], hheight, by simp, fun hrel => ?_, ?_, ?_⟩
        · refine forall_mem_dropLast_cons.mpr ⟨fun hne => hfull hrel ?_, hreg hrel⟩
          rintro rfl
          exact hne (by simpa using hns.symm)
        · rw [List.sum_cons]
          omega
        · rw [List.sum_cons, Nat.add_assoc]
      · rintro ⟨h, ns, hns, hheight, -, hreg, hsum, rfl⟩
        cases ns with
        | nil => cases hns
        | cons n ns =>
            rw [List.map_cons, List.map_cons, List.cons.injEq] at hns
            rw [List.sum_cons] at hsum
            have hrest : p.sumChildren name plan k relaxed (some h) (size + n) cs =
                .ok ⟨h + 1, size + (n :: ns).sum⟩ := by
              refine (ih (by omega)).mpr ⟨h, ns, hns.2, rfl, by simp, fun hrel => ?_, by omega, ?_⟩
              · exact (forall_mem_dropLast_cons.mp (hreg hrel)).2
              · rw [List.sum_cons, Nat.add_assoc]
            refine ⟨⟨h, n⟩, hns.1, hheight, fun hrel hcs => ?_, by dsimp only; omega, hrest⟩
            refine (forall_mem_dropLast_cons.mp (hreg hrel)).1 ?_
            rintro rfl
            exact hcs (by simpa using hns.2)

/-- An inner node is measured exactly if the plan rates its children as the shape wants. -/
theorem measure_eq_ok_iff {plan : Plan} {k : Key} {e : PooledBranch} {info : NodeInfo} :
    p.measure name plan k e = .ok info ↔
      ∃ h ns, Measured p.shape plan.get? e h ns ∧ info = ⟨h + 1, ns.sum⟩ := by
  have hsum := fun i => @sumChildren_eq_ok_iff α name p plan k e.relaxed none 0 (Nat.two_pow_pos 64)
    e.children i
  constructor
  · intro hok
    rw [measure] at hok
    cases hi : p.sumChildren name plan k e.relaxed none 0 e.children with
    | error err => rw [hi] at hok; cases hok
    | ok i =>
        obtain ⟨h, ns, hns, -, hflat, hreg, hlt, rfl⟩ := (hsum i).mp hi
        rw [hi] at hok
        simp only [bind, Except.bind, Shape.shiftAt_succ, Nat.zero_add] at hok hlt
        split at hok
        · next hlev =>
          refine ⟨h, ns, ⟨hns, fun he => hflat he rfl, fun hrel n hn => ?_, hlt, hlev⟩, ?_⟩
          · exact (Shape.fullSize?_eq_some_iff.mp (hreg hrel n hn)).2
          · exact (Except.ok.inj hok).symm
        · cases hok
  · rintro ⟨h, ns, ⟨hns, hflat, hfull, hlt, hlev⟩, rfl⟩
    have hi := (hsum ⟨h + 1, 0 + ns.sum⟩).mpr ⟨h, ns, hns, rfl, fun he _ => hflat he,
      fun hrel n hn => Shape.fullSize?_eq_some_iff.mpr ⟨hlev, hfull hrel n hn⟩,
      by rwa [Nat.zero_add], rfl⟩
    rw [measure, hi]
    simp only [bind, Except.bind, Shape.shiftAt_succ, Nat.zero_add, if_pos hlev]
    rfl

/-! ### Ratings that fit a pool -/

/-- A rating fits a pool: leaves have height 0 and their own length, and whatever else is rated is
an inner node, as its children make it. -/
structure Fits (p : Pool α) (look : Rating) : Prop where
  leaf : ∀ {k items}, p.leaves.get? k = some items → look k = some ⟨0, items.length⟩
  inner : ∀ {k info}, look k = some info → p.leaves.get? k = none →
    ∃ e h ns, p.inners.get? k = some e ∧ Measured p.shape look e h ns ∧ info = ⟨h + 1, ns.sum⟩

/-- A rating that fits says what it says of a key because of an entry of the pool. -/
lemma Fits.cases {look : Rating} (hf : p.Fits look) {k : Key} {info : NodeInfo}
    (hk : look k = some info) :
    (∃ items, p.leaves.get? k = some items ∧ info = ⟨0, items.length⟩) ∨
      p.leaves.get? k = none ∧ ∃ e h ns, p.inners.get? k = some e ∧
        Measured p.shape look e h ns ∧ info = ⟨h + 1, ns.sum⟩ := by
  cases hl : p.leaves.get? k with
  | some items =>
      rw [hf.leaf hl, Option.some.injEq] at hk
      exact .inl ⟨items, rfl, hk.symm⟩
  | none => exact .inr ⟨rfl, hf.inner hk hl⟩

/-- An entry for an inner node whose children are rated keeps a rating fitting. -/
lemma Fits.insert {plan : Plan} (hf : p.Fits plan.get?) {k : Key} {e : PooledBranch} {h : Nat}
    {ns : List Nat} (hk : plan.get? k = none) (he : p.inners.get? k = some e)
    (hm : Measured p.shape plan.get? e h ns) :
    p.Fits (plan.insert k ⟨h + 1, ns.sum⟩).get? := by
  have hsub := KeyMap.Sub.insert ⟨h + 1, ns.sum⟩ hk
  have hmono : ∀ {e' h' ns'}, Measured p.shape plan.get? e' h' ns' →
      Measured p.shape (plan.insert k ⟨h + 1, ns.sum⟩).get? e' h' ns' := by
    intro e' h' ns' hm'
    refine hm'.congr fun c hc => ?_
    obtain ⟨n, -, hn⟩ := hm'.exists_of_mem hc
    rw [hn, hsub c _ hn]
  refine ⟨fun hl => hsub _ _ (hf.leaf hl), fun {k' info} hk' hl => ?_⟩
  rw [KeyMap.get?_insert] at hk'
  split at hk'
  · next heq =>
    subst heq
    exact ⟨e, h, ns, he, hmono hm, (Option.some.inj hk').symm⟩
  · obtain ⟨e', h', ns', he', hm', hinfo⟩ := hf.inner hk' hl
    exact ⟨e', h', ns', he', hmono hm', hinfo⟩

/-! ### The planner finds ratings that fit -/

/-- What visits of some keys do to a plan: it stays fitting and grows, the keys visited are rated in
the end, and the keys under way are left alone. -/
structure Visited (p : Pool α) (path ks : List Key) (plan plan' : Plan) : Prop where
  fits : p.Fits plan'.get?
  sub : plan.Sub plan'
  rated : ∀ k ∈ ks, ∃ info, plan'.get? k = some info
  keep : ∀ q ∈ path, plan'.get? q = plan.get? q

/-- Visits one after the other. -/
lemma visited_foldlM {fuel : Nat} {path : List Key}
    (hstep : ∀ {plan plan' k}, p.Fits plan.get? → visit name p fuel path plan k = .ok plan' →
      p.Visited path [k] plan plan')
    {ks : List Key} {plan plan' : Plan} (hf : p.Fits plan.get?)
    (hok : ks.foldlM (visit name p fuel path) plan = .ok plan') :
    p.Visited path ks plan plan' := by
  induction ks generalizing plan with
  | nil =>
      cases hok
      exact ⟨hf, .refl _, fun _ hk => (nomatch hk), fun _ _ => rfl⟩
  | cons k ks ih =>
      rw [List.foldlM_cons] at hok
      cases hk : visit name p fuel path plan k with
      | error err => rw [hk] at hok; cases hok
      | ok plan₁ =>
          rw [hk] at hok
          have h₁ := hstep hf hk
          have h₂ := ih h₁.fits hok
          refine ⟨h₂.fits, h₁.sub.trans h₂.sub, fun q hq => ?_,
            fun q hq => (h₂.keep q hq).trans (h₁.keep q hq)⟩
          rcases List.mem_cons.mp hq with rfl | hq
          · obtain ⟨info, hinfo⟩ := h₁.rated q (List.mem_singleton_self q)
            exact ⟨info, h₂.sub q info hinfo⟩
          · exact h₂.rated q hq

lemma visited_visit {fuel : Nat} {path : List Key} {plan plan' : Plan} {k : Key}
    (hf : p.Fits plan.get?) (hv : visit name p fuel path plan k = .ok plan') :
    p.Visited path [k] plan plan' := by
  induction fuel generalizing path plan plan' k with
  | zero => cases hv
  | succ fuel ih =>
      rw [visit] at hv
      split at hv
      · cases hv
      next hpath =>
      split at hv
      · next hin =>
        cases hv
        refine ⟨hf, .refl _, fun q hq => ?_, fun _ _ => rfl⟩
        rw [List.mem_singleton.mp hq]
        exact KeyMap.contains_iff.mp hin
      next hout =>
      have hk : plan.get? k = none := KeyMap.contains_eq_false_iff.mp (by simpa using hout)
      split at hv
      · cases hv
      next e he =>
      cases hcs : e.children.foldlM (visit name p fuel (k :: path)) plan with
      | error err => rw [hcs] at hv; cases hv
      | ok plan₁ =>
          rw [hcs] at hv
          have hbelow := visited_foldlM ih hf hcs
          have hk₁ : plan₁.get? k = none :=
            (hbelow.keep k List.mem_cons_self).trans hk
          cases hm : p.measure name plan₁ k e with
          | error err => simp only [bind, Except.bind, hm] at hv; cases hv
          | ok info =>
              simp only [bind, Except.bind, hm] at hv
              cases hv
              obtain ⟨h, ns, hmeas, rfl⟩ := measure_eq_ok_iff.mp hm
              refine ⟨hbelow.fits.insert hk₁ he hmeas, hbelow.sub.trans (.insert _ hk₁),
                fun q hq => ?_, fun q hq => ?_⟩
              · rw [List.mem_singleton.mp hq]
                exact ⟨_, KeyMap.get?_insert_self _ _ _⟩
              · rw [KeyMap.get?_insert, if_neg, hbelow.keep q (List.mem_cons_of_mem _ hq)]
                rintro rfl
                exact hpath (by simpa using hq)

/-- The plan in the beginning knows the leaves. -/
lemma get?_leafPlan (k : Key) :
    (p.leaves.mapValues fun items => (⟨0, items.length⟩ : NodeInfo)).get? k =
      (p.leaves.get? k).map fun items => ⟨0, items.length⟩ :=
  KeyMap.get?_mapValues _ _ _

/-- A plan that the planner makes fits the pool and rates all of its nodes. -/
theorem fits_of_plan {plan : Plan} (hplan : p.plan name = .ok plan) :
    p.Fits plan.get? ∧ ∀ {k e}, p.inners.get? k = some e → ∃ info, plan.get? k = some info := by
  have hstart : p.Fits (p.leaves.mapValues fun items => (⟨0, items.length⟩ : NodeInfo)).get? := by
    refine ⟨fun hl => by rw [get?_leafPlan, hl, Option.map_some], fun hk hl => ?_⟩
    rw [get?_leafPlan, hl] at hk
    cases hk
  have h := visited_foldlM visited_visit hstart hplan
  exact ⟨h.fits, fun he => h.rated _ (KeyMap.mem_keys_iff.mpr ⟨_, he⟩)⟩

/-! ### The planner finds a rating if there is one -/

/-- A plan that says of its keys what a rating says, and knows the leaves. -/
structure Agrees (p : Pool α) (look : Rating) (plan : Plan) : Prop where
  eq : ∀ {k info}, plan.get? k = some info → look k = some info
  leaf : ∀ {k items}, p.leaves.get? k = some items → plan.get? k = some ⟨0, items.length⟩

/-- An entry that the rating gives keeps the agreement. -/
lemma Agrees.insert {look : Rating} {plan : Plan} (hag : p.Agrees look plan) {k : Key}
    {info : NodeInfo} (hk : look k = some info) :
    p.Agrees look (plan.insert k info) ∧ plan.Sub (plan.insert k info) := by
  have hsub : plan.Sub (plan.insert k info) := by
    intro q i hi
    rw [KeyMap.get?_insert]
    split
    · next heq =>
      subst heq
      rw [← hk, hag.eq hi]
    · exact hi
  refine ⟨⟨fun {q i} hi => ?_, fun hl => hsub _ _ (hag.leaf hl)⟩, hsub⟩
  rw [KeyMap.get?_insert] at hi
  split at hi
  · next heq => rw [heq, hk, ← hi]
  · exact hag.eq hi

/-- Visits that succeed one after the other. -/
lemma exists_foldlM_visit {look : Rating} (name : String) (fuel : Nat) (path ks : List Key)
    (hstep : ∀ k ∈ ks, ∀ plan, p.Agrees look plan → ∃ plan', visit name p fuel path plan k =
      .ok plan' ∧ p.Agrees look plan' ∧ plan.Sub plan' ∧ plan'.get? k = look k)
    {plan : Plan} (hag : p.Agrees look plan) :
    ∃ plan', ks.foldlM (visit name p fuel path) plan = .ok plan' ∧ p.Agrees look plan' ∧
      plan.Sub plan' ∧ ∀ k ∈ ks, plan'.get? k = look k := by
  induction ks generalizing plan with
  | nil => exact ⟨plan, rfl, hag, .refl _, fun _ hk => nomatch hk⟩
  | cons k ks ih =>
      obtain ⟨plan₁, hok₁, hag₁, hsub₁, hk₁⟩ := hstep k List.mem_cons_self plan hag
      obtain ⟨plan₂, hok₂, hag₂, hsub₂, hks₂⟩ :=
        ih (fun q hq => hstep q (List.mem_cons_of_mem _ hq)) hag₁
      refine ⟨plan₂, by rw [List.foldlM_cons, hok₁]; exact hok₂, hag₂, hsub₁.trans hsub₂, ?_⟩
      intro q hq
      rcases List.mem_cons.mp hq with rfl | hq
      · cases hq : plan₂.get? q with
        | some info => exact (hag₂.eq hq).symm
        | none =>
            cases hl : look q with
            | none => rfl
            | some info => rw [← hk₁] at hl; rw [hsub₂ _ _ hl] at hq; cases hq
      · exact hks₂ q hq

/-- A visit succeeds: the rating decreases along the path, so no key is met below itself, and a path
of different inner nodes is no longer than their number. -/
lemma exists_visit {look : Rating} (hf : p.Fits look) {fuel : Nat} {path : List Key}
    (hpath : path.Nodup) (hinner : ∀ q ∈ path, ∃ e, p.inners.get? q = some e)
    (hfuel : p.inners.size < path.length + fuel) {k : Key} {info : NodeInfo}
    (hk : look k = some info)
    (habove : ∀ q ∈ path, ∃ i, look q = some i ∧ info.height < i.height)
    {plan : Plan} (hag : p.Agrees look plan) :
    ∃ plan', visit name p fuel path plan k = .ok plan' ∧ p.Agrees look plan' ∧ plan.Sub plan' ∧
      plan'.get? k = look k := by
  induction fuel generalizing path k info plan with
  | zero =>
      have hle := KeyMap.length_le_size hpath hinner
      omega
  | succ fuel ih =>
      have hnotin : k ∉ path := by
        intro hmem
        obtain ⟨i, hi, hlt⟩ := habove k hmem
        rw [hk, Option.some.injEq] at hi
        rw [hi] at hlt
        omega
      rw [visit, if_neg (by simpa using hnotin)]
      cases hin : plan.contains k with
      | true =>
          obtain ⟨i, hi⟩ := KeyMap.contains_iff.mp hin
          exact ⟨plan, rfl, hag, .refl _, hi.trans (hag.eq hi).symm⟩
      | false =>
          have hk₀ : plan.get? k = none := KeyMap.contains_eq_false_iff.mp hin
          have hleaf : p.leaves.get? k = none := by
            cases hl : p.leaves.get? k with
            | none => rfl
            | some items => rw [hag.leaf hl] at hk₀; cases hk₀
          obtain ⟨e, h, ns, he, hm, rfl⟩ := hf.inner hk hleaf
          have hpath' : (k :: path).Nodup := List.nodup_cons.mpr ⟨hnotin, hpath⟩
          have hinner' : ∀ q ∈ k :: path, ∃ e, p.inners.get? q = some e := by
            intro q hq
            rcases List.mem_cons.mp hq with rfl | hq
            · exact ⟨e, he⟩
            · exact hinner q hq
          have hfuel' : p.inners.size < (k :: path).length + fuel := by
            rw [List.length_cons]
            omega
          obtain ⟨plan₁, hok₁, hag₁, hsub₁, hcs₁⟩ := exists_foldlM_visit name fuel
            (k :: path) e.children (fun c hc plan₀ hag₀ => by
              obtain ⟨n, -, hn⟩ := hm.exists_of_mem hc
              refine ih hpath' hinner' hfuel' hn (fun q hq => ?_) hag₀
              rcases List.mem_cons.mp hq with rfl | hq
              · exact ⟨_, hk, Nat.lt_succ_self h⟩
              · obtain ⟨i, hi, hlt⟩ := habove q hq
                exact ⟨i, hi, Nat.lt_of_succ_lt hlt⟩) hag
          have hmeasure : p.measure name plan₁ k e = .ok ⟨h + 1, ns.sum⟩ :=
            measure_eq_ok_iff.mpr ⟨h, ns, hm.congr hcs₁, rfl⟩
          obtain ⟨hag₂, hsub₂⟩ := hag₁.insert hk
          refine ⟨plan₁.insert k ⟨h + 1, ns.sum⟩, ?_, hag₂, hsub₁.trans hsub₂, ?_⟩
          · simp only [he, hok₁, bind, Except.bind, hmeasure]
            rfl
          · rw [KeyMap.get?_insert_self, hk]

/-- If a rating fits a pool and rates all of its nodes, then the planner makes a plan that says the
same. -/
theorem exists_plan {look : Rating} (hf : p.Fits look)
    (hall : ∀ {k e}, p.inners.get? k = some e → ∃ info, look k = some info) :
    ∃ plan, p.plan name = .ok plan ∧ ∀ {k info}, plan.get? k = some info → look k = some info := by
  have hstart : p.Agrees look (p.leaves.mapValues fun items => ⟨0, items.length⟩) := by
    refine ⟨fun {k info} hk => ?_, fun hl => by rw [get?_leafPlan, hl, Option.map_some]⟩
    rw [get?_leafPlan, Option.map_eq_some_iff] at hk
    obtain ⟨items, hl, rfl⟩ := hk
    exact hf.leaf hl
  obtain ⟨plan, hok, hag, -⟩ := exists_foldlM_visit name
    (p.inners.size + 1) [] p.inners.keys (fun k hk plan₀ hag₀ => by
      obtain ⟨e, he⟩ := KeyMap.mem_keys_iff.mp hk
      obtain ⟨info, hinfo⟩ := hall he
      exact exists_visit hf List.nodup_nil (fun _ hq => nomatch hq) (by simp) hinfo
        (fun _ hq => nomatch hq) hag₀) hstart
  exact ⟨plan, hok, hag.eq⟩

end Pool

end RadixPool
