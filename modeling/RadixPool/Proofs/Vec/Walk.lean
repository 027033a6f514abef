import Mathlib
import RadixPool.Proofs.Vec.History
import RadixPool.Sharing.Counts
import RadixPool.Vec.Cursor

/-!
Walks and lists.

A cursor finds the next element by turns: it leaves a finished level, enters an inner node, takes
up a leaf or the tail, or answers. A turn without an answer changes neither the elements to come
nor what is announced, and it lowers `Cursor.pending`; so every search ends, whatever empty leaves
and childless nodes lie on the way, and a walk meets the elements of the list one after the other.

* `Cursor.turn`, `Cursor.Finds`: a turn of the search, and whole searches with their number of
  turns.
* `Cursor.finds_next`: every search ends, and its answer is the one of `Cursor.next`.
* `Cursor.rest`, `Cursor.Stands`: the elements to come, and a cursor that announces them rightly.
* `Cursor.Finds.stands`: the answer of a search is the first element to come.
* `World.Reachable.walk_meets_toList`: walks through the vectors of a history, and their equality.
-/

namespace RadixPool

variable {α : Type}

namespace Cursor

variable {c d : Cursor α} {r : Option α × Cursor α} {xs : List α} {n : Nat}

/-! ### The search for an element -/

/-- One turn of the search for the next element: an answer, or the cursor to go on with. -/
def turn : Cursor α → (Option α × Cursor α) ⊕ Cursor α
  | ⟨stack, x :: xs, tail, remaining⟩ => .inl (some x, ⟨stack, xs, tail, remaining - 1⟩)
  | ⟨[], [], none, remaining⟩ => .inl (none, ⟨[], [], none, remaining⟩)
  | ⟨[], [], some items, remaining⟩ => .inr ⟨[], items, none, remaining⟩
  | ⟨[] :: levels, [], tail, remaining⟩ => .inr ⟨levels, [], tail, remaining⟩
  | ⟨(.leaf l :: nodes) :: levels, [], tail, remaining⟩ =>
    .inr ⟨nodes :: levels, l.items, tail, remaining⟩
  | ⟨(.inner _ cs _ :: nodes) :: levels, [], tail, remaining⟩ =>
    .inr ⟨cs :: nodes :: levels, [], tail, remaining⟩

/-- The search that begins at a cursor ends with an answer after a number of turns. -/
inductive Finds : Cursor α → (turns : Nat) → Option α × Cursor α → Prop where
  | answer {c : Cursor α} {r : Option α × Cursor α} (now : c.turn = .inl r) : Finds c 1 r
  | onward {c d : Cursor α} {n : Nat} {r : Option α × Cursor α} (step : c.turn = .inr d)
      (later : Finds d n r) : Finds c (n + 1) r

lemma next_of_turn_inl (h : c.turn = .inl r) : c.next = r := by
  revert h
  fun_cases turn c <;> rintro ⟨⟩ <;> rw [next]

lemma next_of_turn_inr (h : c.turn = .inr d) : c.next = d.next := by
  revert h
  fun_cases turn c <;> rintro ⟨⟩ <;> rw [next]

/-- A turn without an answer brings the search nearer to its end. -/
lemma pending_lt_of_turn (h : c.turn = .inr d) : d.pending < c.pending := by
  revert h
  fun_cases turn c <;> rintro ⟨⟩ <;>
    simp only [pending, List.foldr_cons, List.foldr_nil, stepsOf, stepsBelow, Option.isSome_some,
      Option.isSome_none, Bool.false_eq_true, if_true, if_false] <;> omega

/-- Every search ends, after at most `pending + 1` turns. -/
theorem finds_next (c : Cursor α) : ∃ n ≤ c.pending + 1, c.Finds n c.next := by
  induction hc : c.pending using Nat.strong_induction_on generalizing c with
  | _ k ih =>
      cases hturn : c.turn with
      | inl r =>
          rw [next_of_turn_inl hturn]
          exact ⟨1, Nat.le_add_left 1 k, .answer hturn⟩
      | inr d =>
          have hlt := pending_lt_of_turn hturn
          rw [hc] at hlt
          obtain ⟨n, hn, hfinds⟩ := ih d.pending hlt d rfl
          rw [next_of_turn_inr hturn]
          exact ⟨n + 1, by omega, .onward hturn hfinds⟩

/-! ### The elements to come -/

/-- The elements that are still to come: those of the leaf that is being read, those of the nodes to
visit, the innermost level first, and those of the tail. -/
def rest (c : Cursor α) : List α :=
  c.current ++ (c.stack.flatMap Node.elementsAll ++ c.tail.getD [])

/-- A cursor stands before some elements: they are still to come, and as many are announced. -/
structure Stands (c : Cursor α) (xs : List α) : Prop where
  rest : c.rest = xs
  remaining : c.remaining = xs.length

/-- A turn without an answer passes over no element. -/
lemma rest_of_turn (h : c.turn = .inr d) : d.rest = c.rest ∧ d.remaining = c.remaining := by
  revert h
  fun_cases turn c <;> rintro ⟨⟩ <;> simp [rest, Node.elementsAll, Node.elements]

lemma Stands.onward (hc : c.Stands xs) (h : c.turn = .inr d) : d.Stands xs := by
  obtain ⟨hrest, hremaining⟩ := rest_of_turn h
  exact ⟨hrest.trans hc.rest, hremaining.trans hc.remaining⟩

/-- An answer is the first element to come, if there is one. -/
lemma Stands.answer (hc : c.Stands xs) (h : c.turn = .inl r) :
    r.1 = xs.head? ∧ r.2.Stands xs.tail := by
  obtain ⟨rfl, hremaining⟩ := hc
  revert h
  fun_cases turn c with
  | case1 stack x xs tail remaining =>
      rintro ⟨⟩
      exact ⟨rfl, rfl, congrArg Nat.pred hremaining⟩
  | case2 remaining =>
      rintro ⟨⟩
      exact ⟨rfl, rfl, hremaining⟩
  | _ => rintro ⟨⟩

/-- The answer of a search is the first element to come, and the cursor then stands before the
others. -/
theorem Finds.stands (hfinds : c.Finds n r) (hc : c.Stands xs) :
    r.1 = xs.head? ∧ r.2.Stands xs.tail := by
  induction hfinds with
  | answer hnow => exact hc.answer hnow
  | onward hstep _ ih => exact ih (hc.onward hstep)

lemma Stands.next (hc : c.Stands xs) : c.next.1 = xs.head? ∧ c.next.2.Stands xs.tail := by
  obtain ⟨n, -, hfinds⟩ := c.finds_next
  exact hfinds.stands hc

/-! ### Many calls -/

/-- The cursor after a number of calls. -/
def after (c : Cursor α) (k : Nat) : Cursor α := (fun c => c.next.2)^[k] c

/-- After some calls as many elements have been passed over. -/
lemma Stands.after (hc : c.Stands xs) (k : Nat) : (c.after k).Stands (xs.drop k) := by
  induction k with
  | zero => exact hc
  | succ k ih =>
      rw [Cursor.after, Function.iterate_succ_apply', ← List.tail_drop]
      exact ih.next.2

/-- Some elements at once are the first ones to come. -/
lemma Stands.take (hc : c.Stands xs) (k : Nat) : (c.take k).1 = xs.take k := by
  induction k generalizing c xs with
  | zero => rw [Cursor.take, List.take_zero]
  | succ k ih =>
      obtain ⟨hhead, htail⟩ := hc.next
      rw [Cursor.take]
      cases xs with
      | nil =>
          split
          · rfl
          · next x d hnext => rw [hnext] at hhead; cases hhead
      | cons x xs =>
          split
          · next d hnext => rw [hnext] at hhead; cases hhead
          · next y d hnext =>
            rw [hnext] at hhead htail
            obtain rfl := Option.some.inj hhead
            exact congrArg (y :: ·) (ih htail)

end Cursor

/-! ### Walks through vectors -/

namespace Vec

variable {s : Shape} {h h' : Nat} {v u : Vec α}

namespace Sound

/-- At first the elements of the vector are to come. -/
lemma stands_cursor (hv : v.Sound s h) : v.cursor.Stands v.toList where
  rest := by simp [Vec.cursor, Cursor.rest, toList, Branch.elements]
  remaining := hv.len

/-- A walk meets the elements in their order. -/
lemma walk_eq (hv : v.Sound s h) : v.walk = v.toList := by
  rw [walk, hv.stands_cursor.take, hv.len, List.take_length]

/-- Vectors are compared element by element. -/
lemma sameBy_eq (hv : v.Sound s h) (hu : u.Sound s h') (same : α → α → Bool) :
    v.sameBy same u = v.toList.isEqv u.toList same := by
  rw [sameBy, hv.walk_eq, hu.walk_eq, hv.len, hu.len, List.isEqv_eq_decide]
  by_cases hlen : v.toList.length = u.toList.length
  · rw [beq_iff_eq.mpr hlen, Bool.true_and]
  · rw [beq_eq_false_iff_ne.mpr hlen, Bool.false_and, dif_neg hlen]

end Sound

end Vec

/-- Lists whose elements are compared by equality are compared by equality. -/
lemma isEqv_iff_eq {same : α → α → Bool} (hsame : ∀ x y, same x y = true ↔ x = y) (xs ys : List α) :
    xs.isEqv ys same = true ↔ xs = ys := by
  induction xs generalizing ys with
  | nil => cases ys <;> simp [List.isEqv]
  | cons x xs ih => cases ys <;> simp [List.isEqv, hsame, ih]

/-- Walks through a vector in any history: every search for the next element ends; after `k` calls
the next one gives element number `k` of the list, or nothing behind the last one, and what is
announced is exactly what is left. So a walk meets the list, and two vectors are equal exactly if
their lists are, whatever their trees look like. -/
theorem World.Reachable.walk_meets_toList {s : Shape} (hs : s.Valid) {w : World α}
    (hw : w.Reachable s) {v : Vec α} (hv : v ∈ w.vecs) :
    (∀ k, ∃ turns ≤ (v.cursor.after k).pending + 1,
      (v.cursor.after k).Finds turns (v.cursor.after k).next) ∧
    (∀ k, (v.cursor.after k).next.1 = v.toList[k]? ∧
      (v.cursor.after k).sizeHint = (v.toList.length - k, some (v.toList.length - k))) ∧
    v.walk = v.toList ∧
    ∀ u ∈ w.vecs, ∀ same : α → α → Bool,
      v.sameBy same u = v.toList.isEqv u.toList same ∧
        ((∀ x y, same x y = true ↔ x = y) → (v.sameBy same u = true ↔ v.toList = u.toList)) := by
  obtain ⟨H, hw⟩ := hw.sound hs
  obtain ⟨h, hsound⟩ := hw.vec v hv
  refine ⟨fun k => Cursor.finds_next _, fun k => ?_, hsound.walk_eq, fun u hu same => ?_⟩
  · have hstands := hsound.stands_cursor.after k
    rw [hstands.next.1, List.head?_drop, Cursor.sizeHint, hstands.remaining, List.length_drop]
    exact ⟨rfl, rfl⟩
  · obtain ⟨h', hsound'⟩ := hw.vec u hu
    rw [hsound.sameBy_eq hsound']
    exact ⟨rfl, fun hsame => isEqv_iff_eq hsame _ _⟩

/-- A pool with a node without children, a leaf without elements, and a node that stands twice in
the tree. -/
def sparsePool : Pool Bool :=
  ⟨⟨2, 1⟩, .ofList [(0, ⟨[4, 5, 5], true⟩), (4, ⟨[], false⟩), (5, ⟨[2, 1], true⟩)],
    .ofList [(1, [true]), (2, []), (3, [false])], [⟨0, 3⟩]⟩

/-- A vector that is loaded from a sparse pool equals one that is made of its elements. -/
theorem World.Reachable.walk_meets_toList_sparse :
    ∃ (w : World Bool) (u v : Vec Bool), w.Reachable ⟨2, 1⟩ ∧ u ∈ w.vecs ∧ v ∈ w.vecs ∧
      nodeCounts [u] = ⟨1, 2⟩ ∧ nodeCounts [v] = ⟨3, 3⟩ ∧ v.walk = [true, true, false] ∧
      (v.cursor.after 1).next.1 = some true ∧ (v.cursor.after 2).sizeHint = (1, some 1) ∧
      (v.cursor.after 3).next.1 = none ∧ v.sameBy (· == ·) u = true := by
  have hs : Shape.Valid ⟨2, 1⟩ := by decide
  let u₀ : Vec Bool := (Vec.empty ⟨2, 1⟩ 0).1
  let u₁ : Vec Bool := (u₀.push ⟨2, 1⟩ true 2).1
  let u₂ : Vec Bool := (u₁.push ⟨2, 1⟩ true 3).1
  let u : Vec Bool := (u₂.push ⟨2, 1⟩ false 4).1
  obtain ⟨l, v, l', next, hl, hload, hlist, hcount⟩ :
      ∃ l v l' next, Loader.ofPool ⟨2, 1⟩ "pool" sparsePool = .ok l ∧
        l.vecOf ⟨0, 3⟩ 6 = ((.ok v, l'), next) ∧ v.toList = [true, true, false] ∧
        nodeCounts [v] = ⟨3, 3⟩ := ⟨_, _, _, _, rfl, rfl, rfl, rfl⟩
  have hempty : Step ⟨2, 1⟩ start ⟨2, [u₀], []⟩ := .empty
  have hpush : Step ⟨2, 1⟩ ⟨2, [u₀], []⟩ ⟨3, [u₁, u₀], []⟩ :=
    .push (v := u₀) List.mem_cons_self true (by decide)
  have hpush' : Step ⟨2, 1⟩ ⟨3, [u₁, u₀], []⟩ ⟨4, [u₂, u₁, u₀], []⟩ :=
    .push (v := u₁) List.mem_cons_self true (by decide)
  have hpush'' : Step ⟨2, 1⟩ ⟨4, [u₂, u₁, u₀], []⟩ ⟨6, [u, u₂, u₁, u₀], []⟩ :=
    .push (v := u₂) List.mem_cons_self false (by decide)
  have haccept : Step ⟨2, 1⟩ ⟨6, [u, u₂, u₁, u₀], []⟩ ⟨6, [u, u₂, u₁, u₀], [l]⟩ := .accept hl
  have hstep : Step ⟨2, 1⟩ ⟨6, [u, u₂, u₁, u₀], [l]⟩ ⟨next, [v, u, u₂, u₁, u₀], [l']⟩ :=
    @Step.load _ _ ⟨6, [u, u₂, u₁, u₀], [l]⟩ 0 l l' rfl _ _ _ hload (by rw [hlist]; decide)
  have hw : Reachable ⟨2, 1⟩ ⟨next, [v, u, u₂, u₁, u₀], [l']⟩ :=
    (((((Relation.ReflTransGen.single hempty).tail hpush).tail hpush').tail hpush'').tail
      haccept).tail hstep
  have hu : u ∈ [v, u, u₂, u₁, u₀] := List.mem_cons_of_mem v List.mem_cons_self
  obtain ⟨-, hcalls, hwalk, hequal⟩ := Reachable.walk_meets_toList hs hw List.mem_cons_self
  rw [hlist] at hcalls hwalk hequal
  refine ⟨_, u, v, hw, hu, List.mem_cons_self, by decide, hcount, hwalk, (hcalls 1).1, (hcalls 2).2,
    (hcalls 3).1, ?_⟩
  rw [(hequal u hu (· == ·)).2 fun _ _ => beq_iff_eq]
  decide

end RadixPool
