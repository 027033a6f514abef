import Mathlib
import RadixPool.Proofs.Tree.Sound

/-!
Counting along the right edge.

The number of elements below a node shows on its right edge: a table ends with it, and without a
table all children before the last are full. It is computed in words. The checked computation
makes the same steps and gives up where one of them leaves the range: a shift beyond the width or
one that loses bits, a sum that would wrap, a level below the leaves. In a sound tree whose count
is a word it never gives up.

* `Node.countBelow?`, `Node.tableFor?`: the count, and the table of a node that is about to get
  another child, with every step checked.
* `Node.countBelow_of_countBelow?`, `Node.tableFor_of_tableFor?`: in any tree, checks that pass
  change nothing.
* `Node.Sound.countBelow?_eq`, `Node.Sound.exists_tableFor?`: in sound trees they pass, and the
  results are the number of elements and the ends of the children.
* `Branch.countBelow_and_tableFor`: the count of a node and its table are exact.
-/

namespace RadixPool

variable {α : Type} {s : Shape}

/-! ### Checked counting -/

namespace Word

/-- The product of a word with `2^s` if the shift stays within the width and loses no bit. -/
def shiftLeft? (a s : Nat) : Option Nat :=
  if s < width ∧ a <<< s < count then some (a <<< s) else none

lemma shiftLeft?_eq_some_iff {a s n : Nat} :
    shiftLeft? a s = some n ↔ s < width ∧ a * 2 ^ s < count ∧ n = a * 2 ^ s := by
  rw [shiftLeft?, Nat.shiftLeft_eq]
  split
  · next h => simp [h, eq_comm]
  · next h => exact ⟨(fun he => nomatch he), fun he => absurd ⟨he.1, he.2.1⟩ h⟩

end Word

namespace Node

mutual

/-- The number of elements below a child of a node at level `shift`, counted like `countBelow` but
with every operation checked. -/
def countBelow? (s : Shape) : Node α → (shift : Nat) → Option Nat
  | .leaf l, _ => some l.items.length
  | .inner _ cs sizes, shift =>
    if shift < s.bits then none
    else
      match sizes with
      | some table => some (table.getLastD 0)
      | none => countFull? s 0 cs (shift - s.bits)

/-- The number of elements below the children of a node at level `shift`, behind `passed` others,
if all but the last are full: one shift for the full ones and the count of the last. -/
def countFull? (s : Shape) (passed : Nat) : List (Node α) → (shift : Nat) → Option Nat
  | [], _ => some 0
  | [c], shift => do Word.add? (← Word.shiftLeft? passed shift) (← countBelow? s c shift)
  | _ :: c :: cs, shift => countFull? s (passed + 1) (c :: cs) shift

end

/-- The cumulative sums of the counts of some children of a node at level `shift`, checked. -/
def cumulative? (s : Shape) (shift before : Nat) : List (Node α) → Option (List Nat)
  | [] => some []
  | c :: cs => do
    let total ← Word.add? before (← countBelow? s c shift)
    return total :: (← cumulative? s shift total cs)

/-- The size table of a node at level `shift` that is about to get another child, worked out like
`tableFor` but with every operation checked. -/
def tableFor? (s : Shape) (shift : Nat) (cs : List (Node α)) :
    Option (List Nat) → Option (Option (List Nat))
  | some table => some (some table)
  | none =>
    match cs.getLast? with
    | none => some none
    | some c => do
      if (← countBelow? s c shift) = (← Word.pow2? shift) then return none
      else return some (← cumulative? s shift 0 cs)

/-! ### Checks that pass change nothing -/

/-- The shift for all children but the last is the sum of a word for each. -/
lemma countFull_concat {init : List (Node α)} {last : Node α} {shift : Nat}
    (hlev : shift < Word.width)
    (hlt : init.length * 2 ^ shift + countBelow s last shift < Word.count) :
    countFull s (init ++ [last]) shift = init.length * 2 ^ shift + countBelow s last shift := by
  induction init with
  | nil => simp [countFull]
  | cons c init ih =>
      rw [List.length_cons, Nat.succ_mul] at hlt ⊢
      obtain ⟨d, ds, hd⟩ := List.exists_cons_of_ne_nil (List.concat_ne_nil last init)
      have hrest := ih ((Nat.add_le_add_right (Nat.le_add_right _ _) _).trans_lt hlt)
      rw [List.cons_append, hd, countFull, ← hd, hrest, Word.pow2_eq hlev, Nat.one_shiftLeft,
        Word.add_eq (by omega)]
      omega

lemma countFull?_concat_eq_some_iff {passed shift m : Nat} {init : List (Node α)}
    {last : Node α} :
    countFull? s passed (init ++ [last]) shift = some m ↔
      ∃ n, countBelow? s last shift = some n ∧ shift < Word.width ∧
        (passed + init.length) * 2 ^ shift + n < Word.count ∧
        m = (passed + init.length) * 2 ^ shift + n := by
  induction init generalizing passed with
  | nil =>
      simp only [List.nil_append, countFull?, Option.bind_eq_bind, Option.bind_eq_some_iff,
        Word.shiftLeft?_eq_some_iff, Word.add?_eq_some_iff, List.length_nil, Nat.add_zero]
      constructor
      · rintro ⟨_, ⟨hlev, -, rfl⟩, n, hn, hlt, rfl⟩
        exact ⟨n, hn, hlev, hlt, rfl⟩
      · rintro ⟨n, hn, hlev, hlt, rfl⟩
        exact ⟨_, ⟨hlev, by omega, rfl⟩, n, hn, hlt, rfl⟩
  | cons c init ih =>
      obtain ⟨d, ds, hd⟩ := List.exists_cons_of_ne_nil (List.concat_ne_nil last init)
      rw [List.cons_append, hd, countFull?, ← hd, ih, List.length_cons, Nat.add_right_comm,
        Nat.add_assoc]

/-- A checked count that goes through is the count. -/
theorem countBelow_of_countBelow? {n : Node α} {shift m : Nat}
    (h : countBelow? s n shift = some m) : countBelow s n shift = m := by
  induction n using Node.induct generalizing shift m with
  | leaf l =>
      rw [countBelow?] at h
      rw [countBelow, Option.some.inj h]
  | inner id cs sizes ih =>
      cases sizes with
      | some table =>
          rw [countBelow?] at h
          split at h
          · cases h
          · rw [countBelow, Option.some.inj h]
      | none =>
          rw [countBelow?] at h
          split at h
          · cases h
          rw [countBelow]
          obtain rfl | ⟨init, last, rfl⟩ := cs.eq_nil_or_concat'
          · rw [countFull?] at h
            rw [countFull, Option.some.inj h]
          · obtain ⟨n, hn, hlev, hlt, rfl⟩ := countFull?_concat_eq_some_iff.mp h
            have hlast : countBelow s last (shift - s.bits) = n := ih last (by simp) hn
            -- The checked sum bounds each of the sums that the unchecked count makes one by one.
            rw [Nat.zero_add, ← hlast] at hlt ⊢
            exact countFull_concat hlev hlt

/-- Checked sums that go through are the sums. -/
lemma cumulative_of_cumulative? {shift before : Nat} {cs : List (Node α)} {table : List Nat}
    (h : cumulative? s shift before cs = some table) :
    cumulative before (cs.map fun c => countBelow s c shift) = table := by
  induction cs generalizing before table with
  | nil =>
      rw [cumulative?] at h
      rw [List.map_nil, cumulative, Option.some.inj h]
  | cons c cs ih =>
      simp only [cumulative?, Option.bind_eq_bind, Option.bind_eq_some_iff,
        Word.add?_eq_some_iff, Option.pure_def, Option.some.injEq] at h
      obtain ⟨n, hn, _, ⟨hlt, rfl⟩, rest, hrest, rfl⟩ := h
      rw [List.map_cons, cumulative, countBelow_of_countBelow? hn, Word.add_eq hlt, ih hrest]

/-- A checked table that goes through is the table. -/
theorem tableFor_of_tableFor? {shift : Nat} {cs : List (Node α)} {sizes r : Option (List Nat)}
    (h : tableFor? s shift cs sizes = some r) : tableFor s shift cs sizes = r := by
  cases sizes with
  | some table => exact Option.some.inj h
  | none =>
      rw [tableFor]
      rw [tableFor?] at h
      cases hlast : cs.getLast? with
      | none =>
          rw [hlast] at h
          exact Option.some.inj h
      | some c =>
          simp only [hlast, Option.bind_eq_bind, Option.bind_eq_some_iff,
            Word.pow2?_eq_some_iff] at h
          obtain ⟨n, hn, _, ⟨hlev, rfl⟩, h⟩ := h
          dsimp only
          rw [countBelow_of_countBelow? hn, Word.pow2_eq hlev]
          split at h
          · next hfull => rw [if_pos hfull, Option.some.inj h]
          · next hfull =>
            obtain ⟨table, htable, h⟩ := Option.bind_eq_some_iff.mp h
            rw [if_neg hfull, cumulative_of_cumulative? htable, Option.some.inj h]

/-! ### Sound trees pass the checks -/

/-- The count of a sound tree along its right edge. -/
theorem Sound.countBelow?_eq {h : Nat} {n : Node α} (hn : Sound s h n)
    (hlt : n.count < Word.count) : countBelow? s n (s.level h) = some n.count := by
  induction hn with
  | leaf => rw [countBelow?, count_leaf]
  | @inner h id cs sizes _ _ _ tabled ih =>
      have hlev : ¬ s.level (h + 1) < s.bits := by
        rw [Shape.level_succ]
        omega
      rw [count_inner] at hlt ⊢
      cases sizes with
      | some table =>
          obtain rfl : table = ends 0 (cs.map count) := tabled
          rw [countBelow?, if_neg hlev, getLastD_ends, Nat.zero_add]
      | none =>
          rw [countBelow?, if_neg hlev, Shape.level_succ_sub]
          obtain rfl | ⟨init, last, rfl⟩ := cs.eq_nil_or_concat'
          · rfl
          · have hle : last.count ≤ ((init ++ [last]).map count).sum := count_le_of_mem (by simp)
            have hlast : countBelow? s last (s.level h) = some last.count :=
              ih last (by simp) (by omega)
            -- The children that are not visited are full, so one shift stands for all of them.
            rw [List.map_append, List.map_singleton] at tabled hlt ⊢
            have hsum := tabled.sum_append
            rw [List.length_map] at hsum
            rw [countFull?_concat_eq_some_iff, Nat.zero_add]
            exact ⟨last.count, hlast, tabled.1, hsum ▸ hlt, hsum⟩

/-- The right edge of a sound tree tells its count. -/
theorem Sound.countBelow_eq {h : Nat} {n : Node α} (hn : Sound s h n)
    (hlt : n.count < Word.count) : countBelow s n (s.level h) = n.count :=
  countBelow_of_countBelow? (hn.countBelow?_eq hlt)

/-- The cumulative counts of sound trees. -/
lemma Sound.cumulative?_eq {h before : Nat} {cs : List (Node α)} (hcs : ∀ c ∈ cs, Sound s h c)
    (hlt : before + (cs.map count).sum < Word.count) :
    cumulative? s (s.level h) before cs = some (ends before (cs.map count)) := by
  induction cs generalizing before with
  | nil => rfl
  | cons c cs ih =>
      rw [List.map_cons, List.sum_cons] at hlt
      obtain ⟨hc, hcs⟩ := List.forall_mem_cons.mp hcs
      have hadd : Word.add? before c.count = some (before + c.count) :=
        Word.add?_eq_some_iff.mpr ⟨by omega, rfl⟩
      have hrest : cumulative? s (s.level h) (before + c.count) cs =
          some (ends (before + c.count) (cs.map count)) := ih hcs (by omega)
      rw [cumulative?, hc.countBelow?_eq (by omega)]
      simp [hadd, hrest, ends]

/-- A regular node that is about to get another child stays without a table exactly if its last
child is full. -/
lemma Sound.tableFor?_concat {h : Nat} {init : List (Node α)} {last : Node α}
    (hcs : ∀ c ∈ init ++ [last], Sound s h c) (hlev : s.level h < Word.width)
    (hlt : ((init ++ [last]).map count).sum < Word.count) :
    tableFor? s (s.level h) (init ++ [last]) none =
      some (if last.count = 2 ^ s.level h then none
        else some (ends 0 ((init ++ [last]).map count))) := by
  have hle : last.count ≤ ((init ++ [last]).map count).sum := count_le_of_mem (by simp)
  have hcount : countBelow? s last (s.level h) = some last.count :=
    (hcs last (by simp)).countBelow?_eq (by omega)
  have hpow : Word.pow2? (s.level h) = some (2 ^ s.level h) :=
    Word.pow2?_eq_some_iff.mpr ⟨hlev, (Nat.one_shiftLeft _).symm⟩
  have htable : cumulative? s (s.level h) 0 (init ++ [last]) =
      some (ends 0 ((init ++ [last]).map count)) := Sound.cumulative?_eq hcs (by omega)
  rw [tableFor?, List.getLast?_concat]
  simp only [hcount, hpow, htable, Option.bind_eq_bind, Option.bind_some]
  split
  · rfl
  · rfl

/-- What table a sound node has when it is about to get another child. -/
lemma Sound.exists_tableFor? {h : Nat} {id : NodeId} {cs : List (Node α)}
    {sizes : Option (List Nat)} (hn : Sound s (h + 1) (.inner id cs sizes))
    (hlt : (cs.map count).sum < Word.count) :
    ∃ r, tableFor? s (s.level h) cs sizes = some r ∧
      (∀ table, r = some table → Tabled s h (cs.map count) (some table)) ∧
      (r.isSome = true ↔ sizes.isSome = true ∨
        ∃ last, cs.getLast? = some last ∧ last.count ≠ 2 ^ s.level h) := by
  obtain ⟨-, -, below, tabled⟩ := sound_inner_iff.mp hn
  cases sizes with
  | some table =>
      refine ⟨some table, rfl, fun table' he => ?_, by simp⟩
      rw [← he]
      exact tabled
  | none =>
      obtain rfl | ⟨init, last, rfl⟩ := cs.eq_nil_or_concat'
      · exact ⟨none, rfl, by simp, by simp⟩
      · refine ⟨_, tableFor?_concat below tabled.1 hlt, fun table he => ?_, ?_⟩
        · split at he
          · cases he
          · exact (Option.some.inj he).symm
        · rw [List.getLast?_concat]
          split
          · next hfull => simp [hfull]
          · next hfull => simp [hfull]

end Node

/-! ### Exact counts and tables -/

/-- In a sound tree whose number of elements is a word, the count along the right edge, asked from
the level above as for a child, is the number of elements, and all its steps stay in range. So
does the table of a node that is about to get another child: a relaxed node keeps its own, a
regular one gets one exactly if its last child is not full, and the table says for each child how
many elements there are up to its end. -/
theorem Branch.countBelow_and_tableFor {h : Nat} {b : Branch α} (hb : b.node.Sound s (h + 1))
    (hlt : b.node.count < Word.count) :
    Node.countBelow? s b.node (s.level h + s.bits) = some b.elements.length ∧
      Node.countBelow s b.node (s.level h + s.bits) = b.elements.length ∧
      Node.tableFor? s (s.level h) b.children b.sizes =
        some (Node.tableFor s (s.level h) b.children b.sizes) ∧
      (b.isRelaxed = true → Node.tableFor s (s.level h) b.children b.sizes = b.sizes) ∧
      (b.isRelaxed = false →
        ((Node.tableFor s (s.level h) b.children b.sizes).isSome = true ↔
          ∃ last, b.children.getLast? = some last ∧ last.elements.length ≠ 2 ^ s.level h)) ∧
      ∀ table, Node.tableFor s (s.level h) b.children b.sizes = some table →
        table.length = b.children.length ∧ ∀ i < b.children.length,
          table[i]? = some (Node.elementsAll (b.children.take (i + 1))).length := by
  have hcount : Node.countBelow? s b.node (s.level h + s.bits) = some b.elements.length := by
    rw [← Shape.level_succ, hb.countBelow?_eq hlt, Node.count, Branch.elements_node]
  rw [Branch.node, Node.count_inner] at hlt
  obtain ⟨r, hchecked, htable, hsome⟩ := Node.Sound.exists_tableFor? hb hlt
  have hr : Node.tableFor s (s.level h) b.children b.sizes = r :=
    Node.tableFor_of_tableFor? hchecked
  rw [hr]
  refine ⟨hcount, Node.countBelow_of_countBelow? hcount, hchecked, fun hrelaxed => ?_,
    fun hregular => ?_, fun table he => ?_⟩
  · obtain ⟨table, hsizes⟩ := Option.isSome_iff_exists.mp hrelaxed
    rw [hsizes] at hr ⊢
    exact hr.symm
  · rw [Branch.isRelaxed] at hregular
    simpa [hregular, Node.count] using hsome
  · obtain ⟨hlength, hget⟩ := (htable table he).getElem?_table
    refine ⟨hlength, fun i hi => ?_⟩
    rw [hget i hi, Node.length_elementsAll]

/-- A regular root over a full regular child and a relaxed one that is not full: the count is a
shift and the end of a table, and the root is given a table before it takes a third child. -/
theorem Branch.countBelow_and_tableFor_mixed :
    ∃ b : Branch Bool, b.node.Sound ⟨1, 1⟩ 2 ∧ b.node.count < Word.count ∧ b.isRelaxed = false ∧
      Node.countBelow? ⟨1, 1⟩ b.node 3 = some 7 ∧ b.elements.length = 7 ∧
      Node.tableFor? ⟨1, 1⟩ 2 b.children b.sizes = some (some [4, 7]) ∧
      Node.tableFor ⟨1, 1⟩ 2 b.children b.sizes = some [4, 7] ∧
      (∃ last, b.children.getLast? = some last ∧ last.elements.length ≠ 4) ∧
      [4, 7][1]? = some (Node.elementsAll b.children).length := by
  let full : Node Bool := .inner 1 [.leaf ⟨2, [true, true]⟩, .leaf ⟨3, [true, false]⟩] none
  let last : Node Bool := .inner 4 [.leaf ⟨5, [false]⟩, .leaf ⟨6, [true, true]⟩] (some [1, 3])
  let b : Branch Bool := ⟨0, [full, last], none⟩
  have hpair : ∀ {c d : Node Bool} {h : Nat}, c.Sound ⟨1, 1⟩ h → d.Sound ⟨1, 1⟩ h →
      ∀ n ∈ [c, d], n.Sound ⟨1, 1⟩ h := by
    intro c d h hc hd n hn
    simp only [List.mem_cons, List.not_mem_nil, or_false] at hn
    rcases hn with rfl | rfl
    · exact hc
    · exact hd
  have hfull : full.Sound ⟨1, 1⟩ 1 :=
    .inner (by decide) (fun he => nomatch he) (hpair (.leaf (by decide)) (.leaf (by decide)))
      ⟨by decide, by decide⟩
  have hlast : last.Sound ⟨1, 1⟩ 1 :=
    .inner (by decide) (fun he => nomatch he) (hpair (.leaf (by decide)) (.leaf (by decide))) rfl
  have hb : b.node.Sound ⟨1, 1⟩ 2 :=
    .inner (by decide) (fun he => nomatch he) (hpair hfull hlast) ⟨by decide, by decide⟩
  have hlt : b.node.count < Word.count := by decide
  have htable : Node.tableFor ⟨1, 1⟩ 2 b.children b.sizes = some [4, 7] := rfl
  obtain ⟨hchecked, -, hsame, -, hregular, hexact⟩ := Branch.countBelow_and_tableFor hb hlt
  refine ⟨b, hb, hlt, rfl, hchecked, rfl, hsame.trans (congrArg some htable), htable, ?_, ?_⟩
  · exact (hregular rfl).mp rfl
  · exact (hexact [4, 7] htable).2 1 (by decide)

end RadixPool
