import Mathlib
import RadixPool.Proofs.Tree.Counting

/-!
Appending a leaf to a sound tree.

A node that takes another child stays regular exactly if its last child is full, and else gets the
table of its children first. So the new tree is sound again, with the elements of the leaf behind
those of the tree.

* `Branch.path_sound`: a new path is sound and packed.
* `Node.EdgeFull`, `Node.Sound.appendLeaf?_eq_none_iff`: the trees in which a leaf finds no room.
* `Node.Sound.appendLeaf?_eq_some`, `Node.Packed.count_eq_of_appendLeaf?_eq_none`: what a leaf that
  found room does to a tree, and how many elements a packed tree without room has.
-/

namespace RadixPool

variable {α : Type} {s : Shape}

namespace Node

/-! ### Tables of grown nodes -/

lemma extendTable_ends {ns : List Nat} {n : Nat} (hlt : ns.sum + n < Word.count) :
    extendTable n (ends 0 ns) = ends 0 (ns ++ [n]) := by
  rw [extendTable, getLastD_ends, Nat.zero_add, Word.add_eq hlt, ends_append, Nat.zero_add]
  rfl

lemma growTable_ends {before m n : Nat} {ns : List Nat}
    (hlt : before + (ns ++ [m]).sum + n < Word.count) :
    growTable n (ends before (ns ++ [m])) = ends before (ns ++ [m + n]) := by
  induction ns generalizing before with
  | nil =>
      rw [List.nil_append, List.sum_singleton] at hlt
      simp [ends, growTable, Word.add_eq hlt, Nat.add_assoc]
  | cons k ns ih =>
      rw [List.cons_append, List.sum_cons] at hlt
      have hrest : growTable n (ends (before + k) (ns ++ [m])) =
          ends (before + k) (ns ++ [m + n]) := ih (by omega)
      obtain ⟨e, es, hes⟩ : ∃ e es, ends (before + k) (ns ++ [m]) = e :: es := by
        cases ns <;> exact ⟨_, _, rfl⟩
      rw [List.cons_append, ends, hes, growTable, ← hes, hrest]
      · rfl
      · simp

/-- A node that is about to take a child of `n` elements gets the right table, or needs none. -/
lemma tabled_appendChild {h n : Nat} {cs : List (Node α)} {sizes : Option (List Nat)}
    (hb : ∀ c ∈ cs, Sound s h c) (ht : Tabled s h (cs.map count) sizes)
    (hlev : s.level h < Word.width) (hlt : (cs.map count).sum + n < Word.count) :
    Tabled s h (cs.map count ++ [n])
      ((tableFor s (s.level h) cs sizes).map (extendTable n)) := by
  cases sizes with
  | some table =>
      obtain rfl : table = ends 0 (cs.map count) := ht
      exact extendTable_ends hlt
  | none =>
      obtain rfl | ⟨init, last, rfl⟩ := cs.eq_nil_or_concat'
      · exact ⟨hlev, by simp⟩
      rw [tableFor_of_tableFor? (Sound.tableFor?_concat hb hlev (by omega))]
      split
      · next hfull =>
        refine ⟨hlev, fun m hm => ?_⟩
        rw [List.dropLast_concat, List.map_append, List.mem_append] at hm
        rcases hm with hm | hm
        · exact ht.2 m (by simpa using hm)
        · rw [List.map_singleton, List.mem_singleton] at hm
          rw [hm, hfull]
      · exact extendTable_ends hlt

/-- A sound node with room for another child takes it. -/
lemma Sound.appendChild {h : Nat} {id id' : NodeId} {cs : List (Node α)}
    {sizes : Option (List Nat)} (hn : Sound s (h + 1) (.inner id cs sizes)) {c : Node α}
    (hc : Sound s h c) (hw : cs.length < 2 ^ s.bits) (hlev : s.level h < Word.width)
    (hlt : (cs.map count).sum + c.count < Word.count) :
    Sound s (h + 1) (Branch.appendChild s (s.level h) cs sizes c c.count id').node := by
  obtain ⟨_, _, below, tabled⟩ := sound_inner_iff.mp hn
  rw [Branch.appendChild, Branch.node]
  refine .inner ?_ (fun he => by simp at he) (fun d hd => ?_) ?_
  · rw [List.length_append, List.length_singleton]
    exact hw
  · rcases List.mem_append.mp hd with hd | hd
    · exact below d hd
    · rw [List.mem_singleton.mp hd]
      exact hc
  · rw [List.map_append, List.map_singleton]
    exact tabled_appendChild below tabled hlev hlt

/-- A sound node whose last child has grown stays sound. -/
lemma Sound.growLast {h n : Nat} {id id' : NodeId} {init : List (Node α)} {last last' : Node α}
    {sizes : Option (List Nat)} (hn : Sound s (h + 1) (.inner id (init ++ [last]) sizes))
    (hlast : Sound s h last') (hcount : last'.count = last.count + n)
    (hlt : ((init ++ [last]).map count).sum + n < Word.count) :
    Sound s (h + 1) (.inner id' (init ++ [last']) (sizes.map (growTable n))) := by
  obtain ⟨width, _, below, tabled⟩ := sound_inner_iff.mp hn
  refine .inner (by simpa using width) (fun he => by simp at he) (fun d hd => ?_) ?_
  · rcases List.mem_append.mp hd with hd | hd
    · exact below d (List.mem_append_left _ hd)
    · rw [List.mem_singleton.mp hd]
      exact hlast
  · rw [List.map_append, List.map_singleton] at tabled hlt ⊢
    rw [hcount]
    cases sizes with
    | some table =>
        obtain rfl : table = ends 0 (init.map count ++ [last.count]) := tabled
        exact growTable_ends (by omega)
    | none => exact ⟨tabled.1, by simpa using tabled.2⟩

end Node

/-! ### New paths -/

/-- A node with a single child needs no table. -/
lemma Node.Sound.single {h : Nat} {c : Node α} (hc : c.Sound s h) (hlev : s.level h < Word.width)
    (id : NodeId) : (Node.inner id [c] none).Sound s (h + 1) := by
  refine .inner (by simpa using Nat.one_le_two_pow) (fun he => by simp at he) ?_ ⟨hlev, by simp⟩
  intro d hd
  rw [List.mem_singleton.mp hd]
  exact hc

lemma Branch.node_path_zero (leaf : Leaf α) (next : NodeId) :
    (path leaf 0 next).1.node = .inner next [.leaf leaf] none := rfl

lemma Branch.node_path_succ (leaf : Leaf α) (above : Nat) (next : NodeId) :
    (path leaf (above + 1) next).1.node =
      .inner (path leaf above next).2 [(path leaf above next).1.node] none := rfl

/-- A path down to a full leaf is sound and packed, and holds the elements of the leaf. -/
lemma Branch.path_sound {leaf : Leaf α} (hfull : leaf.items.length = 2 ^ s.leafBits) {above : Nat}
    (hlev : s.level above < Word.width) (next : NodeId) :
    (path leaf above next).1.node.Sound s (above + 1) ∧
      (path leaf above next).1.node.Packed s (above + 1) ∧
      (path leaf above next).1.node.elements = leaf.items := by
  induction above with
  | zero =>
      rw [node_path_zero]
      refine ⟨Node.Sound.single (.leaf hfull.le) hlev next,
        .inner (List.nil_append _).symm (.leaf hfull), ?_⟩
      rw [Node.elements, Node.elementsAll_singleton, Node.elements]
  | succ above ih =>
      obtain ⟨hsound, hpacked, helems⟩ := ih ((Shape.level_mono (Nat.le_succ _)).trans_lt hlev)
      rw [node_path_succ]
      refine ⟨hsound.single hlev _, .inner (List.nil_append _).symm hpacked, ?_⟩
      rw [Node.elements, Node.elementsAll_singleton, helems]

namespace Node

/-! ### Finding room -/

lemma appendToLast?_concat (leaf : Leaf α) (next : NodeId) (init : List (Node α)) (last : Node α)
    (shift : Nat) :
    appendToLast? s leaf next (init ++ [last]) shift =
      (appendLeaf? s leaf next last shift).map fun r => (init ++ [r.1.node], r.2) := by
  induction init with
  | nil => simp [appendToLast?]
  | cons c init ih =>
      obtain ⟨d, ds, hd⟩ := List.exists_cons_of_ne_nil (List.concat_ne_nil last init)
      rw [List.cons_append, hd, appendToLast?, ← hd, ih, Option.map_map]
      rfl

/-- Right above the leaves the leaf itself becomes the last child. -/
lemma appendLeaf?_level_zero (hs : s.Valid) (leaf : Leaf α) (next id : NodeId)
    (cs : List (Node α)) (sizes : Option (List Nat)) :
    appendLeaf? s leaf next (.inner id cs sizes) (s.level 0) =
      if 2 ^ s.bits ≤ cs.length then none
      else some (.appendChild s (s.level 0) cs sizes (.leaf leaf) leaf.items.length next,
        next + 1) := by
  rw [appendLeaf?, if_pos Shape.level_zero, Shape.fanout_eq hs]

/-- Further up the last child is asked first, and a path is the way out. -/
lemma appendLeaf?_level_succ (hs : s.Valid) (leaf : Leaf α) (next id : NodeId) (h : Nat)
    (init : List (Node α)) (last : Node α) (sizes : Option (List Nat)) :
    appendLeaf? s leaf next (.inner id (init ++ [last]) sizes) (s.level (h + 1)) =
      match appendLeaf? s leaf next last (s.level (h + 1) - s.bits) with
      | some (b, next) =>
        some (⟨next, init ++ [b.node], sizes.map (growTable leaf.items.length)⟩, next + 1)
      | none =>
        if 2 ^ s.bits ≤ (init ++ [last]).length then none
        else some (.appendChild s (s.level (h + 1)) (init ++ [last]) sizes
          (Branch.path leaf h next).1.node leaf.items.length (Branch.path leaf h next).2,
          (Branch.path leaf h next).2 + 1) := by
  have hne : s.level (h + 1) ≠ s.leafBits := by
    rw [Ne, Shape.level_eq_leafBits_iff hs]
    omega
  rw [appendLeaf?, if_neg hne, appendToLast?_concat, Shape.fanout_eq hs]
  cases appendLeaf? s leaf next last (s.level (h + 1) - s.bits) with
  | some r => rfl
  | none => simp only [Option.map_none, Shape.level_succ_sub, Shape.levelsBelow_level hs]

/-- Trees without room for another leaf: no node along the right edge could take a further child. -/
inductive EdgeFull (s : Shape) : Node α → Prop where
  | leaf (l : Leaf α) : EdgeFull s (.leaf l)
  | inner {id : NodeId} {cs init : List (Node α)} {last : Node α} {sizes : Option (List Nat)}
      (split : cs = init ++ [last]) (wide : cs.length = 2 ^ s.bits) (edge : EdgeFull s last) :
      EdgeFull s (.inner id cs sizes)

lemma not_edgeFull_nil (id : NodeId) (sizes : Option (List Nat)) :
    ¬ (Node.inner id [] sizes : Node α).EdgeFull s := by
  rintro (_ | ⟨split, -, -⟩)
  simp at split

lemma edgeFull_concat_iff {id : NodeId} {init : List (Node α)} {last : Node α}
    {sizes : Option (List Nat)} :
    (Node.inner id (init ++ [last]) sizes).EdgeFull s ↔
      (init ++ [last]).length = 2 ^ s.bits ∧ last.EdgeFull s := by
  constructor
  · rintro (_ | ⟨split, wide, edge⟩)
    obtain ⟨-, hl⟩ := List.append_inj' split rfl
    exact ⟨wide, List.singleton_inj.mp hl ▸ edge⟩
  · rintro ⟨wide, edge⟩
    exact .inner rfl wide edge

/-- A leaf finds no room in a sound tree exactly if all nodes along the right edge are as wide as
they may be, however few elements there are. -/
theorem Sound.appendLeaf?_eq_none_iff (hs : s.Valid) {leaf : Leaf α} {h : Nat} {n : Node α}
    (hn : Sound s h n) {next : NodeId} :
    appendLeaf? s leaf next n (s.level h - s.bits) = none ↔ n.EdgeFull s := by
  induction hn with
  | @leaf l fits =>
      rw [appendLeaf?]
      exact ⟨fun _ => .leaf l, fun _ => rfl⟩
  | @inner h id cs sizes width flat below tabled ih =>
      rw [Shape.level_succ_sub]
      obtain rfl | ⟨init, last, rfl⟩ := cs.eq_nil_or_concat'
      · obtain rfl := flat rfl
        rw [appendLeaf?_level_zero hs, if_neg (by simp)]
        exact ⟨(fun h => nomatch h), fun h => absurd h (not_edgeFull_nil id sizes)⟩
      have hlast : Sound s h last := below last (by simp)
      have hwide : 2 ^ s.bits ≤ (init ++ [last]).length ↔ (init ++ [last]).length = 2 ^ s.bits :=
        ⟨fun hle => le_antisymm width hle, fun heq => heq.ge⟩
      rw [edgeFull_concat_iff]
      cases h with
      | zero =>
          cases hlast with
          | @leaf l fits =>
              rw [appendLeaf?_level_zero hs]
              split
              · next hle => exact ⟨fun _ => ⟨hwide.mp hle, .leaf l⟩, fun _ => rfl⟩
              · next hnot => exact ⟨(fun h => nomatch h), fun h => absurd (hwide.mpr h.1) hnot⟩
      | succ h =>
          rw [appendLeaf?_level_succ hs, ← ih last (by simp)]
          cases appendLeaf? s leaf next last (s.level (h + 1) - s.bits) with
          | some r => exact ⟨(fun h => nomatch h), fun h => nomatch h.2⟩
          | none =>
              dsimp only
              split
              · next hle => exact ⟨fun _ => ⟨hwide.mp hle, rfl⟩, fun _ => rfl⟩
              · next hnot => exact ⟨(fun h => nomatch h), fun h => absurd (hwide.mpr h.1) hnot⟩

/-- A full last child needs no table. -/
lemma tableFor_of_full {h : Nat} {cs init : List (Node α)} {last : Node α}
    (hcs : cs = init ++ [last]) (hlast : Sound s h last) (hfull : last.count = 2 ^ s.level h)
    (hlev : s.level h < Word.width) (hlt : last.count < Word.count) :
    tableFor s (s.level h) cs none = none := by
  rw [tableFor, hcs, List.getLast?_concat]
  simp only [hlast.countBelow_eq hlt, Word.pow2_eq hlev, Nat.one_shiftLeft, if_pos hfull]

/-- A packed tree that has no room for a leaf is full. -/
theorem Packed.count_eq_of_appendLeaf?_eq_none (hs : s.Valid) {leaf : Leaf α} {h : Nat}
    {n : Node α} (hp : Packed s h n) (hn : Sound s h n) {next : NodeId}
    (happ : appendLeaf? s leaf next n (s.level h - s.bits) = none) :
    n.count = 2 ^ s.level h := by
  induction hp with
  | leaf full => simpa using full
  | @inner h id cs init last split edge ih =>
      subst split
      obtain ⟨width, _, below, tabled⟩ := sound_inner_iff.mp hn
      have hlast : Sound s h last := below last (by simp)
      rw [Shape.level_succ_sub] at happ
      have hroom : 2 ^ s.bits ≤ (init ++ [last]).length ∧ last.count = 2 ^ s.level h := by
        cases h with
        | zero =>
            rw [appendLeaf?_level_zero hs] at happ
            cases edge with
            | leaf full => exact ⟨by simpa using happ, by simpa using full⟩
        | succ h =>
            rw [appendLeaf?_level_succ hs] at happ
            cases hrec : appendLeaf? s leaf next last (s.level (h + 1) - s.bits) with
            | some r => simp [hrec] at happ
            | none => exact ⟨by simpa [hrec] using happ, ih hlast hrec⟩
      have hlen : init.length + 1 = 2 ^ s.bits := by
        rw [List.length_append, List.length_singleton] at hroom width
        omega
      rw [List.map_append, List.map_singleton] at tabled
      rw [count_inner, List.map_append, List.map_singleton, tabled.sum_append, hroom.2,
        Shape.two_pow_level_succ, ← hlen, List.length_map, Nat.add_mul, Nat.one_mul]

/-- A packed child behind others, the leaf or a path down to it, that comes when the last one is
full. -/
lemma Sound.appendPacked {leaf : Leaf α} {h : Nat} {id id' : NodeId} {cs : List (Node α)}
    {sizes : Option (List Nat)} {c : Node α} (hn : Sound s (h + 1) (.inner id cs sizes))
    (hlev : s.level h < Word.width)
    (hlt : (cs.map count).sum + leaf.items.length < Word.count) (hw : cs.length < 2 ^ s.bits)
    (hc : Sound s h c) (hpc : Packed s h c) (helems : c.elements = leaf.items)
    (hedge : ∀ init last, cs = init ++ [last] → Packed s h last → last.count = 2 ^ s.level h) :
    let b := Branch.appendChild s (s.level h) cs sizes c leaf.items.length id'
    Sound s (h + 1) b.node ∧ b.elements = elementsAll cs ++ leaf.items ∧
      (Packed s (h + 1) (.inner id cs sizes) → Packed s (h + 1) b.node) := by
  have hcount : c.count = leaf.items.length := by rw [count, helems]
  refine ⟨?_, ?_, ?_⟩
  · rw [← hcount] at hlt ⊢
    exact hn.appendChild hc hw hlev hlt
  · rw [Branch.appendChild, Branch.elements, elementsAll_append, elementsAll_singleton, helems]
  · rintro (_ | @⟨_, _, _, init, last, split, edge⟩)
    have hlast : Sound s h last := (sound_inner_iff.mp hn).2.2.1 last (by simp [split])
    have hle : last.count ≤ (cs.map count).sum := count_le_of_mem (by simp [split])
    rw [Branch.appendChild, Branch.node, tableFor_of_full split hlast (hedge init last split edge)
      hlev (by omega)]
    exact .inner rfl hpc

/-- A last child that has taken the leaf itself. -/
lemma Sound.appendGrown {leaf : Leaf α} {h : Nat} {id id' : NodeId} {init : List (Node α)}
    {last : Node α} {sizes : Option (List Nat)} {b : Branch α}
    (hn : Sound s (h + 1) (.inner id (init ++ [last]) sizes)) (hb : Sound s h b.node)
    (helems : b.elements = last.elements ++ leaf.items) (hp : Packed s h last → Packed s h b.node)
    (hlt : ((init ++ [last]).map count).sum + leaf.items.length < Word.count) :
    let b' : Branch α := ⟨id', init ++ [b.node], sizes.map (growTable leaf.items.length)⟩
    Sound s (h + 1) b'.node ∧ b'.elements = elementsAll (init ++ [last]) ++ leaf.items ∧
      (Packed s (h + 1) (.inner id (init ++ [last]) sizes) → Packed s (h + 1) b'.node) := by
  have hcount : b.node.count = last.count + leaf.items.length := by
    rw [count, Branch.elements_node, helems, List.length_append]
    rfl
  refine ⟨hn.growLast hb hcount hlt, ?_, ?_⟩
  · rw [Branch.elements, elementsAll_append, elementsAll_append, elementsAll_singleton,
      elementsAll_singleton, Branch.elements_node, helems, List.append_assoc]
  · rintro (_ | @⟨_, _, _, init', last', split, edge⟩)
    obtain ⟨rfl, hl⟩ := List.append_inj' split rfl
    obtain rfl := List.singleton_inj.mp hl
    exact .inner rfl (hp edge)

/-- A leaf that finds room in a sound tree: the tree stays sound, packed if it was so, and gets the
elements of the leaf behind its own. -/
theorem Sound.appendLeaf?_eq_some (hs : s.Valid) {leaf : Leaf α}
    (hfull : leaf.items.length = 2 ^ s.leafBits) {h : Nat} {n : Node α} (hn : Sound s h n)
    (hlev : s.level (h - 1) < Word.width) (hlt : n.count + leaf.items.length < Word.count)
    {next next' : NodeId} {b : Branch α}
    (happ : appendLeaf? s leaf next n (s.level h - s.bits) = some (b, next')) :
    Sound s h b.node ∧ b.elements = n.elements ++ leaf.items ∧
      (Packed s h n → Packed s h b.node) := by
  induction hn generalizing b next' with
  | leaf => simp [appendLeaf?] at happ
  | @inner h id cs sizes width flat below tabled ih =>
      have hn : Sound s (h + 1) (.inner id cs sizes) := .inner width flat below tabled
      rw [Nat.add_sub_cancel] at hlev
      rw [count_inner] at hlt
      rw [Shape.level_succ_sub] at happ
      cases h with
      | zero =>
          rw [appendLeaf?_level_zero hs] at happ
          split at happ
          · simp at happ
          · next hw =>
            simp only [Option.some.injEq, Prod.mk.injEq] at happ
            rw [← happ.1, elements]
            refine hn.appendPacked hlev hlt (by omega) (.leaf hfull.le) (.leaf hfull)
              (by rw [elements]) fun init last _ hp => ?_
            cases hp with
            | leaf full => simpa using full
      | succ h =>
          obtain rfl | ⟨init, last, rfl⟩ := cs.eq_nil_or_concat'
          · exact absurd (flat rfl) (Nat.succ_ne_zero h)
          have hlast : Sound s (h + 1) last := below last (by simp)
          have hle : last.count ≤ ((init ++ [last]).map count).sum := count_le_of_mem (by simp)
          have hlev' : s.level h < Word.width := (Shape.level_mono (Nat.le_succ h)).trans_lt hlev
          rw [appendLeaf?_level_succ hs] at happ
          cases hrec : appendLeaf? s leaf next last (s.level (h + 1) - s.bits) with
          | some r =>
              obtain ⟨hsound, helems, hpacked⟩ := ih last (by simp) hlev' (by omega) hrec
              simp only [hrec, Option.some.injEq, Prod.mk.injEq] at happ
              rw [← happ.1, elements]
              exact hn.appendGrown hsound helems hpacked hlt
          | none =>
              simp only [hrec] at happ
              split at happ
              · simp at happ
              · next hw =>
                simp only [Option.some.injEq, Prod.mk.injEq] at happ
                obtain ⟨hsound, hpacked, helems⟩ := Branch.path_sound hfull hlev' next
                rw [← happ.1, elements]
                refine hn.appendPacked hlev hlt (by omega) hsound hpacked helems
                  fun init' last' split edge => ?_
                obtain ⟨rfl, hl⟩ := List.append_inj' split rfl
                obtain rfl := List.singleton_inj.mp hl
                exact edge.count_eq_of_appendLeaf?_eq_none hs hlast hrec

end Node

end RadixPool
