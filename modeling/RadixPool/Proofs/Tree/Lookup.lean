import Mathlib
import RadixPool.Proofs.Tree.Sound

/-!
Positions in sound trees.

The child that holds a position is found by the table of a relaxed node and by the level of a
regular one. Both ways lead to the same place in a sound tree: the children before it hold the
elements before.

* `Node.route_eq`: the slot and the rest of a position.
* `Node.Sound.get?_eq`: the element at a position below a sound node.
* `Node.Sound.set?_eq`: replacing an element keeps a tree sound and changes one element of its list.
-/

namespace RadixPool

variable {α : Type} {s : Shape}

/-! ### The slot of a position -/

/-- The slot `slot` among children of the given counts holds position `idx`, as its element
`sub`. -/
structure SlotAt (counts : List Nat) (idx slot sub : Nat) : Prop where
  slot_lt : slot < counts.length
  sub_lt : sub < counts[slot]
  eq_add : idx = (counts.take slot).sum + sub

/-- The runs that end at or before a position are those in front of the slot that holds it. -/
lemma slotAt_ends {before idx : Nat} {ns : List Nat} (hb : before ≤ idx)
    (hi : idx < before + ns.sum) :
    SlotAt ns (idx - before) ((ends before ns).takeWhile (· ≤ idx)).length
      (idx - ((ends before ns).takeWhile (· ≤ idx)).getLastD before) := by
  induction ns generalizing before with
  | nil => simp at hi; omega
  | cons n ns ih =>
      rw [List.sum_cons] at hi
      rw [ends]
      by_cases hn : before + n ≤ idx
      · obtain ⟨hlt, hsub, heq⟩ := ih hn (by omega)
        rw [List.takeWhile_cons_of_pos (by simpa using hn), List.getLastD_cons, List.length_cons]
        refine ⟨by simpa using hlt, by simpa using hsub, ?_⟩
        rw [List.take_succ_cons, List.sum_cons]
        omega
      · rw [List.takeWhile_cons_of_neg (by simpa using hn)]
        refine ⟨by simp, ?_, by simp⟩
        simp only [List.length_nil, List.getElem_cons_zero, List.getLastD_nil]
        omega

/-- In a regular node the quotient by the size of a full child is the slot. -/
lemma slotAt_div {h idx : Nat} {ns : List Nat} (ht : Tabled s h ns none)
    (hle : ∀ n ∈ ns, n ≤ 2 ^ s.level h) (hi : idx < ns.sum) :
    SlotAt ns idx (idx / 2 ^ s.level h) (idx % 2 ^ s.level h) := by
  obtain rfl | ⟨ms, m, rfl⟩ := ns.eq_nil_or_concat'
  · simp at hi
  have hpos : 0 < 2 ^ s.level h := Nat.two_pow_pos _
  have hm : m ≤ 2 ^ s.level h := hle m (by simp)
  have hsum := ht.sum_append
  have hdiv := Nat.div_add_mod idx (2 ^ s.level h)
  have hmod := Nat.mod_lt idx hpos
  set q := idx / 2 ^ s.level h with hq
  have hfull : ∀ k < ms.length, (ms ++ [m])[k]? = some (2 ^ s.level h) := by
    intro k hk
    rw [List.getElem?_append_left hk, List.getElem?_eq_getElem hk, Option.some_inj]
    exact ht.2 _ (by rw [List.dropLast_concat]; exact List.getElem_mem hk)
  have htake : ∀ k ≤ ms.length, ((ms ++ [m]).take k).sum = k * 2 ^ s.level h := by
    intro k hk
    rw [List.take_append_of_le_length hk]
    have hrep : ms.take k = List.replicate k (2 ^ s.level h) :=
      List.eq_replicate_iff.mpr ⟨by simpa using hk, fun n hn =>
        ht.2 n (by rw [List.dropLast_concat]; exact List.mem_of_mem_take hn)⟩
    rw [hrep, List.sum_replicate, smul_eq_mul]
  have hqle : q ≤ ms.length := by
    rw [hq, ← Nat.lt_succ_iff, Nat.div_lt_iff_lt_mul hpos, Nat.succ_mul]
    omega
  have hlen : q < (ms ++ [m]).length := by
    rw [List.length_append, List.length_singleton]
    omega
  refine ⟨hlen, ?_, by rw [htake q hqle, Nat.mul_comm]; omega⟩
  rcases Nat.lt_or_eq_of_le hqle with hlt | heq
  · have hget := List.getElem?_eq_getElem hlen
    rw [hfull q hlt, Option.some_inj] at hget
    rw [← hget]
    exact hmod
  · -- the last child: what lies before it are the full ones
    rw [heq, Nat.mul_comm] at hdiv
    simp only [heq, List.getElem_concat_length]
    omega

/-- The route to a position of an inner node: the slot that holds it, and the place in there. -/
lemma Node.route_eq (hs : s.Valid) {h idx : Nat} {ns : List Nat} {sizes : Option (List Nat)}
    (ht : Tabled s h ns sizes) (hw : ns.length ≤ 2 ^ s.bits) (hle : ∀ n ∈ ns, n ≤ 2 ^ s.level h)
    (hi : idx < ns.sum) :
    ∃ slot sub, Node.route s sizes (s.level h) idx = some (slot, sub) ∧ SlotAt ns idx slot sub := by
  cases sizes with
  | some table =>
      obtain rfl : table = ends 0 ns := ht
      have hslot := slotAt_ends (Nat.zero_le idx) (by simpa using hi)
      rw [Nat.sub_zero] at hslot
      refine ⟨_, _, ?_, hslot⟩
      simp only [Node.route]
      rw [if_pos (by simpa using hslot.slot_lt)]
  | none =>
      have hslot := slotAt_div ht hle hi
      refine ⟨_, _, ?_, hslot⟩
      have hlt : idx / 2 ^ s.level h < 2 ^ s.bits := hslot.slot_lt.trans_le hw
      simp only [Node.route, Word.shiftRight_eq ht.1, Word.pow2_eq ht.1, Nat.one_shiftLeft,
        Nat.shiftRight_eq_div_pow, Shape.fanout_eq hs, Nat.mod_eq_of_lt hlt]

/-! ### Children by number -/

namespace Node

lemma getBelow?_eq (cs : List (Node α)) (slot shift idx : Nat) :
    getBelow? s cs slot shift idx = cs[slot]?.bind fun c => c.get? s shift idx := by
  induction cs generalizing slot with
  | nil => simp [getBelow?]
  | cons c cs ih =>
      cases slot with
      | zero => simp [getBelow?]
      | succ slot => simp [getBelow?, ih]

lemma setBelow?_eq (x : α) (next : NodeId) (cs : List (Node α)) (slot shift idx : Nat) :
    setBelow? s x next cs slot shift idx =
      cs[slot]?.bind fun c => (c.set? s x next shift idx).map fun r => (cs.set slot r.1, r.2) := by
  induction cs generalizing slot with
  | nil => simp [setBelow?]
  | cons c cs ih =>
      cases slot with
      | zero => simp [setBelow?]
      | succ slot => simp [setBelow?, ih, Option.map_bind, Function.comp_def]

/-- The elements below some nodes at a position that lies in one of them. -/
lemma getElem?_elementsAll {cs : List (Node α)} {idx slot sub : Nat} {c : Node α}
    (hslot : SlotAt (cs.map count) idx slot sub) (hc : cs[slot]? = some c) :
    (elementsAll cs)[idx]? = c.elements[sub]? := by
  obtain ⟨hlt, hsub, heq⟩ := hslot
  obtain ⟨hlt', rfl⟩ := List.getElem?_eq_some_iff.mp hc
  have hsplit : cs = cs.take slot ++ cs[slot] :: cs.drop (slot + 1) := by simp
  have hbefore : (elementsAll (cs.take slot)).length = ((cs.map count).take slot).sum := by
    rw [length_elementsAll, List.map_take]
  have hsub' : sub < cs[slot].elements.length := by simpa [count] using hsub
  conv_lhs => rw [hsplit, elementsAll_append, elementsAll]
  rw [heq, ← hbefore, List.getElem?_append_right (Nat.le_add_right _ _), Nat.add_sub_cancel_left,
    List.getElem?_append_left hsub']

/-- Replacing the element at a position replaces it in the node that holds it. -/
lemma elementsAll_set {cs : List (Node α)} {idx slot sub : Nat} {c c' : Node α} {x : α}
    (hslot : SlotAt (cs.map count) idx slot sub) (hc : cs[slot]? = some c)
    (hc' : c'.elements = c.elements.set sub x) :
    elementsAll (cs.set slot c') = (elementsAll cs).set idx x := by
  obtain ⟨hlt, hsub, heq⟩ := hslot
  obtain ⟨hlt', rfl⟩ := List.getElem?_eq_some_iff.mp hc
  have hsplit : cs = cs.take slot ++ cs[slot] :: cs.drop (slot + 1) := by simp
  have hbefore : (elementsAll (cs.take slot)).length = ((cs.map count).take slot).sum := by
    rw [length_elementsAll, List.map_take]
  have hsub' : sub < cs[slot].elements.length := by simpa [count] using hsub
  rw [List.set_eq_take_append_cons_drop, if_pos hlt']
  conv_rhs => rw [hsplit]
  simp only [elementsAll_append, elementsAll, hc']
  rw [heq, ← hbefore, List.set_append_right _ _ (Nat.le_add_right _ _), Nat.add_sub_cancel_left,
    List.set_append_left _ _ hsub']

/-! ### Reading and replacing -/

/-- Below a sound node a position leads to its element. -/
theorem Sound.get?_eq (hs : s.Valid) {h : Nat} {n : Node α} (hn : Sound s h n) {idx : Nat}
    (hi : idx < n.count) : n.get? s (s.level h - s.bits) idx = n.elements[idx]? := by
  induction hn generalizing idx with
  | leaf => simp [get?, elements]
  | @inner h id cs sizes width _ below tabled ih =>
      rw [count_inner] at hi
      obtain ⟨slot, sub, hroute, hslot⟩ := route_eq hs tabled (by simpa using width)
        (fun m hm => by
          obtain ⟨c, hc, rfl⟩ := List.mem_map.mp hm
          exact (below c hc).count_le) hi
      have hlt : slot < cs.length := by simpa using hslot.slot_lt
      have hc := List.getElem?_eq_getElem hlt
      have hsub : sub < cs[slot].count := by simpa using hslot.sub_lt
      simp only [get?, Shape.level_succ_sub, hroute, getBelow?_eq, hc, Option.bind_some, elements]
      rw [ih _ (List.getElem_mem hlt) hsub, getElem?_elementsAll hslot hc]

/-- Replacing children by sound ones with as many elements keeps the size tables right. -/
lemma map_count_set {cs : List (Node α)} {slot : Nat} {c c' : Node α} (hc : cs[slot]? = some c)
    (hcount : c'.count = c.count) : (cs.set slot c').map count = cs.map count := by
  obtain ⟨hlt, rfl⟩ := List.getElem?_eq_some_iff.mp hc
  rw [List.map_set, hcount]
  refine List.ext_getElem? fun i => ?_
  rw [List.getElem?_set]
  split
  · next h => subst h; simp [hlt]
  · rfl

/-- The children of an inner node with the element at a position replaced: the position leads to a
child, and what is a replacement there is one in the whole. -/
lemma setBelow?_of_children (hs : s.Valid) {h : Nat} {id : NodeId} {cs : List (Node α)}
    {sizes : Option (List Nat)} (hn : Sound s (h + 1) (.inner id cs sizes)) {x : α} {next : NodeId}
    (ih : ∀ c ∈ cs, ∀ i < c.count, ∃ c' next', c.set? s x next (s.level h - s.bits) i =
      some (c', next') ∧ Sound s h c' ∧ c'.elements = c.elements.set i x)
    {idx : Nat} (hi : idx < (cs.map count).sum) :
    ∃ slot sub cs' next', route s sizes (s.level h) idx = some (slot, sub) ∧
      setBelow? s x next cs slot (s.level h - s.bits) sub = some (cs', next') ∧
      (∀ id', Sound s (h + 1) (.inner id' cs' sizes)) ∧
      elementsAll cs' = (elementsAll cs).set idx x := by
  obtain ⟨width, flat, below, tabled⟩ := sound_inner_iff.mp hn
  obtain ⟨slot, sub, hroute, hslot⟩ := route_eq hs tabled (by simpa using width)
    (fun m hm => by
      obtain ⟨c, hc, rfl⟩ := List.mem_map.mp hm
      exact (below c hc).count_le) hi
  have hlt : slot < cs.length := by simpa using hslot.slot_lt
  have hc := List.getElem?_eq_getElem hlt
  obtain ⟨c', next', hset, hsound, helems⟩ := ih cs[slot] (List.getElem_mem hlt) sub
    (by simpa using hslot.sub_lt)
  have hcount : c'.count = cs[slot].count := by simp [count, helems]
  refine ⟨slot, sub, cs.set slot c', next', hroute, by simp [setBelow?_eq, hc, hset],
    fun id' => .inner (by simpa using width) (fun he => flat (by simpa using he)) ?_ ?_,
    elementsAll_set hslot hc helems⟩
  · intro d hd
    rcases List.mem_or_eq_of_mem_set hd with hd | rfl
    · exact below d hd
    · exact hsound
  · rw [map_count_set hc hcount]
    exact tabled

/-- Replacing an element below a sound node succeeds, gives a sound node, and changes that element
and no other. -/
theorem Sound.set?_eq (hs : s.Valid) {h : Nat} {n : Node α} (hn : Sound s h n) (x : α)
    (next : NodeId) {idx : Nat} (hi : idx < n.count) :
    ∃ n' next', n.set? s x next (s.level h - s.bits) idx = some (n', next') ∧ Sound s h n' ∧
      n'.elements = n.elements.set idx x := by
  induction hn generalizing idx with
  | @leaf l fits =>
      rw [count_leaf] at hi
      refine ⟨_, _, by rw [set?, if_pos hi], .leaf ?_, rfl⟩
      simpa using fits
  | @inner h id cs sizes width flat below tabled ih =>
      rw [count_inner] at hi
      obtain ⟨slot, sub, cs', next', hroute, hset, hsound, helems⟩ :=
        setBelow?_of_children hs
          (Sound.inner width flat below tabled : Sound s (h + 1) (.inner id _ _))
          (fun c hc i (hi : i < c.count) => ih c hc hi) hi
      refine ⟨.inner next' cs' sizes, next' + 1, ?_, hsound next', helems⟩
      simp only [set?, Shape.level_succ_sub, hroute, hset]

/-- Among the children the last one stays last, itself or with an element replaced. -/
lemma setBelow?_concat {init cs' : List (Node α)} {last : Node α} {x : α} {next next' : NodeId}
    {slot shift idx : Nat}
    (hset : setBelow? s x next (init ++ [last]) slot shift idx = some (cs', next')) :
    ∃ init' last', cs' = init' ++ [last'] ∧
      (last' = last ∨ ∃ next₁, last.set? s x next shift idx = some (last', next₁)) := by
  rw [setBelow?_eq, Option.bind_eq_some_iff] at hset
  obtain ⟨c, hc, hset⟩ := hset
  obtain ⟨⟨c', next₁⟩, hrec, heq⟩ := Option.map_eq_some_iff.mp hset
  simp only [Prod.mk.injEq] at heq
  obtain ⟨rfl, -⟩ := heq
  rcases Nat.lt_or_ge slot init.length with hlt | hge
  · exact ⟨init.set slot c', last, by rw [List.set_append_left _ _ hlt], .inl rfl⟩
  · have hslot : slot = init.length := by
      have := (List.getElem?_eq_some_iff.mp hc).1
      rw [List.length_append, List.length_singleton] at this
      omega
    subst hslot
    obtain rfl : last = c := by simpa using hc
    exact ⟨init, c', by rw [List.set_append_right _ _ le_rfl]; simp, .inr ⟨next₁, hrec⟩⟩

/-- Replacing an element keeps a tree packed. -/
lemma Packed.set? {h : Nat} {n n' : Node α} (hp : Packed s h n) {x : α} {next next' : NodeId}
    {shift idx : Nat} (hset : n.set? s x next shift idx = some (n', next')) : Packed s h n' := by
  induction hp generalizing n' next' shift idx with
  | leaf full =>
      rw [Node.set?] at hset
      split at hset
      · simp only [Option.some.injEq, Prod.mk.injEq] at hset
        rw [← hset.1]
        exact .leaf (by simpa using full)
      · simp at hset
  | @inner h id cs init last split edge ih =>
      subst split
      rw [Node.set?] at hset
      split at hset
      · split at hset
        · next hbelow =>
          simp only [Option.some.injEq, Prod.mk.injEq] at hset
          rw [← hset.1]
          obtain ⟨init', last', rfl, rfl | ⟨next₁, hlast⟩⟩ := setBelow?_concat hbelow
          · exact .inner rfl edge
          · exact .inner rfl (ih hlast)
        · simp at hset
      · simp at hset

end Node

end RadixPool
