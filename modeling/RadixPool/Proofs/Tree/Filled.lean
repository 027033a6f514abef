import Mathlib
import RadixPool.Proofs.Tree.Append
import RadixPool.Proofs.Tree.Map
import RadixPool.Proofs.Tree.Path

/-!
Filled trees.

A tree is filled if all its leaves are full and stand as far to the left as they can: at each height
all children but the last are full trees, and the last one is filled itself. No node of such a tree
needs a size table, and its height and its number of leaves determine it up to its elements.

* `Shape.leaves`: how many leaves a full tree of a height has.
* `Node.Filled`: filled trees of a height with a number of leaves.
* `Node.Filled.edgeFull_iff`, `Node.Filled.appendLeaf?`: a filled tree has room unless it is full,
  and it stays filled when it takes a leaf.
* `Node.Filled.set?`: a filled tree stays filled when an element is replaced.
* `Node.Filled.full_of_mem_row`: in each row of a filled tree all nodes but the last are full.
* `Node.Filled.skeleton_eq`: height and number of leaves determine a filled tree up to its elements
  and identities.
-/

namespace RadixPool

variable {α β : Type} {s : Shape}

/-! ### Full trees -/

/-- The number of leaves of a full tree of height `h`. -/
def Shape.leaves (s : Shape) (h : Nat) : Nat := 2 ^ (s.bits * h)

namespace Shape

@[simp] lemma leaves_zero : s.leaves 0 = 1 := by simp [leaves]

lemma leaves_succ (h : Nat) : s.leaves (h + 1) = 2 ^ s.bits * s.leaves h := by
  rw [leaves, leaves, Nat.mul_succ, Nat.pow_add, Nat.mul_comm]

lemma leaves_pos (h : Nat) : 0 < s.leaves h := Nat.two_pow_pos _

lemma leaves_mono {h h' : Nat} (hle : h ≤ h') : s.leaves h ≤ s.leaves h' :=
  Nat.pow_le_pow_right Nat.two_pos (Nat.mul_le_mul_left _ hle)

/-- A full tree has full leaves. -/
lemma two_pow_level (h : Nat) : 2 ^ s.level h = s.leaves h * 2 ^ s.leafBits := by
  rw [level, leaves, Nat.pow_add, Nat.mul_comm]

end Shape

/-- A sum of `a` full runs and a last one is the sum of `w` full runs only if the last one is full
and there are `a` others. -/
lemma mul_add_eq_mul_iff {a k m w : Nat} (ha : a < w) (hpos : 0 < m) (hle : m ≤ k) :
    a * k + m = w * k ↔ a + 1 = w ∧ m = k := by
  constructor
  · intro heq
    by_cases hw : a + 1 = w
    · subst hw
      rw [Nat.succ_mul] at heq
      exact ⟨rfl, by omega⟩
    · have hmul : (a + 2) * k ≤ w * k := Nat.mul_le_mul_right k (by omega)
      rw [Nat.add_mul] at hmul
      omega
  · rintro ⟨rfl, rfl⟩
    rw [Nat.succ_mul]

/-- A sum of full runs and a last one that is not empty is one in one way only. -/
lemma mul_add_inj {a a' k m m' : Nat} (hpos : 0 < m) (hle : m ≤ k) (hpos' : 0 < m') (hle' : m' ≤ k)
    (heq : a * k + m = a' * k + m') : a = a' ∧ m = m' := by
  have hdiv : ∀ {b n : Nat}, 0 < n → n ≤ k → (b * k + n - 1) / k = b := by
    intro b n hn hnk
    rw [Nat.add_sub_assoc hn, Nat.mul_comm, Nat.mul_add_div (by omega),
      Nat.div_eq_of_lt (by omega), Nat.add_zero]
  have ha : a = a' :=
    calc a = (a * k + m - 1) / k := (hdiv hpos hle).symm
      _ = (a' * k + m' - 1) / k := by rw [heq]
      _ = a' := hdiv hpos' hle'
  subst ha
  exact ⟨rfl, by omega⟩

namespace Node

/-! ### Filled trees -/

/-- Trees of a height whose leaves are full and stand as far to the left as they can. -/
inductive Filled (s : Shape) : (height leaves : Nat) → Node α → Prop where
  | leaf {l : Leaf α} (full : l.items.length = 2 ^ s.leafBits) : Filled s 0 1 (.leaf l)
  | inner {h m : Nat} {id : NodeId} {cs init : List (Node α)} {last : Node α}
      (split : cs = init ++ [last]) (room : init.length < 2 ^ s.bits)
      (before : ∀ c ∈ init, Filled s h (s.leaves h) c) (edge : Filled s h m last) :
      Filled s (h + 1) (init.length * s.leaves h + m) (.inner id cs none)

namespace Filled

variable {h k : Nat} {n : Node α}

/-- A filled tree has a leaf, and no more leaves than a full one. -/
lemma leaves_bounds (hn : Filled s h k n) : 0 < k ∧ k ≤ s.leaves h := by
  induction hn with
  | leaf => simp
  | @inner h m id cs init last split room before edge _ ih =>
      have hle : (init.length + 1) * s.leaves h ≤ 2 ^ s.bits * s.leaves h :=
        Nat.mul_le_mul_right _ room
      rw [Nat.succ_mul] at hle
      rw [Shape.leaves_succ]
      omega

/-- The leaves of a filled tree are full. -/
theorem count_eq (hn : Filled s h k n) : n.count = k * 2 ^ s.leafBits := by
  induction hn with
  | leaf full => rw [count_leaf, full, Nat.one_mul]
  | @inner h m id cs init last split room before edge ihbefore ih =>
      have hfull : init.map count =
          List.replicate init.length (s.leaves h * 2 ^ s.leafBits) := by
        rw [← List.length_map]
        refine List.eq_replicate_of_mem fun k hk => ?_
        obtain ⟨c, hc, rfl⟩ := List.mem_map.mp hk
        exact ihbefore c hc
      rw [count_inner, split, List.map_append, List.sum_append, hfull, List.sum_replicate,
        List.map_singleton, List.sum_singleton, ih, smul_eq_mul, Nat.add_mul, Nat.mul_assoc]

/-- Filled trees are sound as long as their levels address elements. -/
theorem sound (hn : Filled s h k n) (hlev : s.level (h - 1) < Word.width) : Sound s h n := by
  induction hn with
  | leaf full => exact .leaf full.le
  | @inner h m id cs init last split room before edge ihbefore ih =>
      have hlev' : s.level (h - 1) < Word.width := (Shape.level_mono (Nat.sub_le h 1)).trans_lt hlev
      subst split
      refine .inner ?_ (fun hnil => by simp at hnil) (fun c hc => ?_) ⟨hlev, fun k hk => ?_⟩
      · rw [List.length_append, List.length_singleton]
        exact room
      · rcases List.mem_append.mp hc with hc | hc
        · exact ihbefore c hc hlev'
        · rw [List.mem_singleton.mp hc]
          exact ih hlev'
      · rw [List.map_append, List.map_singleton, List.dropLast_concat] at hk
        obtain ⟨c, hc, rfl⟩ := List.mem_map.mp hk
        rw [(before c hc).count_eq, Shape.two_pow_level]

/-- The nodes below a filled one are filled. -/
lemma of_mem_nodes {m : Node α} (hn : Filled s h k n) (hm : m ∈ n.nodes) :
    ∃ h' k', Filled s h' k' m := by
  induction hn with
  | @leaf l full =>
      rw [nodes, List.mem_singleton] at hm
      exact ⟨0, 1, hm ▸ .leaf full⟩
  | @inner h k id cs init last split room before edge ihbefore ih =>
      rcases mem_nodes_inner.mp hm with rfl | ⟨c, hc, hmc⟩
      · exact ⟨_, _, .inner split room before edge⟩
      · rw [split] at hc
        rcases List.mem_append.mp hc with hc | hc
        · exact ihbefore c hc hmc
        · rw [List.mem_singleton.mp hc] at hmc
          exact ih hmc

/-! ### Taking a leaf -/

/-- A filled tree has no room exactly if it is full. -/
theorem edgeFull_iff (hn : Filled s h k n) : n.EdgeFull s ↔ k = s.leaves h := by
  induction hn with
  | @leaf l full => exact ⟨fun _ => Shape.leaves_zero.symm, fun _ => .leaf l⟩
  | @inner h m id cs init last split room before edge _ ih =>
      obtain ⟨hpos, hle⟩ := edge.leaves_bounds
      rw [split, edgeFull_concat_iff, ih, Shape.leaves_succ, mul_add_eq_mul_iff room hpos hle,
        List.length_append, List.length_singleton]

/-- A path down to a full leaf is a filled tree with one leaf. -/
lemma path {leaf : Leaf α} (hfull : leaf.items.length = 2 ^ s.leafBits) (above : Nat)
    (next : NodeId) : Filled s (above + 1) 1 (Branch.path leaf above next).1.node := by
  have hsingle : ∀ {h : Nat} {c : Node α} (id : NodeId), Filled s h 1 c →
      Filled s (h + 1) 1 (.inner id [c] none) := by
    intro h c id hc
    have hnode : Filled s (h + 1) (([] : List (Node α)).length * s.leaves h + 1)
        (.inner id [c] none) :=
      inner (List.nil_append [c]).symm (Nat.two_pow_pos _) (fun _ hd => nomatch hd) hc
    rwa [List.length_nil, Nat.zero_mul, Nat.zero_add] at hnode
  induction above generalizing next with
  | zero => exact hsingle next (.leaf hfull)
  | succ above ih => exact hsingle _ (ih next)

/-- A child with one leaf behind children that are full. -/
lemma appendChild {init : List (Node α)} {last c : Node α} (i : Nat) (id' : NodeId)
    (hw : (init ++ [last]).length < 2 ^ s.bits) (hlev : s.level h < Word.width)
    (hlt : last.count < Word.count) (hinit : ∀ c ∈ init, Filled s h (s.leaves h) c)
    (hlast : Filled s h (s.leaves h) last) (hc : Filled s h 1 c) :
    Filled s (h + 1) (init.length * s.leaves h + s.leaves h + 1)
      (Branch.appendChild s (s.level h) (init ++ [last]) none c i id').node := by
  have hsound : Sound s h last := hlast.sound ((Shape.level_mono (Nat.sub_le h 1)).trans_lt hlev)
  have hcount : last.count = 2 ^ s.level h := by rw [hlast.count_eq, Shape.two_pow_level]
  have hbefore : ∀ d ∈ init ++ [last], Filled s h (s.leaves h) d := by
    intro d hd
    rcases List.mem_append.mp hd with hd | hd
    · exact hinit d hd
    · rw [List.mem_singleton.mp hd]
      exact hlast
  have hnode : Filled s (h + 1) ((init ++ [last]).length * s.leaves h + 1)
      (.inner id' (init ++ [last] ++ [c]) none) := inner rfl hw hbefore hc
  rw [List.length_append, List.length_singleton, Nat.succ_mul] at hnode
  rw [Branch.appendChild, tableFor_of_full rfl hsound hcount hlev hlt, Option.map_none, Branch.node]
  exact hnode

/-- A filled tree that takes a leaf is filled again, with one leaf more. -/
theorem appendLeaf? (hs : s.Valid) {leaf : Leaf α} (hfull : leaf.items.length = 2 ^ s.leafBits)
    (hn : Filled s h k n) (hlev : s.level (h - 1) < Word.width) (hlt : n.count < Word.count)
    {next next' : NodeId} {b : Branch α}
    (happ : Node.appendLeaf? s leaf next n (s.level h - s.bits) = some (b, next')) :
    Filled s h (k + 1) b.node := by
  induction hn generalizing b next' with
  | leaf => simp [Node.appendLeaf?] at happ
  | @inner h m id cs init last split room before edge _ ih =>
      subst split
      rw [Nat.add_sub_cancel] at hlev
      have hlast : last.count < Word.count := by
        rw [count_inner] at hlt
        exact (count_le_of_mem (by simp)).trans_lt hlt
      rw [Shape.level_succ_sub] at happ
      cases h with
      | zero =>
          rw [appendLeaf?_level_zero hs] at happ
          split at happ
          · cases happ
          · next hw =>
            cases happ
            cases edge with
            | @leaf l full =>
                have hedge : Filled s 0 (s.leaves 0) (.leaf l) := by
                  rw [Shape.leaves_zero]
                  exact .leaf full
                have hnode := appendChild leaf.items.length next (Nat.lt_of_not_le hw) hlev hlast
                  before hedge (.leaf hfull)
                rwa [Shape.leaves_zero] at hnode ⊢
      | succ h =>
          have hlev' : s.level h < Word.width := (Shape.level_mono (Nat.le_succ h)).trans_lt hlev
          rw [appendLeaf?_level_succ hs] at happ
          cases hrec : Node.appendLeaf? s leaf next last (s.level (h + 1) - s.bits) with
          | some r =>
              rw [hrec] at happ
              cases happ
              exact inner rfl room before (ih hlev' hlast hrec)
          | none =>
              rw [hrec] at happ
              dsimp only at happ
              split at happ
              · cases happ
              · next hw =>
                cases happ
                obtain rfl : m = s.leaves (h + 1) :=
                  edge.edgeFull_iff.mp (((edge.sound hlev').appendLeaf?_eq_none_iff hs).mp hrec)
                exact appendChild _ _ (Nat.lt_of_not_le hw) hlev hlast before edge
                  (path hfull h next)

/-! ### Replacing an element -/

/-- A filled tree with one child replaced by a tree that is filled like it. -/
lemma setChild {m slot : Nat} {init : List (Node α)} {last c c' : Node α}
    (room : init.length < 2 ^ s.bits) (before : ∀ d ∈ init, Filled s h (s.leaves h) d)
    (edge : Filled s h m last) (hc : (init ++ [last])[slot]? = some c)
    (hinit : c ∈ init → Filled s h (s.leaves h) c') (hlast : c = last → Filled s h m c')
    (id' : NodeId) :
    Filled s (h + 1) (init.length * s.leaves h + m)
      (.inner id' ((init ++ [last]).set slot c') none) := by
  by_cases hslot : slot < init.length
  · rw [List.getElem?_append_left hslot] at hc
    have hlength : (init.set slot c').length = init.length := List.length_set
    rw [← hlength] at room ⊢
    refine inner (List.set_append_left slot c' hslot) room (fun d hd => ?_) edge
    rcases List.mem_or_eq_of_mem_set hd with hd | rfl
    · exact before d hd
    · exact hinit (List.mem_of_getElem? hc)
  · obtain rfl : slot = init.length := by
      have hbound := (List.getElem?_eq_some_iff.mp hc).1
      rw [List.length_append, List.length_singleton] at hbound
      omega
    obtain rfl : last = c := by simpa using hc
    exact inner (by simp) room before (hlast rfl)

/-- A filled tree stays filled when an element is replaced. -/
theorem set? (hn : Filled s h k n) {n' : Node α} {x : α} {next next' : NodeId} {shift idx : Nat}
    (hset : n.set? s x next shift idx = some (n', next')) : Filled s h k n' := by
  induction hn generalizing n' next' shift idx with
  | leaf full =>
      rw [Node.set?] at hset
      split at hset
      · cases hset
        exact .leaf (by rwa [List.length_set])
      · cases hset
  | @inner h m id cs init last split room before edge ihbefore ih =>
      subst split
      rw [Node.set?] at hset
      split at hset
      · split at hset
        · next hbelow =>
          cases hset
          rw [setBelow?_eq, Option.bind_eq_some_iff] at hbelow
          obtain ⟨c, hc, hbelow⟩ := hbelow
          obtain ⟨⟨c', next₁⟩, hrec, heq⟩ := Option.map_eq_some_iff.mp hbelow
          cases heq
          refine setChild room before edge hc (fun hmem => ihbefore c hmem hrec) ?_ next₁
          rintro rfl
          exact ih hrec
        · cases hset
      · cases hset

end Filled

/-! ### Rows -/

/-- Full nodes: a leaf with as many elements, or an inner node with as many children as there is
room for. -/
def Full (s : Shape) : Node α → Prop
  | .leaf l => l.items.length = 2 ^ s.leafBits
  | .inner _ cs _ => cs.length = 2 ^ s.bits

namespace Filled

variable {h k d : Nat} {n m : Node α}

/-- All nodes of a full tree are full. -/
lemma full_of_eq_leaves (hn : Filled s h k n) (hk : k = s.leaves h) (hm : m ∈ n.row d) :
    m.Full s := by
  induction d generalizing n h k with
  | zero =>
      rw [row_zero, List.mem_singleton] at hm
      subst hm
      cases hn with
      | leaf full => exact full
      | inner split room _ edge =>
          obtain ⟨hpos, hle⟩ := edge.leaves_bounds
          rw [Shape.leaves_succ, mul_add_eq_mul_iff room hpos hle] at hk
          rw [Full, split, List.length_append, List.length_singleton]
          exact hk.1
  | succ d ih =>
      rw [row_succ, List.mem_flatMap] at hm
      obtain ⟨c, hc, hm⟩ := hm
      cases hn with
      | leaf => cases hc
      | inner split room before edge =>
          obtain ⟨hpos, hle⟩ := edge.leaves_bounds
          rw [Shape.leaves_succ, mul_add_eq_mul_iff room hpos hle] at hk
          rw [children_inner, split] at hc
          rcases List.mem_append.mp hc with hc | hc
          · exact ih (before c hc) rfl hm
          · rw [List.mem_singleton.mp hc] at hm
            exact ih edge hk.2 hm

/-- In each row all nodes but the last are full. -/
theorem full_of_mem_row (hn : Filled s h k n) (hm : m ∈ (n.row d).dropLast) : m.Full s := by
  induction d generalizing n h k with
  | zero => cases hm
  | succ d ih =>
      cases hn with
      | leaf => cases hm
      | @inner h k id cs init last split _ before edge =>
          have hrow : (Node.inner id cs none).row (d + 1) =
              init.flatMap (fun c => c.row d) ++ last.row d := by
            rw [row_succ, children_inner, split, List.flatMap_append, List.flatMap_singleton]
          rw [hrow, List.dropLast_append] at hm
          have hmem : m ∈ init.flatMap (fun c => c.row d) ∨ m ∈ (last.row d).dropLast := by
            split at hm
            · exact .inl (List.mem_of_mem_dropLast hm)
            · exact List.mem_append.mp hm
          rcases hmem with hmem | hmem
          · obtain ⟨c, hc, hmc⟩ := List.mem_flatMap.mp hmem
            exact (before c hc).full_of_eq_leaves rfl hmc
          · exact ih edge hmem

end Filled

/-! ### What determines a filled tree -/

/-- What is left of a tree without its elements and the identities of its nodes. -/
def skeleton (n : Node α) : Node Unit := n.map (fun _ => 0) fun _ => ()

/-- Filled trees of one height with one number of leaves differ in elements and identities only. -/
theorem Filled.skeleton_eq {h k : Nat} {n : Node α} {m : Node β} (hn : Filled s h k n)
    (hm : Filled s h k m) : n.skeleton = m.skeleton := by
  induction hn generalizing m with
  | leaf full =>
      cases hm with
      | leaf full' =>
          rw [skeleton, skeleton, Node.map, Node.map, List.map_const', List.map_const', full, full']
  | @inner h k id cs init last split room before edge ihbefore ih =>
      generalize hk : init.length * s.leaves h + k = leaves at hm
      cases hm with
      | @inner _ k' id' cs' init' last' split' room' before' edge' =>
          obtain ⟨hpos, hle⟩ := edge.leaves_bounds
          obtain ⟨hpos', hle'⟩ := edge'.leaves_bounds
          obtain ⟨hlength, rfl⟩ := mul_add_inj hpos hle hpos' hle' hk
          have hinit : init.map skeleton = init'.map skeleton := by
            refine List.ext_getElem (by rwa [List.length_map, List.length_map]) fun i hi hi' => ?_
            rw [List.getElem_map, List.getElem_map]
            exact ihbefore _ (List.getElem_mem _) (before' _ (List.getElem_mem _))
          have hlast : last.skeleton = last'.skeleton := ih edge'
          have hcs : cs.map skeleton = cs'.map skeleton := by
            rw [split, split', List.map_append, List.map_append, hinit, List.map_singleton,
              List.map_singleton, hlast]
          rw [skeleton, skeleton, Node.map, Node.map, mapAll_eq, mapAll_eq]
          exact congrArg (Node.inner 0 · none) hcs

end Node

end RadixPool
