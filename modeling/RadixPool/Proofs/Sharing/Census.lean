import Mathlib
import RadixPool.Proofs.Sharing.Counts
import RadixPool.Sharing.Census

/-!
What a listing says.

A node gets its number before the nodes below it are walked, and its entry after them. What is
said of a visit is therefore that the nodes which it newly numbers have their entries in the end,
and that it touches no earlier entry. At the end of a listing all numbered nodes have entries, and
since these name the children by their numbers, the listing tells which vectors share which nodes.

* `Census.Formed`: the numbers given out are those from 0 on, one for each node.
* `Census.Entered`: an entry describes a node.
* `Census.Visits`: what a visit of some nodes does; `Census.visits_node` for a tree,
  `Census.visits_vecs` for a family of vectors.
* `Census.Lists`, `Census.lists_visitVecs`: the listing of a family.
-/

namespace RadixPool.Census

variable {α ε : Type} {H : Heap α} {write : α → ε} {c c' c'' : Census ε} {k : Nat}

/-- The numbers below the count are given out, each of them to one node, and no entry is under
another number. -/
structure Formed (c : Census ε) : Prop where
  inj : ∀ {i j k}, c.numbers.get? i = some k → c.numbers.get? j = some k → i = j
  range : ∀ k, (∃ i, c.numbers.get? i = some k) ↔ k < c.count
  size : c.numbers.size = c.count
  bounded : ∀ {k e}, c.entries.get? k = some e → k < c.count

lemma Formed.empty : (empty : Census ε).Formed where
  inj := fun hi => nomatch hi
  range := fun k => ⟨fun ⟨_, hi⟩ => (nomatch hi), fun hk => absurd hk (Nat.not_lt_zero k)⟩
  size := rfl
  bounded := fun he => nomatch he

/-- A further node gets the next number. -/
lemma Formed.insert (hc : c.Formed) {i : NodeId} (hi : c.numbers.get? i = none) :
    (⟨c.numbers.insert i c.count, c.count + 1, c.entries⟩ : Census ε).Formed := by
  have hlt : ∀ {j k}, c.numbers.get? j = some k → k < c.count := fun hj => (hc.range _).mp ⟨_, hj⟩
  refine ⟨fun {j j' k} hj hj' => ?_, fun k => ?_, ?_, fun he => Nat.lt_succ_of_lt (hc.bounded he)⟩
  · rw [KeyMap.get?_insert] at hj hj'
    split at hj <;> split at hj'
    · next h h' => exact h.trans h'.symm
    · exact absurd (hlt hj') (Option.some.inj hj ▸ Nat.lt_irrefl _)
    · exact absurd (hlt hj) (Option.some.inj hj' ▸ Nat.lt_irrefl _)
    · exact hc.inj hj hj'
  · rw [Nat.lt_succ_iff_lt_or_eq, ← hc.range]
    constructor
    · rintro ⟨j, hj⟩
      rw [KeyMap.get?_insert] at hj
      split at hj
      · exact .inr (Option.some.inj hj).symm
      · exact .inl ⟨j, hj⟩
    · rintro (⟨j, hj⟩ | rfl)
      · exact ⟨j, KeyMap.Sub.insert c.count hi j k hj⟩
      · exact ⟨i, KeyMap.get?_insert_self ..⟩
  · rw [KeyMap.size_insert c.count hi, hc.size]

/-- A node that has a number gets an entry. -/
lemma Formed.withEntry (hc : c.Formed) (hk : k < c.count) (entry : NodeEntry ε) :
    (⟨c.numbers, c.count, c.entries.insert k entry⟩ : Census ε).Formed where
  inj := hc.inj
  range := hc.range
  size := hc.size
  bounded := fun he => by
    rw [KeyMap.get?_insert] at he
    split at he
    · next heq => exact heq ▸ hk
    · exact hc.bounded he

/-- The entry under a number describes a node: it has the elements of a leaf, and the table and the
numbers of the children of an inner node. -/
def Entered (write : α → ε) (c : Census ε) (k : Nat) : Node α → Prop
  | .leaf l => c.entries.get? k = some (.leaf (l.items.map write))
  | .inner _ cs sizes => ∃ ks, c.entries.get? k = some (.inner ks sizes) ∧
      List.Forall₂ (fun d k => c.numbers.get? d.id = some k) cs ks

lemma Entered.mono {n : Node α} (h : c.Entered write k n) (hsub : c.numbers.Sub c'.numbers)
    (hkept : c'.entries.get? k = c.entries.get? k) : c'.Entered write k n := by
  cases n with
  | leaf l => exact hkept.trans h
  | inner id cs sizes =>
      obtain ⟨ks, hentry, hks⟩ := h
      exact ⟨ks, hkept.trans hentry, hks.imp fun d k hd => hsub d.id k hd⟩

lemma Entered.exists_entry {n : Node α} (h : c.Entered write k n) :
    ∃ e, c.entries.get? k = some e := by
  cases n with
  | leaf l => exact ⟨_, h⟩
  | inner id cs sizes =>
      obtain ⟨ks, hentry, -⟩ := h
      exact ⟨_, hentry⟩

/-! ### Visits -/

/-- A listing after some trees were visited, which have the numbers `ks`: the nodes that are newly
numbered lie in these trees and have entries, and the entries that were there stay. -/
structure Visits (H : Heap α) (write : α → ε) (ns : List (Node α)) (ks : List Nat)
    (c c' : Census ε) : Prop where
  formed : c'.Formed
  sub : c.numbers.Sub c'.numbers
  count_le : c.count ≤ c'.count
  kept : ∀ k < c.count, c'.entries.get? k = c.entries.get? k
  named : List.Forall₂ (fun n k => c'.numbers.get? n.id = some k) ns ks
  only : ∀ {i k}, c'.numbers.get? i = some k → c.numbers.get? i = none →
    ∃ n ∈ ns, ∃ m ∈ n.nodes, m.id = i
  entered : ∀ {n k}, n.Known H → c'.numbers.get? n.id = some k → c.numbers.get? n.id = none →
    c'.Entered write k n

/-- Nothing is done for a node that has a number. -/
lemma Visits.of_named (hc : c.Formed) {ns : List (Node α)} {ks : List Nat}
    (hns : List.Forall₂ (fun n k => c.numbers.get? n.id = some k) ns ks) :
    Visits H write ns ks c c where
  formed := hc
  sub := .refl _
  count_le := Nat.le_refl _
  kept := fun _ _ => rfl
  named := hns
  only := fun hi hnew => nomatch hnew.symm.trans hi
  entered := fun _ hi hnew => nomatch hnew.symm.trans hi

lemma Visits.append {ns ms : List (Node α)} {ks ls : List Nat} (h : Visits H write ns ks c c')
    (h' : Visits H write ms ls c' c'') : Visits H write (ns ++ ms) (ks ++ ls) c c'' where
  formed := h'.formed
  sub := h.sub.trans h'.sub
  count_le := h.count_le.trans h'.count_le
  kept := fun k hk => (h'.kept k (hk.trans_le h.count_le)).trans (h.kept k hk)
  named := List.rel_append (h.named.imp fun n k hn => h'.sub n.id k hn) h'.named
  only := fun {i k} hi hnew => by
    cases hi' : c'.numbers.get? i with
    | none =>
        obtain ⟨n, hn, hm⟩ := h'.only hi hi'
        exact ⟨n, List.mem_append_right ns hn, hm⟩
    | some k' =>
        obtain ⟨n, hn, hm⟩ := h.only hi' hnew
        exact ⟨n, List.mem_append_left ms hn, hm⟩
  entered := fun {n k} hn hk hnew => by
    cases hk' : c'.numbers.get? n.id with
    | none => exact h'.entered hn hk hk'
    | some k' =>
        obtain rfl := Option.some.inj ((h'.sub _ _ hk').symm.trans hk)
        exact (h.entered hn hk' hnew).mono h'.sub (h'.kept k' ((h.formed.range k').mp ⟨_, hk'⟩))

lemma visits_leaf {l : Leaf α} (hl : (Node.leaf l).Known H) (hc : c.Formed) :
    Visits H write [.leaf l] [(visitLeaf write l c).1] c (visitLeaf write l c).2 := by
  rw [visitLeaf]
  split
  · next k hk => exact .of_named hc (.cons hk .nil)
  · next hnew =>
    have hself : (c.numbers.insert l.id c.count).get? l.id = some c.count :=
      KeyMap.get?_insert_self ..
    -- the leaf is all that is new
    have hold : ∀ {i k}, (c.numbers.insert l.id c.count).get? i = some k →
        c.numbers.get? i = none → i = l.id := by
      intro i k hi hnone
      rw [KeyMap.get?_insert, hnone] at hi
      by_contra hne
      rw [if_neg hne] at hi
      cases hi
    refine ⟨(hc.insert hnew).withEntry (Nat.lt_succ_self _) _, .insert _ hnew, Nat.le_succ _,
      fun k hk => ?_, .cons hself .nil, fun hi hnone => ?_, fun {n k} hn hk hnone => ?_⟩
    · rw [KeyMap.get?_insert, if_neg hk.ne]
    · exact ⟨_, List.mem_singleton_self _, _, Node.mem_nodes_self _, (hold hi hnone).symm⟩
    · obtain rfl := hn.eq_of_id hl (hold hk hnone)
      obtain rfl := Option.some.inj (hself.symm.trans hk)
      exact KeyMap.get?_insert_self ..

/-- Trees are visited one after the other. -/
lemma visits_all {ds : List (Node α)}
    (hvisit : ∀ d ∈ ds, ∀ {c : Census ε}, c.Formed →
      Visits H write [d] [(visit write d c).1] c (visit write d c).2) (hc : c.Formed) :
    Visits H write ds (visitAll write ds c).1 c (visitAll write ds c).2 := by
  induction ds generalizing c with
  | nil =>
      rw [visitAll]
      exact .of_named hc .nil
  | cons d ds ih =>
      rw [visitAll]
      have hd := hvisit d List.mem_cons_self hc
      exact hd.append (ih (fun e he => hvisit e (List.mem_cons_of_mem d he)) hd.formed)

variable (write) in
/-- A tree is visited. -/
theorem visits_node {n : Node α} (hn : n.Known H) (hc : c.Formed) :
    Visits H write [n] [(visit write n c).1] c (visit write n c).2 := by
  induction n using Node.induct generalizing c with
  | leaf l =>
      rw [visit]
      exact visits_leaf hn hc
  | inner i cs sizes ih =>
      rw [visit]
      split
      · next k hk => exact .of_named hc (.cons hk .nil)
      · next hnew =>
        have hcs := (Node.known_inner_iff.mp hn).2
        have hall := visits_all (fun d hd {c} hc => ih d hd (hcs d hd) hc) (hc.insert hnew)
        obtain ⟨ks, c₂, hrun⟩ : ∃ ks c₂, visitAll write cs
            ⟨c.numbers.insert i c.count, c.count + 1, c.entries⟩ = (ks, c₂) := ⟨_, _, rfl⟩
        rw [hrun] at hall
        dsimp only
        rw [hrun]
        have hself : c₂.numbers.get? i = some c.count :=
          hall.sub _ _ (KeyMap.get?_insert_self ..)
        have hother : ∀ {j}, j ≠ i → c.numbers.get? j = none →
            (c.numbers.insert i c.count).get? j = none := by
          intro j hne hnone
          rw [KeyMap.get?_insert, if_neg hne, hnone]
        refine ⟨hall.formed.withEntry hall.count_le _,
          (KeyMap.Sub.insert _ hnew).trans hall.sub, (Nat.le_succ _).trans hall.count_le,
          fun k hk => ?_, .cons hself .nil, fun {j k} hj hnone => ?_, fun {m k} hm hk hnone => ?_⟩
        · rw [KeyMap.get?_insert, if_neg hk.ne]
          exact hall.kept k (hk.trans (Nat.lt_succ_self _))
        · refine ⟨_, List.mem_singleton_self _, ?_⟩
          by_cases hji : j = i
          · exact ⟨_, Node.mem_nodes_self _, hji.symm⟩
          · obtain ⟨d, hd, m, hm, hid⟩ := hall.only hj (hother hji hnone)
            exact ⟨m, Node.mem_nodes_inner.mpr (.inr ⟨d, hd, hm⟩), hid⟩
        · by_cases hmi : m.id = i
          · -- the node itself has its entry now, with the numbers of its children
            obtain rfl := hm.eq_of_id hn hmi
            obtain rfl := Option.some.inj (hself.symm.trans hk)
            exact ⟨ks, KeyMap.get?_insert_self .., hall.named⟩
          · refine (hall.entered hm hk (hother hmi hnone)).mono (.refl _) ?_
            rw [KeyMap.get?_insert, if_neg]
            rintro rfl
            exact hmi (hall.formed.inj hk hself)

/-! ### Listings that start empty -/

section

variable {ns : List (Node α)} {ks : List Nat} (h : Visits H write ns ks empty c)
  (hns : ∀ n ∈ ns, n.Known H)

include h hns

/-- The nodes below the visited trees have numbers, and no others. -/
lemma Visits.number_iff {i : NodeId} :
    (∃ k, c.numbers.get? i = some k) ↔ ∃ n ∈ ns, ∃ m ∈ n.nodes, m.id = i := by
  constructor
  · rintro ⟨k, hk⟩
    exact h.only hk rfl
  · rintro ⟨n, hn, m, hm, rfl⟩
    -- an entry names the children by their numbers, so they have some
    have hclosed : ∀ {i cs sizes}, (Node.inner i cs sizes).Known H →
        i ∈ {i | ∃ k, c.numbers.get? i = some k} →
          ∀ d ∈ cs, d.id ∈ {i | ∃ k, c.numbers.get? i = some k} := by
      rintro i cs sizes hknown ⟨k, hk⟩ d hd
      obtain ⟨ls, -, hls⟩ := h.entered hknown hk rfl
      obtain ⟨j, hj, rfl⟩ := List.getElem_of_mem hd
      exact ⟨_, hls.get hj (hls.length_eq ▸ hj)⟩
    obtain ⟨j, hj, rfl⟩ := List.getElem_of_mem hn
    have hnamed := h.named.get hj (h.named.length_eq ▸ hj)
    exact Node.Known.id_mem_of_closed hclosed (hns _ hn) ⟨_, hnamed⟩ hm

/-- Every number has an entry. -/
lemma Visits.entry_iff (k : Nat) : (∃ e, c.entries.get? k = some e) ↔ k < c.count := by
  refine ⟨fun ⟨e, he⟩ => h.formed.bounded he, fun hk => ?_⟩
  obtain ⟨i, hi⟩ := (h.formed.range k).mpr hk
  obtain ⟨n, hn, m, hm, rfl⟩ := h.only hi rfl
  exact (h.entered ((hns n hn).of_mem_nodes hm) hi rfl).exists_entry

end

/-! ### Families of vectors -/

/-- Lists some vectors in turn. -/
def visitVecs (write : α → ε) : List (Vec α) → Census ε → List VecEntry × Census ε
  | [], c => ([], c)
  | v :: vs, c =>
    let (e, c) := visitVec write v c
    let (es, c) := visitVecs write vs c
    (e :: es, c)

/-- A vector is listed with the numbers of its root and its tail. -/
structure Names (c : Census ε) (v : Vec α) (e : VecEntry) : Prop where
  root : c.numbers.get? v.root.id = some e.root
  tail : c.numbers.get? v.tail.id = some e.tail
  len : e.len = v.len
  shift : e.shift = v.shift

variable (write) in
/-- The vectors of a family are visited one after the other. -/
theorem visits_vecs {vs : List (Vec α)} (hvs : ∀ v ∈ vs, v.Known H) (hc : c.Formed) :
    (∃ ks, Visits H write (vs.flatMap Vec.tops) ks c (visitVecs write vs c).2) ∧
      List.Forall₂ (visitVecs write vs c).2.Names vs (visitVecs write vs c).1 := by
  induction vs generalizing c with
  | nil => exact ⟨⟨[], .of_named hc .nil⟩, .nil⟩
  | cons v vs ih =>
      obtain ⟨hv, hvs⟩ := List.forall_mem_cons.mp hvs
      have hroot : v.root.node.Known H := hv.of_mem_tops (by simp [Vec.tops])
      have htail : (Node.leaf v.tail).Known H := hv.of_mem_tops (by simp [Vec.tops])
      have hnode := visits_node write hroot hc
      have hvec := hnode.append (visits_leaf htail hnode.formed)
      obtain ⟨⟨ks, hrest⟩, hnames⟩ := ih hvs hvec.formed
      refine ⟨⟨_, hvec.append hrest⟩, .cons ⟨?_, ?_, rfl, rfl⟩ hnames⟩
      · exact hrest.sub _ _ (List.forall₂_cons.mp hvec.named).1
      · exact hrest.sub _ _ (List.forall₂_cons.mp (List.forall₂_cons.mp hvec.named).2).1

/-- A listing of a family of vectors. -/
structure Lists (write : α → ε) (vs : List (Vec α)) (es : List VecEntry) (c : Census ε) :
    Prop where
  /-- The nodes of the vectors have numbers, and no others. -/
  numbered : ∀ i, (∃ k, c.numbers.get? i = some k) ↔ i ∈ Vec.ids vs
  /-- Different nodes have different numbers. -/
  inj : ∀ {i j k}, c.numbers.get? i = some k → c.numbers.get? j = some k → i = j
  /-- The numbers are those below the number of nodes. -/
  range : ∀ k, (∃ i, c.numbers.get? i = some k) ↔ k < (Vec.ids vs).card
  /-- The vectors are listed with the numbers of their roots and tails. -/
  vectors : List.Forall₂ c.Names vs es
  /-- Every node has its entry. -/
  entry : ∀ v ∈ vs, ∀ n ∈ v.nodes, ∃ k, c.numbers.get? n.id = some k ∧ c.Entered write k n
  /-- The entries are listed by their numbers. -/
  listed : ∀ k, c.nodes[k]? = c.entries.get? k
  /-- There are no others. -/
  length : c.nodes.length = (Vec.ids vs).card

/-- The listing of a family names each of its nodes by one number and describes it by one entry,
so two vectors share a node exactly if the listing names it by one number for both. -/
theorem lists_visitVecs {vs : List (Vec α)} (hvs : ∀ v ∈ vs, v.Known H) :
    Lists write vs (visitVecs write vs empty).1 (visitVecs write vs empty).2 := by
  obtain ⟨⟨ks, hvisits⟩, hnames⟩ := visits_vecs write hvs (Formed.empty (ε := ε))
  have htops : ∀ n ∈ vs.flatMap Vec.tops, n.Known H := by
    intro n hn
    obtain ⟨v, hv, hn⟩ := List.mem_flatMap.mp hn
    exact (hvs v hv).of_mem_tops hn
  have hids : ∀ i, (∃ k, (visitVecs write vs empty).2.numbers.get? i = some k) ↔
      i ∈ Vec.ids vs := by
    intro i
    rw [hvisits.number_iff htops, Vec.mem_ids]
    simp only [List.mem_flatMap, Vec.mem_nodes_iff]
    tauto
  have hcount : (visitVecs write vs empty).2.count = (Vec.ids vs).card := by
    rw [← hvisits.formed.size, KeyMap.size_eq_card hids]
  have hlisted := hvisits.entry_iff htops
  refine ⟨hids, hvisits.formed.inj, hcount ▸ hvisits.formed.range, hnames, fun v hv n hn => ?_,
    KeyMap.getElem?_values hlisted, ?_⟩
  · obtain ⟨k, hk⟩ := (hids n.id).mpr (Vec.mem_ids.mpr ⟨v, hv, n, hn, rfl⟩)
    exact ⟨k, hk, hvisits.entered ((hvs v hv).of_mem_nodes hn) hk rfl⟩
  · have hsize : (visitVecs write vs empty).2.entries.size = (Vec.ids vs).card := by
      rw [← KeyMap.length_keys, KeyMap.keys_eq_range hlisted, List.length_range, hcount]
    rw [nodes, List.length_map]
    exact hsize

end RadixPool.Census
