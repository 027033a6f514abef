import Mathlib
import RadixPool.Proofs.Archive.Isomorphic
import RadixPool.Proofs.Pool.Loaded

/-!
The numbers of keys.

A document may number its nodes as it likes and list them in any order. The planner starts from the
least key and goes on upwards, so other numbers make it meet the nodes in another order; but whether
there is a rating for it to find does not depend on them, and neither do the nodes that are built.

* `Pool.Alike`: pools with the same entries under corresponding keys.
* `Pool.Alike.exists_ofPool`: such pools are accepted alike.
* `Pool.Alike.eq_map_of_built`: the nodes built for corresponding keys are copies of each other.
* `PoolDraft.Renumbers`: a draft with other numbers, in another order.
* `Loader.loadAll_renumbered`: documents with other numbers are accepted alike, and their vectors
  are loaded as copies with the same sharing.
-/

namespace RadixPool

variable {α : Type} {s : Shape}

/-! ### Corresponding keys -/

/-- Of two lists in a relation, each entry of the second one has a partner in the first one. -/
lemma exists_partner {β γ : Type} {R : β → γ → Prop} {bs : List β} {cs : List γ}
    (h : List.Forall₂ R bs cs) {c : γ} (hc : c ∈ cs) : ∃ b ∈ bs, R b c := by
  induction h with
  | nil => cases hc
  | @cons b c' bs cs hbc _ ih =>
      rcases List.mem_cons.mp hc with rfl | hc
      · exact ⟨b, List.mem_cons_self, hbc⟩
      · obtain ⟨b', hb', hR⟩ := ih hc
        exact ⟨b', List.mem_cons_of_mem b hb', hR⟩

/-- Two lists that are related to a third one entry by entry are related to each other. -/
lemma forall₂_of_common {β γ δ : Type} {A : β → γ → Prop} {B : β → δ → Prop} {bs : List β}
    {cs : List γ} {ds : List δ} (hA : List.Forall₂ A bs cs) (hB : List.Forall₂ B bs ds) :
    List.Forall₂ (fun c d => ∃ b, A b c ∧ B b d) cs ds := by
  induction hA generalizing ds with
  | nil =>
      cases hB
      exact .nil
  | cons hhead _ ih =>
      cases hB with
      | cons hhead' htail' => exact .cons ⟨_, hhead, hhead'⟩ (ih htail')

/-- Inner nodes with one flag whose children correspond. -/
structure PooledBranch.Alike (R : Key → Key → Prop) (e e' : PooledBranch) : Prop where
  children : List.Forall₂ R e.children e'.children
  relaxed : e'.relaxed = e.relaxed

/-- Vectors whose roots and tails correspond. -/
structure PooledVec.Alike (R : Key → Key → Prop) (v v' : PooledVec) : Prop where
  root : R v.root v'.root
  tail : R v.tail v'.tail

/-- Pools with the same entries under corresponding keys; the correspondence is one to one. -/
structure Pool.Alike (R : Key → Key → Prop) (p p' : Pool α) : Prop where
  unique : Relator.BiUnique R
  shape : p'.shape = p.shape
  inner : ∀ {k e}, p.inners.get? k = some e →
    ∃ k' e', R k k' ∧ p'.inners.get? k' = some e' ∧ e.Alike R e'
  inner' : ∀ {k' e'}, p'.inners.get? k' = some e' →
    ∃ k e, R k k' ∧ p.inners.get? k = some e ∧ e.Alike R e'
  leaf : ∀ {k items}, p.leaves.get? k = some items → ∃ k', R k k' ∧ p'.leaves.get? k' = some items
  leaf' : ∀ {k' items}, p'.leaves.get? k' = some items →
    ∃ k, R k k' ∧ p.leaves.get? k = some items
  vectors : List.Forall₂ (PooledVec.Alike R) p.vectors p'.vectors

variable {R : Key → Key → Prop} {p p' : Pool α} {k k' : Key}

lemma PooledBranch.Alike.symm {e e' : PooledBranch} (h : e.Alike R e') : e'.Alike (flip R) e :=
  ⟨h.children.flip, h.relaxed.symm⟩

namespace Pool.Alike

lemma symm (h : p.Alike R p') : p'.Alike (flip R) p where
  unique := ⟨fun _ _ _ h₁ h₂ => h.unique.2 h₁ h₂, fun _ _ _ h₁ h₂ => h.unique.1 h₁ h₂⟩
  shape := h.shape.symm
  inner he := by
    obtain ⟨k, e, hR, he, halike⟩ := h.inner' he
    exact ⟨k, e, hR, he, halike.symm⟩
  inner' he := by
    obtain ⟨k', e', hR, he', halike⟩ := h.inner he
    exact ⟨k', e', hR, he', halike.symm⟩
  leaf := h.leaf'
  leaf' := h.leaf
  vectors := h.vectors.flip.imp fun _ _ hv => ⟨hv.root, hv.tail⟩

/-- Corresponding keys have corresponding inner nodes. -/
lemma exists_inner (h : p.Alike R p') (hR : R k k') {e : PooledBranch}
    (he : p.inners.get? k = some e) : ∃ e', p'.inners.get? k' = some e' ∧ e.Alike R e' := by
  obtain ⟨q, e', hq, he', halike⟩ := h.inner he
  obtain rfl := h.unique.2 hR hq
  exact ⟨e', he', halike⟩

/-- Corresponding keys have one leaf. -/
lemma get?_leaves (h : p.Alike R p') (hR : R k k') : p'.leaves.get? k' = p.leaves.get? k := by
  refine Option.ext fun items => ⟨fun hk' => ?_, fun hk => ?_⟩
  · obtain ⟨q, hq, hk⟩ := h.leaf' hk'
    obtain rfl := h.unique.1 hR hq
    exact hk
  · obtain ⟨q, hq, hk'⟩ := h.leaf hk
    obtain rfl := h.unique.2 hR hq
    exact hk'

lemma contains (h : p.Alike R p') (hR : R k k') (hk : p.contains k = true) :
    p'.contains k' = true := by
  rw [contains_iff] at hk ⊢
  rcases hk with ⟨e, he⟩ | ⟨items, hitems⟩
  · obtain ⟨e', he', -⟩ := h.exists_inner hR he
    exact .inl ⟨e', he'⟩
  · exact .inr ⟨items, (h.get?_leaves hR).trans hitems⟩

/-- Vectors at one position correspond. -/
lemma vectors_get (h : p.Alike R p') {i : Nat} {v v' : PooledVec} (hv : p.vectors[i]? = some v)
    (hv' : p'.vectors[i]? = some v') : v.Alike R v' := by
  obtain ⟨hi, rfl⟩ := List.getElem?_eq_some_iff.mp hv
  obtain ⟨hi', rfl⟩ := List.getElem?_eq_some_iff.mp hv'
  exact h.vectors.get hi hi'

/-! ### Acceptance -/

/-- A pool that is checked stays so under other keys. -/
lemma checked (h : p.Alike R p') (hp : p.Checked) : p'.Checked where
  leaf hk' := by
    obtain ⟨k, -, hk⟩ := h.leaf' hk'
    rw [h.shape]
    exact hp.leaf hk
  width he' := by
    obtain ⟨k, e, -, he, halike⟩ := h.inner' he'
    rw [h.shape, ← halike.children.length_eq]
    exact hp.width he
  child he' hc' := by
    obtain ⟨k, e, -, he, halike⟩ := h.inner' he'
    obtain ⟨c, hc, hR⟩ := exists_partner halike.children hc'
    exact h.contains hR (hp.child he hc)
  root hv' := by
    obtain ⟨v, hv, halike⟩ := exists_partner h.vectors hv'
    exact h.contains halike.root (hp.root hv)
  tail hv' := by
    obtain ⟨v, hv, halike⟩ := exists_partner h.vectors hv'
    exact h.contains halike.tail (hp.tail hv)

open Classical in
/-- A rating of the first keys as one of the keys that correspond to them. -/
noncomputable def renamed (R : Key → Key → Prop) (look : Rating) : Rating := fun k' =>
  if h : ∃ k, R k k' then look h.choose else none

lemma renamed_of (h : p.Alike R p') (look : Rating) (hR : R k k') :
    renamed R look k' = look k := by
  have hex : ∃ k, R k k' := ⟨k, hR⟩
  rw [renamed, dif_pos hex, h.unique.1 hex.choose_spec hR]

lemma exists_of_renamed (h : p.Alike R p') {look : Rating} {info : NodeInfo}
    (hk' : renamed R look k' = some info) : ∃ k, R k k' ∧ look k = some info := by
  by_cases hex : ∃ k, R k k'
  · obtain ⟨k, hR⟩ := hex
    exact ⟨k, hR, h.renamed_of look hR ▸ hk'⟩
  · rw [renamed, dif_neg hex] at hk'
    cases hk'

/-- A rating that fits a pool fits it under other keys. -/
lemma fits (h : p.Alike R p') {look : Rating} (hf : p.Fits look) : p'.Fits (renamed R look) := by
  refine ⟨fun hk' => ?_, fun {k' info} hk' hleaf' => ?_⟩
  · obtain ⟨k, hR, hk⟩ := h.leaf' hk'
    rw [h.renamed_of look hR, hf.leaf hk]
  · obtain ⟨k, hR, hk⟩ := h.exists_of_renamed hk'
    obtain ⟨e, n, ns, he, hm, rfl⟩ := hf.inner hk ((h.get?_leaves hR).symm.trans hleaf')
    obtain ⟨e', he', halike⟩ := h.exists_inner hR he
    have hchildren : e'.children.map (renamed R look) = e.children.map look := by
      rw [← List.forall₂_eq_eq_eq, List.forall₂_map_left_iff, List.forall₂_map_right_iff]
      exact halike.children.flip.imp fun _ _ hc => h.renamed_of look hc
    refine ⟨e', n, ns, he', ⟨hchildren.trans hm.children, fun hnil => hm.flat ?_, fun hrel => ?_,
      hm.fits, h.shape ▸ hm.level⟩, rfl⟩
    · have hlength := halike.children.length_eq
      rw [hnil] at hlength
      exact List.eq_nil_of_length_eq_zero hlength
    · rw [h.shape]
      exact hm.full (halike.relaxed ▸ hrel)

/-- A pool that is accepted is accepted under other keys. -/
theorem exists_ofPool (h : p.Alike R p') {name : String} {l : Loader α}
    (hl : Loader.ofPool s name p = .ok l) : ∃ l', Loader.ofPool s name p' = .ok l' := by
  have hready := Loader.ready_of_ofPool hl
  obtain ⟨hshape, -, -, plan, -, rfl⟩ := Loader.ofPool_eq_ok_iff.mp hl
  have hrated : ∀ {k' e'}, p'.inners.get? k' = some e' →
      ∃ info, renamed R plan.get? k' = some info := by
    intro k' e' he'
    obtain ⟨k, e, hR, he, -⟩ := h.inner' he'
    obtain ⟨info, hinfo⟩ := hready.rated he
    exact ⟨info, (h.renamed_of plan.get? hR).trans hinfo⟩
  have hroot : ∀ {v'}, v' ∈ p'.vectors → ∃ e', p'.inners.get? v'.root = some e' := by
    intro v' hv'
    obtain ⟨v, hv, halike⟩ := exists_partner h.vectors hv'
    obtain ⟨e, he⟩ := hready.root hv
    obtain ⟨e', he', -⟩ := h.exists_inner halike.root he
    exact ⟨e', he'⟩
  have htail : ∀ {v'}, v' ∈ p'.vectors → ∃ items, p'.leaves.get? v'.tail = some items := by
    intro v' hv'
    obtain ⟨v, hv, halike⟩ := exists_partner h.vectors hv'
    obtain ⟨items, hitems⟩ := hready.tail hv
    exact ⟨items, (h.get?_leaves halike.tail).trans hitems⟩
  obtain ⟨plan', hl'⟩ := Loader.ofPool_of_fits (h.shape.trans hshape) (h.checked hready.checked)
    hroot htail (h.fits hready.fits) hrated name
  exact ⟨_, hl'⟩

/-! ### Nodes -/

section Nodes

variable {plan plan' : Plan} {H H' : Heap α} {built built' : KeyMap (Node α)} {f : NodeId → NodeId}

/-- Two identities are those of nodes built for corresponding keys. -/
def Twins (R : Key → Key → Prop) (built built' : KeyMap (Node α)) (i i' : NodeId) : Prop :=
  ∃ k k' n n', R k k' ∧ built.get? k = some n ∧ built'.get? k' = some n' ∧ n.id = i ∧ n'.id = i'

/-- Of some nodes built for corresponding keys the second ones are copies of the first ones, if
this is so for each of them. -/
lemma eq_mapAll_of_built {ks ks' : List Key} {cs cs' : List (Node α)}
    (hnode : ∀ c ∈ cs, ∀ {k k' c'}, R k k' → built.get? k = some c → built'.get? k' = some c' →
      c' = c.map f id ∧ ∀ m ∈ c.nodes, ∃ i', Twins R built built' m.id i')
    (hR : List.Forall₂ R ks ks') (hcs : ks.map built.get? = cs.map some)
    (hcs' : ks'.map built'.get? = cs'.map some) :
    cs' = Node.mapAll f id cs ∧ ∀ c ∈ cs, ∀ m ∈ c.nodes, ∃ i', Twins R built built' m.id i' := by
  induction hR generalizing cs cs' with
  | nil =>
      obtain rfl : cs = [] := by simpa using hcs.symm
      obtain rfl : cs' = [] := by simpa using hcs'.symm
      exact ⟨rfl, fun _ hc => nomatch hc⟩
  | @cons k k' ks ks' hR _ ih =>
      cases cs with
      | nil => cases hcs
      | cons c cs =>
          cases cs' with
          | nil => cases hcs'
          | cons c' cs' =>
              rw [List.map_cons, List.map_cons, List.cons.injEq] at hcs hcs'
              obtain ⟨hc, htwins⟩ := hnode c List.mem_cons_self hR hcs.1 hcs'.1
              obtain ⟨hall, hrest⟩ :=
                ih (fun d hd => hnode d (List.mem_cons_of_mem c hd)) hcs.2 hcs'.2
              exact ⟨by rw [Node.mapAll, hc, hall], List.forall_mem_cons.mpr ⟨htwins, hrest⟩⟩

variable (h : p.Alike R p') (hb : p.Built plan H built) (hb' : p'.Built plan' H' built')

include h hb hb'

/-- An identity has one twin at most, and is the twin of one at most. -/
lemma twins_unique : Relator.BiUnique (Twins R built built') := by
  constructor
  · rintro i j i' ⟨k, k', n, n', hR, hk, hk', rfl, rfl⟩ ⟨q, q', m, m', hR', hq, hq', rfl, hid⟩
    obtain rfl := hb'.inj hq' hk' hid
    obtain rfl := h.unique.1 hR hR'
    rw [Option.some.inj (hk.symm.trans hq)]
  · rintro i i' j' ⟨k, k', n, n', hR, hk, hk', rfl, rfl⟩ ⟨q, q', m, m', hR', hq, hq', hid, rfl⟩
    obtain rfl := hb.inj hq hk hid
    obtain rfl := h.unique.2 hR hR'
    rw [Option.some.inj (hk'.symm.trans hq')]

omit hb in
/-- For the key that corresponds to one of a leaf a leaf is built, with the same elements. -/
lemma leaf_of_built (hR : R k k') {items : List α} (hentry : p.leaves.get? k = some items)
    {n' : Node α} (hk' : built'.get? k' = some n') :
    ∃ l' : Leaf α, n' = .leaf l' ∧ l'.items = items := by
  have hentry' := (h.get?_leaves hR).trans hentry
  have hmade' := hb'.made hk'
  cases n' with
  | leaf l' => exact ⟨l', rfl, Option.some.inj (hmade'.symm.trans hentry')⟩
  | inner i' cs' sizes' => cases hmade'.1.symm.trans hentry'

omit hb in
/-- For the key that corresponds to one of an inner node an inner node is built, with the children
that were built for the corresponding keys. -/
lemma inner_of_built (hR : R k k') (hleaf : p.leaves.get? k = none) {e : PooledBranch}
    (he : p.inners.get? k = some e) {n' : Node α} (hk' : built'.get? k' = some n') :
    ∃ i' cs', n' = .inner i' cs' (if e.relaxed then some (ends 0 (cs'.map Node.count)) else none) ∧
      ∃ ks', List.Forall₂ R e.children ks' ∧ ks'.map built'.get? = cs'.map some := by
  have hmade' := hb'.made hk'
  obtain ⟨e', he', halike⟩ := h.exists_inner hR he
  cases n' with
  | leaf l' => cases ((h.get?_leaves hR).trans hleaf).symm.trans hmade'
  | inner i' cs' sizes' =>
      obtain ⟨-, e'', he'', hcs', hsizes'⟩ := hmade'
      obtain rfl := Option.some.inj (he'.symm.trans he'')
      rw [halike.relaxed] at hsizes'
      exact ⟨i', cs', by rw [hsizes'], e'.children, halike.children, hcs'⟩

/-- The node built for the second of two corresponding keys is the copy of the one built for the
first, by any function that sends identities to their twins; and all identities below have twins. -/
theorem eq_map_of_built (hf : ∀ {i i'}, Twins R built built' i i' → f i = i')
    (hR : R k k') {n n' : Node α} (hk : built.get? k = some n) (hk' : built'.get? k' = some n') :
    n' = n.map f id ∧ ∀ m ∈ n.nodes, ∃ i', Twins R built built' m.id i' := by
  have htwin : Twins R built built' n.id n'.id := ⟨k, k', n, n', hR, hk, hk', rfl, rfl⟩
  have hid := hf htwin
  have hmade := hb.made hk
  induction n using Node.induct generalizing k k' n' with
  | leaf l =>
      obtain ⟨l', rfl, hitems⟩ := h.leaf_of_built hb' hR hmade hk'
      refine ⟨?_, fun m hm => ?_⟩
      · rw [Node.id_leaf, Node.id_leaf] at hid
        rw [Node.map, hid, List.map_id, ← hitems]
      · rw [Node.nodes, List.mem_singleton] at hm
        exact ⟨_, hm ▸ htwin⟩
  | inner i cs sizes ih =>
      obtain ⟨hleaf, e, he, hcs, hsizes⟩ := hmade
      obtain ⟨i', cs', rfl, ks', hchildren, hcs'⟩ := h.inner_of_built hb' hR hleaf he hk'
      obtain ⟨hall, htwins⟩ := eq_mapAll_of_built (fun c hc _ _ _ hR hc' hc'' =>
        ih c hc hR hc' hc'' ⟨_, _, _, _, hR, hc', hc'', rfl, rfl⟩
          (hf ⟨_, _, _, _, hR, hc', hc'', rfl, rfl⟩) (hb.made hc')) hchildren hcs hcs'
      have hcounts : cs'.map Node.count = cs.map Node.count := by
        rw [hall, Node.mapAll_eq, List.map_map]
        exact List.map_congr_left fun c _ => Node.count_map f id c
      refine ⟨?_, fun m hm => ?_⟩
      · rw [Node.id_inner, Node.id_inner] at hid
        rw [Node.map, hid, ← hall, hsizes, hcounts]
      · rcases Node.mem_nodes_inner.mp hm with rfl | ⟨c, hc, hmc⟩
        · exact ⟨_, htwin⟩
        · exact htwins c hc m hmc

/-- The vector loaded for the second of two corresponding pairs of keys is the copy of the one
loaded for the first. -/
theorem eq_map_of_loads (hf : ∀ {i i'}, Twins R built built' i i' → f i = i') {e e' : PooledVec}
    (halike : e.Alike R e') {n n' : Nat} {u u' : Vec α} (hu : Loader.Loads s built e n u)
    (hu' : Loader.Loads s built' e' n' u') :
    u' = u.map f id ∧ ∀ m ∈ u.nodes, ∃ i', Twins R built built' m.id i' := by
  obtain ⟨hroot, hroots⟩ := h.eq_map_of_built hb hb' hf halike.root hu.root hu'.root
  obtain ⟨htail, htails⟩ := h.eq_map_of_built hb hb' hf halike.tail hu.tail hu'.tail
  refine ⟨hu'.formed.eq_of_resembles (hu.formed.map f id) ⟨?_, ?_⟩, fun m hm => ?_⟩
  · rw [Vec.node_root_map, hroot]
  · rw [Node.map] at htail
    exact Node.leaf.inj htail
  · rw [Vec.nodes, List.mem_append, List.mem_singleton] at hm
    rcases hm with hm | rfl
    · exact hroots m hm
    · exact htails _ (Node.mem_nodes_self _)

/-- Vectors loaded for corresponding pairs of keys are copies by one injective renaming. -/
theorem exists_renaming {us us' : List (Vec α)}
    (hus : List.Forall₂ (fun u u' => ∃ e e' n n', e.Alike R e' ∧ Loader.Loads s built e n u ∧
      Loader.Loads s built' e' n' u') us us') :
    ∃ f : NodeId → NodeId, Function.Injective f ∧ us' = us.map (Vec.map f id) := by
  classical
  have hunique := h.twins_unique hb hb'
  let f : NodeId → NodeId := fun i =>
    if hi : ∃ i', Twins R built built' i i' then hi.choose else 0
  have hf : ∀ {i i'}, Twins R built built' i i' → f i = i' := by
    intro i i' htwin
    have hex : ∃ i', Twins R built built' i i' := ⟨i', htwin⟩
    exact (dif_pos hex).trans (hunique.2 hex.choose_spec htwin)
  have hcopy : List.Forall₂ (fun u u' => u' = u.map f id ∧
      ∀ m ∈ u.nodes, ∃ i', Twins R built built' m.id i') us us' :=
    hus.imp fun u u' ⟨e, e', n, n', halike, hu, hu'⟩ => h.eq_map_of_loads hb hb' hf halike hu hu'
  have htwins : ∀ i ∈ Vec.ids us, Twins R built built' i (f i) := by
    intro i hi
    obtain ⟨u, hu, m, hm, rfl⟩ := Vec.mem_ids.mp hi
    obtain ⟨u', -, -, htwins⟩ := exists_partner hcopy.flip hu
    obtain ⟨i', htwin⟩ := htwins m hm
    exact (hf htwin).symm ▸ htwin
  have hinj : Set.InjOn f (Vec.ids us) := by
    intro i hi j hj heq
    exact hunique.1 (htwins i hi) (heq.symm ▸ htwins j hj)
  obtain ⟨g, hg, heq⟩ := exists_injective_extension hinj
  refine ⟨g, hg, ?_⟩
  rw [← List.forall₂_eq_eq_eq, List.forall₂_map_right_iff]
  refine List.Forall₂.flip (List.forall₂_iff_zip.mpr ⟨hus.length_eq, fun {u u'} hmem => ?_⟩)
  obtain ⟨hu', -⟩ := (List.forall₂_iff_zip.mp hcopy).2 hmem
  rw [hu']
  exact Vec.map_congr id fun m hm =>
    heq m.id (Vec.mem_ids.mpr ⟨u, (List.of_mem_zip hmem).1, m, hm, rfl⟩)

end Nodes

/-- Any vectors of pools with corresponding keys are loaded as copies by one injective renaming. -/
theorem exists_renaming_loadAll (h : p.Alike R p') (hs : s.Valid) (hd : p.Disjoint)
    (hd' : p'.Disjoint) {name : String} {l l' : Loader α} (hl : Loader.ofPool s name p = .ok l)
    (hl' : Loader.ofPool s name p' = .ok l') {is : List Nat} (his : ∀ i ∈ is, i < p.vectors.length)
    (next next' : NodeId) :
    ∃ f : NodeId → NodeId, Function.Injective f ∧ ∃ us : List (Vec α),
      (l.loadAll is next).1.1 = us.map .ok ∧
        (l'.loadAll is next').1.1 = (us.map (Vec.map f id)).map .ok := by
  have hsound := Loader.Sound.ofPool hl fun _ => none
  have hsound' := Loader.Sound.ofPool hl' fun _ => none
  obtain ⟨-, -, -, plan, -, rfl⟩ := Loader.ofPool_eq_ok_iff.mp hl
  obtain ⟨-, -, -, plan', -, rfl⟩ := Loader.ofPool_eq_ok_iff.mp hl'
  have his' : ∀ i ∈ is, i < p'.vectors.length := fun i hi => h.vectors.length_eq ▸ his i hi
  obtain ⟨us, H, l₁, next₁, hload, hlater, hus⟩ :=
    hsound.loadAll_eq_ok hs (fun i (_ : next ≤ i) => rfl) hd his
  obtain ⟨us', H', l₁', next₁', hload', hlater', hus'⟩ :=
    hsound'.loadAll_eq_ok hs (fun i (_ : next' ≤ i) => rfl) hd' his'
  have hb : p.Built l₁.plan H l₁.built := by
    have hb := hlater.sound.built
    rwa [hlater.pool] at hb
  have hb' : p'.Built l₁'.plan H' l₁'.built := by
    have hb' := hlater'.sound.built
    rwa [hlater'.pool] at hb'
  obtain ⟨f, hf, hcopies⟩ := h.exists_renaming hb hb' <|
    (forall₂_of_common hus hus').imp fun u u' ⟨i, ⟨e, n, he, hu⟩, e', n', he', hu'⟩ =>
      ⟨e, e', n, n', h.vectors_get he he', hu, hu'⟩
  exact ⟨f, hf, us, by rw [hload], by rw [hload', hcopies]⟩

end Pool.Alike

/-! ### Drafts -/

/-- An inner node with other keys for its children. -/
def PooledBranch.renumber (σ : Key → Key) (e : PooledBranch) : PooledBranch :=
  ⟨e.children.map σ, e.relaxed⟩

/-- A vector with other keys for its root and its tail. -/
def PooledVec.renumber (σ : Key → Key) (v : PooledVec) : PooledVec := ⟨σ v.root, σ v.tail⟩

namespace PoolDraft

variable {d d' : PoolDraft α} {σ : Key → Key}

/-- The keys that a draft mentions: those of its entries, those of children, and those of roots and
tails. -/
def mentioned (d : PoolDraft α) : List Key :=
  d.keys ++ d.inners.flatMap (fun x => x.2.children) ++ d.vectors.flatMap fun v => [v.root, v.tail]

lemma mem_mentioned_inner {x : Key × PooledBranch} (hx : x ∈ d.inners) : x.1 ∈ d.mentioned :=
  List.mem_append_left _ (List.mem_append_left _
    (List.mem_append_left _ (List.mem_map_of_mem (f := Prod.fst) hx)))

lemma mem_mentioned_leaf {x : Key × List α} (hx : x ∈ d.leaves) : x.1 ∈ d.mentioned :=
  List.mem_append_left _ (List.mem_append_left _
    (List.mem_append_right _ (List.mem_map_of_mem (f := Prod.fst) hx)))

lemma mem_mentioned_child {x : Key × PooledBranch} (hx : x ∈ d.inners) {c : Key}
    (hc : c ∈ x.2.children) : c ∈ d.mentioned :=
  List.mem_append_left _ (List.mem_append_right _ (List.mem_flatMap.mpr ⟨x, hx, hc⟩))

lemma mem_mentioned_end {v : PooledVec} (hv : v ∈ d.vectors) {k : Key} (hk : k ∈ [v.root, v.tail]) :
    k ∈ d.mentioned := List.mem_append_right _ (List.mem_flatMap.mpr ⟨v, hv, hk⟩)

/-- The second draft is the first one with other keys, a different one for each, and with its
entries in any order. -/
structure Renumbers (σ : Key → Key) (d d' : PoolDraft α) : Prop where
  inj : Set.InjOn σ {k | k ∈ d.mentioned}
  bits : d'.bits = d.bits
  leafBits : d'.leafBits = d.leafBits
  inners : d'.inners.Perm (d.inners.map fun x => (σ x.1, x.2.renumber σ))
  leaves : d'.leaves.Perm (d.leaves.map fun x => (σ x.1, x.2))
  vectors : d'.vectors = d.vectors.map (PooledVec.renumber σ)

namespace Renumbers

variable (h : d.Renumbers σ d')

include h

lemma hasShape_iff : d'.HasShape s ↔ d.HasShape s := by
  rw [HasShape, HasShape, h.bits, h.leafBits]

/-- No key occurs twice in the one draft if none does in the other. -/
lemma nodup_keys_iff : d'.keys.Nodup ↔ d.keys.Nodup := by
  have hperm : d'.keys.Perm (d.keys.map σ) := by
    rw [keys, keys, List.map_append, List.map_map, List.map_map]
    have hinners := h.inners.map Prod.fst
    have hleaves := h.leaves.map Prod.fst
    rw [List.map_map] at hinners hleaves
    exact hinners.append hleaves
  have hinj : ∀ k ∈ d.keys, ∀ q ∈ d.keys, σ k = σ q → k = q := fun k hk q hq heq =>
    h.inj (List.mem_append_left _ (List.mem_append_left _ hk))
      (List.mem_append_left _ (List.mem_append_left _ hq)) heq
  rw [hperm.nodup_iff]
  exact ⟨List.Nodup.of_map σ, List.Nodup.map_on hinj⟩

/-- The pools of the drafts have the same entries under corresponding keys. -/
theorem alike (hnd : d.keys.Nodup) :
    (d.pool s).Alike (fun k k' => k ∈ d.mentioned ∧ k' = σ k) (d'.pool s) := by
  have hnd' : d'.keys.Nodup := h.nodup_keys_iff.mpr hnd
  have hbranch : ∀ {x}, x ∈ d.inners →
      x.2.Alike (fun k k' => k ∈ d.mentioned ∧ k' = σ k) (x.2.renumber σ) := fun hx =>
    ⟨List.forall₂_map_right_iff.mpr (List.forall₂_same.mpr fun c hc =>
      ⟨mem_mentioned_child hx hc, rfl⟩), rfl⟩
  refine ⟨⟨?_, ?_⟩, rfl, fun he => ?_, fun he' => ?_, fun hk => ?_, fun hk' => ?_, ?_⟩
  · rintro k q k' ⟨hk, rfl⟩ ⟨hq, heq⟩
    exact h.inj hk hq heq
  · rintro k k' q' ⟨-, rfl⟩ ⟨-, rfl⟩
    rfl
  · have he := (KeyMap.get?_ofList (nodup_inners hnd)).mp he
    exact ⟨_, _, ⟨mem_mentioned_inner he, rfl⟩, (KeyMap.get?_ofList (nodup_inners hnd')).mpr
      (h.inners.mem_iff.mpr (List.mem_map_of_mem he)), hbranch he⟩
  · have he' := (KeyMap.get?_ofList (nodup_inners hnd')).mp he'
    obtain ⟨⟨k, e⟩, he, heq⟩ := List.mem_map.mp (h.inners.mem_iff.mp he')
    obtain ⟨rfl, rfl⟩ := Prod.mk.inj heq
    exact ⟨k, e, ⟨mem_mentioned_inner he, rfl⟩,
      (KeyMap.get?_ofList (nodup_inners hnd)).mpr he, hbranch he⟩
  · have hk := (KeyMap.get?_ofList (nodup_leaves hnd)).mp hk
    exact ⟨_, ⟨mem_mentioned_leaf hk, rfl⟩, (KeyMap.get?_ofList (nodup_leaves hnd')).mpr
      (h.leaves.mem_iff.mpr (List.mem_map_of_mem hk))⟩
  · have hk' := (KeyMap.get?_ofList (nodup_leaves hnd')).mp hk'
    obtain ⟨⟨k, items⟩, hk, heq⟩ := List.mem_map.mp (h.leaves.mem_iff.mp hk')
    obtain ⟨rfl, rfl⟩ := Prod.mk.inj heq
    exact ⟨k, ⟨mem_mentioned_leaf hk, rfl⟩, (KeyMap.get?_ofList (nodup_leaves hnd)).mpr hk⟩
  · have hvectors : (d'.pool s).vectors = d.vectors.map (PooledVec.renumber σ) := h.vectors
    rw [hvectors]
    refine List.forall₂_map_right_iff.mpr (List.forall₂_same.mpr fun v hv => ?_)
    exact ⟨⟨mem_mentioned_end hv (by simp), rfl⟩, ⟨mem_mentioned_end hv (by simp), rfl⟩⟩

end Renumbers

end PoolDraft

/-! ### Documents -/

namespace Loader

variable {read? : Json → Option α} {name name' : String} {j j' : Json} {d d' : PoolDraft α}
  {σ : Key → Key}

/-- A document with other numbers is read and accepted if the first one is. -/
lemma exists_accepted {R : Key → Key → Prop} (hd : PoolDraft.ofJson? read? j = some d)
    (hd' : PoolDraft.ofJson? read? j' = some d') (hshape : d'.HasShape s ↔ d.HasShape s)
    (hkeys : d'.keys.Nodup ↔ d.keys.Nodup)
    (halike : d.keys.Nodup → (d.pool s).Alike R (d'.pool s)) {p : Pool α} {l : Loader α}
    (hp : Pool.ofJson read? name s j = .ok p) (hl : ofPool s name' p = .ok l) :
    ∃ p' l', Pool.ofJson read? name s j' = .ok p' ∧ ofPool s name' p' = .ok l' := by
  obtain ⟨d₁, hd₁, hs, hnd, hcheck, rfl⟩ := Pool.ofJson_eq_ok_iff.mp hp
  obtain rfl := Option.some.inj (hd.symm.trans hd₁)
  obtain ⟨l', hl'⟩ := (halike hnd).exists_ofPool hl
  have hcheck' : (d'.pool s).check name = .ok () :=
    Pool.check_eq_ok_iff.mpr ((halike hnd).checked (Pool.check_eq_ok_iff.mp hcheck))
  exact ⟨d'.pool s, l',
    Pool.ofJson_eq_ok_iff.mpr ⟨d', hd', hshape.mpr hs, hkeys.mpr hnd, hcheck', rfl⟩, hl'⟩

/-- The numbers of keys and the order of the entries mean nothing. If the keys of a document are
renamed, different ones differently and each wherever it occurs, and its inner nodes and its
leaves are listed in another order, then it is read and accepted exactly if it was before. Any
vectors are then loaded from it, in any order and any number of times, as copies of those that
were loaded before: by one injective renaming of the nodes, and so with the same elements,
lengths, levels and tables, and with the same sharing. -/
theorem loadAll_renumbered (hs : s.Valid) (hd : PoolDraft.ofJson? read? j = some d)
    (hd' : PoolDraft.ofJson? read? j' = some d') (hσ : d.Renumbers σ d') :
    ((∃ p l, Pool.ofJson read? name s j' = .ok p ∧ ofPool s name' p = .ok l) ↔
      ∃ p l, Pool.ofJson read? name s j = .ok p ∧ ofPool s name' p = .ok l) ∧
    ∀ {p p' l l'}, Pool.ofJson read? name s j = .ok p → ofPool s name' p = .ok l →
      Pool.ofJson read? name s j' = .ok p' → ofPool s name' p' = .ok l' →
      p'.vectors.length = p.vectors.length ∧
      ∀ is, (∀ i ∈ is, i < p.vectors.length) → ∀ next next', ∃ f : NodeId → NodeId,
        Function.Injective f ∧ ∃ us : List (Vec α), (l.loadAll is next).1.1 = us.map .ok ∧
          (l'.loadAll is next').1.1 = (us.map (Vec.map f id)).map .ok := by
  refine ⟨⟨fun ⟨p', l', hp', hl'⟩ => ?_, fun ⟨p, l, hp, hl⟩ => ?_⟩,
    fun {p p' l l'} hp hl hp' hl' => ?_⟩
  · exact exists_accepted hd' hd hσ.hasShape_iff.symm hσ.nodup_keys_iff.symm
      (fun hnd => (hσ.alike (hσ.nodup_keys_iff.mp hnd)).symm) hp' hl'
  · exact exists_accepted hd hd' hσ.hasShape_iff hσ.nodup_keys_iff hσ.alike hp hl
  · obtain ⟨-, hdisjoint, -⟩ := Pool.ofJson_eq_ok hp
    obtain ⟨-, hdisjoint', -⟩ := Pool.ofJson_eq_ok hp'
    have halike : p.Alike (fun k k' => k ∈ d.mentioned ∧ k' = σ k) p' := by
      obtain ⟨d₁, hd₁, -, hnd, -, rfl⟩ := Pool.ofJson_eq_ok_iff.mp hp
      obtain ⟨d₂, hd₂, -, -, -, rfl⟩ := Pool.ofJson_eq_ok_iff.mp hp'
      obtain rfl := Option.some.inj (hd.symm.trans hd₁)
      obtain rfl := Option.some.inj (hd'.symm.trans hd₂)
      exact hσ.alike hnd
    exact ⟨halike.vectors.length_eq.symm, fun is his next next' =>
      halike.exists_renaming_loadAll hs hdisjoint hdisjoint' hl hl' his next next'⟩

/-- Three vectors, two of which share their root; the keys come in the opposite order, and the
entries change places. -/
theorem loadAll_renumbered_reversed :
    ∃ (j j' : Json) (p p' : Pool Bool) (l l' : Loader Bool),
      Pool.ofJson Json.bool? "pool" ⟨1, 1⟩ j = .ok p ∧ ofPool ⟨1, 1⟩ "pool" p = .ok l ∧
        Pool.ofJson Json.bool? "pool" ⟨1, 1⟩ j' = .ok p' ∧ ofPool ⟨1, 1⟩ "pool" p' = .ok l' ∧
        p.vectors = [⟨0, 2⟩, ⟨0, 1⟩, ⟨3, 2⟩] ∧ p'.vectors = [⟨9, 7⟩, ⟨9, 8⟩, ⟨6, 7⟩] ∧
        ∀ next next', ∃ f : NodeId → NodeId, Function.Injective f ∧ ∃ us : List (Vec Bool),
          (l.loadAll [2, 0, 1] next).1.1 = us.map .ok ∧
            (l'.loadAll [2, 0, 1] next').1.1 = (us.map (Vec.map f id)).map .ok := by
  let j : Json := .arr [.nat 1, .nat 1,
    .arr [.arr [.nat 0, .arr [.arr [.nat 1, .nat 1], .bool false]],
      .arr [.nat 3, .arr [.arr [.nat 2, .nat 1], .bool true]]],
    .arr [.arr [.nat 1, .arr [.bool true, .bool false]], .arr [.nat 2, .arr [.bool true]]],
    .arr [.arr [.nat 0, .nat 2], .arr [.nat 0, .nat 1], .arr [.nat 3, .nat 2]]]
  let j' : Json := .arr [.nat 1, .nat 1,
    .arr [.arr [.nat 6, .arr [.arr [.nat 7, .nat 8], .bool true]],
      .arr [.nat 9, .arr [.arr [.nat 8, .nat 8], .bool false]]],
    .arr [.arr [.nat 7, .arr [.bool true]], .arr [.nat 8, .arr [.bool true, .bool false]]],
    .arr [.arr [.nat 9, .nat 7], .arr [.nat 9, .nat 8], .arr [.nat 6, .nat 7]]]
  let d : PoolDraft Bool := ⟨some 1, some 1, [(0, ⟨[1, 1], false⟩), (3, ⟨[2, 1], true⟩)],
    [(1, [true, false]), (2, [true])], [⟨0, 2⟩, ⟨0, 1⟩, ⟨3, 2⟩]⟩
  let d' : PoolDraft Bool := ⟨some 1, some 1, [(6, ⟨[7, 8], true⟩), (9, ⟨[8, 8], false⟩)],
    [(7, [true]), (8, [true, false])], [⟨9, 7⟩, ⟨9, 8⟩, ⟨6, 7⟩]⟩
  have hs : Shape.Valid ⟨1, 1⟩ := by decide
  have hd : PoolDraft.ofJson? Json.bool? j = some d := rfl
  have hd' : PoolDraft.ofJson? Json.bool? j' = some d' := rfl
  have hle : ∀ k ∈ d.mentioned, k ≤ 9 := by decide
  have hinj : ∀ k q : Nat, k ≤ 9 → q ≤ 9 → 9 - k = 9 - q → k = q := by omega
  have hσ : d.Renumbers (fun k => 9 - k) d' :=
    ⟨fun k hk q hq heq => hinj k q (hle k hk) (hle q hq) heq, rfl, rfl, .swap _ _ _,
      .swap _ _ _, rfl⟩
  have hp : ∃ p l, Pool.ofJson Json.bool? "pool" ⟨1, 1⟩ j = .ok p ∧ ofPool ⟨1, 1⟩ "pool" p = .ok l ∧
      p.vectors = [⟨0, 2⟩, ⟨0, 1⟩, ⟨3, 2⟩] := ⟨_, _, rfl, rfl, rfl⟩
  obtain ⟨p, l, hp, hl, hvectors⟩ := hp
  obtain ⟨hiff, hload⟩ :=
    @loadAll_renumbered Bool ⟨1, 1⟩ Json.bool? "pool" "pool" j j' d d' _ hs hd hd' hσ
  obtain ⟨p', l', hp', hl'⟩ := hiff.mpr ⟨p, l, hp, hl⟩
  obtain ⟨d₂, hd₂, -, -, -, rfl⟩ := Pool.ofJson_eq_ok_iff.mp hp'
  obtain rfl := Option.some.inj (hd'.symm.trans hd₂)
  obtain ⟨-, hall⟩ := hload hp hl hp' hl'
  exact ⟨j, j', p, d'.pool ⟨1, 1⟩, l, l', hp, hl, hp', hl', hvectors, rfl,
    hall [2, 0, 1] (by rw [hvectors]; decide)⟩

end Loader

end RadixPool
