import Mathlib
import RadixPool.Proofs.Pool.Limits
import RadixPool.Proofs.Pool.Loaded
import RadixPool.Proofs.Pool.Places

/-!
What a loader in use remembers.

A loader keeps all nodes that it has built, also those that a request needed which failed in the
end. The answers do not show it: each request is answered as it would have been first, apart from
the identities of the nodes, and all answers are made of the same nodes. And what is kept are
exactly the nodes on the way down from the keys that were looked up.

* `Loader.Request`, `Loader.ask`, `Loader.History`: requests, and the histories of a loader with all
  requests and their answers.
* `Pool.lookups`, `Pool.refusal?`: the keys that are looked up for a request, and why it fails.
* `Loader.Sound.ask`: what one request does; `Loader.History.remembers`: what a history leaves.
* `Loader.Answers.view_eq`: a request is answered alike, whatever has been built before.
* `Loader.History.memoizes`: order and repetition of requests do not matter, nodes are shared
  between all answers, and how many nodes are kept.
-/

namespace RadixPool

variable {α : Type} {s : Shape}

/-- What a vector shows apart from its nodes: its elements, its length and its level. -/
def Vec.view (v : Vec α) : List α × Nat × Nat := (v.toList, v.len, v.shift)

/-! ### Requests -/

/-- What a loader is asked for: the vector at a position, or the vector of two keys. -/
inductive Loader.Request where
  | position (i : Nat)
  | keys (e : PooledVec)

namespace Pool

open Loader (Request)

variable {p : Pool α}

/-- The keys of the vector that a request is about. -/
def entry? (p : Pool α) : Request → Option PooledVec
  | .position i => p.vectors[i]?
  | .keys e => some e

/-- The key at a place of the vector that a request is about. -/
def keyFor? (p : Pool α) (q : Request) (w : Place) : Option Key :=
  (p.entry? q).bind fun e => p.keyAt? e w

/-- The keys that are looked up for the vector of two keys. The tail comes only after a root that is
an inner node. -/
def lookupsOf (p : Pool α) (e : PooledVec) : List Key :=
  if p.contains e.root = true ∧ p.leaves.contains e.root = false then [e.root, e.tail] else [e.root]

/-- The keys that are looked up for a request. -/
def lookups (p : Pool α) (q : Request) : List Key := ((p.entry? q).map p.lookupsOf).getD []

/-- Why there is no vector of two keys. -/
def refusalOf? (p : Pool α) (name : String) (e : PooledVec) : Option Error :=
  if p.contains e.root = false then some (.dangling name (.node e.root))
  else if p.leaves.contains e.root = true then some (.invariant name (.rootIsLeaf e.root))
  else if p.contains e.tail = false then some (.dangling name (.node e.tail))
  else if p.leaves.contains e.tail = false then some (.invariant name (.tailIsInner e.tail))
  else none

/-- Why a request fails. -/
def refusal? (p : Pool α) (name : String) : Request → Option Error
  | .position i =>
    match p.vectors[i]? with
    | some e => p.refusalOf? name e
    | none => some (.dangling name (.vector i))
  | .keys e => p.refusalOf? name e

/-- The kind of a built node is that of its key. -/
lemma Built.contains_leaves {plan : Plan} {H : Heap α} {built : KeyMap (Node α)}
    (hb : p.Built plan H built) {k : Key} {n : Node α} (hk : built.get? k = some n) :
    p.leaves.contains k = n.isLeaf := by
  have hmade := hb.made hk
  cases n with
  | leaf l => exact KeyMap.contains_iff.mpr ⟨_, hmade⟩
  | inner id cs sizes => exact KeyMap.contains_eq_false_iff.mpr hmade.1

/-- A key from which a key in use is reached is in use itself. -/
lemma Reaches.contains {k q : Key} (h : p.Reaches k q) (hq : p.contains q = true) :
    p.contains k = true := by
  cases h with
  | refl => exact hq
  | step _ entry _ _ => exact contains_iff.mpr (.inl ⟨_, entry⟩)

end Pool

namespace Loader

variable {l l' : Loader α} {H H' : Heap α} {next next' : NodeId}

/-- Asks a loader for a vector. -/
def ask (l : Loader α) : Request → Fresh (Except Error (Vec α) × Loader α)
  | .position i => l.load i
  | .keys e => l.vecOf e

/-! ### One request -/

/-- The answer to a request: the reason for which the pool has none, or the vector of the nodes that
are built for its keys. -/
def Answers (s : Shape) (p : Pool α) (name : String) (built : KeyMap (Node α)) (q : Request)
    (r : Except Error (Vec α)) : Prop :=
  match p.refusal? name q with
  | some err => r = .error err
  | none => ∃ e v h, p.entry? q = some e ∧ r = .ok v ∧ Loads s built e h v

/-- An answer stays right when more is built. -/
lemma Answers.mono {p : Pool α} {name : String} {built built' : KeyMap (Node α)} {q : Request}
    {r : Except Error (Vec α)} (hr : Answers s p name built q r) (hsub : built.Sub built') :
    Answers s p name built' q r := by
  rw [Answers] at hr ⊢
  split at hr
  · exact hr
  · obtain ⟨e, v, h, he, hv, hloads⟩ := hr
    exact ⟨e, v, h, he, hv, hloads.mono hsub⟩

/-- What a request does: the keys that are looked up get their nodes, and no others than those below
them do, and the answer is as the pool has it. -/
structure Asked (s : Shape) (l : Loader α) (q : Request) (H : Heap α) (next : NodeId)
    (r : Except Error (Vec α)) (H' : Heap α) (built' : KeyMap (Node α))
    (next' : NodeId) : Prop where
  builds : l.pool.Builds l.plan (l.pool.lookups q) H l.built next H' built' next'
  found : ∀ k ∈ l.pool.lookups q, l.pool.contains k = true → ∃ n, built'.get? k = some n
  answer : Answers s l.pool l.name built' q r

/-- The outcomes for two keys are the answers of the pool. -/
lemma Outcome.asked {e : PooledVec} {r : Except Error (Vec α)} {built' : KeyMap (Node α)}
    (hout : l.Outcome s e H l.built next r H' built' next') :
    l.Asked s (.keys e) H next r H' built' next' := by
  -- with an inner node for the root, both keys are looked up
  have hboth : ∀ {id : NodeId} {cs : List (Node α)} {sizes : Option (List Nat)},
      l.pool.Built l.plan H' built' → built'.get? e.root = some (.inner id cs sizes) →
      l.pool.contains e.root = true ∧ l.pool.leaves.contains e.root = false ∧
        l.pool.lookups (.keys e) = [e.root, e.tail] := by
    intro id cs sizes hb hroot
    have hused := hb.contains hroot
    have hkind := hb.contains_leaves hroot
    exact ⟨hused, hkind, if_pos ⟨hused, hkind⟩⟩
  cases hout with
  | noRoot builds unused =>
      have hlookups : l.pool.lookups (.keys e) = [e.root] := if_neg fun h => by simp [unused] at h
      refine ⟨hlookups ▸ builds, fun k hk hused => ?_, ?_⟩
      · rw [hlookups, List.mem_singleton] at hk
        rw [hk, unused] at hused
        cases hused
      · simp [Answers, Pool.refusal?, Pool.refusalOf?, unused]
  | rootIsLeaf builds root =>
      have hused := builds.after.contains root
      have hkind := builds.after.contains_leaves root
      have hlookups : l.pool.lookups (.keys e) = [e.root] :=
        if_neg fun h => by simp [hkind, Node.isLeaf] at h
      refine ⟨hlookups ▸ builds, fun k hk _ => ?_, ?_⟩
      · rw [hlookups, List.mem_singleton] at hk
        exact ⟨_, hk ▸ root⟩
      · simp [Answers, Pool.refusal?, Pool.refusalOf?, hused, hkind, Node.isLeaf]
  | noTail builds root unused =>
      obtain ⟨hused, hkind, hlookups⟩ := hboth builds.after root
      refine ⟨builds.weaken (by simp [hlookups]), fun k hk hk' => ?_, ?_⟩
      · rw [hlookups, List.mem_cons, List.mem_singleton] at hk
        rcases hk with rfl | rfl
        · exact ⟨_, root⟩
        · rw [unused] at hk'
          cases hk'
      · simp [Answers, Pool.refusal?, Pool.refusalOf?, hused, hkind, unused]
  | tailIsInner builds root tail =>
      obtain ⟨hused, hkind, hlookups⟩ := hboth builds.after root
      have hused' := builds.after.contains tail
      have hkind' := builds.after.contains_leaves tail
      refine ⟨hlookups ▸ builds, fun k hk _ => ?_, ?_⟩
      · rw [hlookups, List.mem_cons, List.mem_singleton] at hk
        rcases hk with rfl | rfl
        · exact ⟨_, root⟩
        · exact ⟨_, tail⟩
      · simp [Answers, Pool.refusal?, Pool.refusalOf?, hused, hkind, hused', hkind', Node.isLeaf]
  | @vec _ _ _ v h builds loads =>
      obtain ⟨hused, hkind, hlookups⟩ := hboth builds.after loads.root
      have hused' := builds.after.contains loads.tail
      have hkind' := builds.after.contains_leaves loads.tail
      have hrefusal : l.pool.refusal? l.name (.keys e) = none := by
        simp [Pool.refusal?, Pool.refusalOf?, hused, hkind, hused', hkind', Node.isLeaf]
      refine ⟨hlookups ▸ builds, fun k hk _ => ?_, ?_⟩
      · rw [hlookups, List.mem_cons, List.mem_singleton] at hk
        rcases hk with rfl | rfl
        · exact ⟨_, loads.root⟩
        · exact ⟨_, loads.tail⟩
      · rw [Answers, hrefusal]
        exact ⟨e, v, h, rfl, rfl, loads⟩

/-- A position stands for the keys there. -/
lemma Asked.position {i : Nat} {e : PooledVec} (hi : l.pool.vectors[i]? = some e)
    {r : Except Error (Vec α)} {built' : KeyMap (Node α)}
    (h : l.Asked s (.keys e) H next r H' built' next') :
    l.Asked s (.position i) H next r H' built' next' := by
  have hentry : l.pool.entry? (.position i) = l.pool.entry? (.keys e) := hi
  have hlookups : l.pool.lookups (.position i) = l.pool.lookups (.keys e) := by
    rw [Pool.lookups, hentry, Pool.lookups]
  have hrefusal : l.pool.refusal? l.name (.position i) = l.pool.refusal? l.name (.keys e) := by
    rw [Pool.refusal?, hi, Pool.refusal?]
  refine ⟨hlookups ▸ h.builds, hlookups ▸ h.found, ?_⟩
  rw [Answers, hrefusal, hentry]
  exact h.answer

/-- What a request does to a sound loader. -/
theorem Sound.ask (hs : s.Valid) (hl : l.Sound s H) (hfree : H.FreeFrom next) (q : Request) :
    ∃ r H' built' next', l.ask q next = ((r, { l with built := built' }), next') ∧
      l.Asked s q H next r H' built' next' := by
  cases q with
  | keys e =>
      obtain ⟨r, H', built', next', hrun, hout⟩ := vecOfM_outcome hs hl.ready hl.built hfree e
      exact ⟨r, H', built', next', vecOf_eq hrun, hout.asked⟩
  | position i =>
      cases hi : l.pool.vectors[i]? with
      | some e =>
          obtain ⟨r, H', built', next', hrun, hout⟩ :=
            vecOfM_outcome hs hl.ready hl.built hfree e
          exact ⟨r, H', built', next', (load_of_getElem? hi).trans (vecOf_eq hrun),
            hout.asked.position hi⟩
      | none =>
          have hlookups : l.pool.lookups (.position i) = [] := by
            rw [Pool.lookups, Pool.entry?, hi]
            rfl
          refine ⟨.error (.dangling l.name (.vector i)), H, l.built, next, ?_,
            .refl hl.built hfree _, fun k hk => ?_, ?_⟩
          · rw [Loader.ask, Loader.load, hi]
            rfl
          · rw [hlookups] at hk
            cases hk
          · rw [Answers, Pool.refusal?, hi]

/-! ### Answers -/

section Answers

variable {p : Pool α} {plan plan' : Plan} {name : String} {built built' : KeyMap (Node α)}
  {q : Request} {r r' : Except Error (Vec α)}

/-- A request fails exactly for the reason that the pool has. -/
lemma Answers.eq_error_iff (hr : Answers s p name built q r) (err : Error) :
    r = .error err ↔ p.refusal? name q = some err := by
  rw [Answers] at hr
  cases hrefusal : p.refusal? name q with
  | some err' =>
      rw [hrefusal] at hr
      rw [hr, Except.error.injEq, Option.some_inj]
  | none =>
      rw [hrefusal] at hr
      obtain ⟨e, v, h, -, rfl, -⟩ := hr
      exact ⟨(fun heq => nomatch heq), fun heq => nomatch heq⟩

/-- The vectors of two keys look the same, whenever their nodes are built. -/
lemma Loads.view_eq {e : PooledVec} {h h' : Nat} {v v' : Vec α} (hv : Loads s built e h v)
    (hv' : Loads s built' e h' v') (hshape : p.shape = s) (hd : p.Disjoint)
    (hb : p.Built plan H built) (hb' : p.Built plan' H' built') : v.view = v'.view := by
  obtain ⟨hroot, htail⟩ := hv.contents_iff hd hb
  obtain ⟨hroot', htail'⟩ := hv'.contents_iff hd hb'
  have hroots : v.root.node.elements = v'.root.node.elements :=
    (hroot' _).mp ((hroot _).mpr rfl)
  have htails : v.tail.items = v'.tail.items := (htail' _).mp ((htail _).mpr rfl)
  have hheight : h + 1 = h' + 1 :=
    (hb.height hv.root (hshape ▸ hv.sound)).unique hd (hb'.height hv'.root (hshape ▸ hv'.sound))
  have hcount : v.root.node.count = v'.root.node.count := by
    rw [Node.count, Node.count, hroots]
  rw [Vec.view, Vec.view, Vec.toList, Vec.toList, ← Branch.elements_node, ← Branch.elements_node,
    hv.len, hv'.len, hv.shift, hv'.shift, hroots, htails, hcount, Nat.succ.inj hheight]

/-- A request is answered alike, whatever has been built before. -/
lemma Answers.view_eq (hr : Answers s p name built q r) (hr' : Answers s p name built' q r')
    (hshape : p.shape = s) (hd : p.Disjoint) (hb : p.Built plan H built)
    (hb' : p.Built plan' H' built') : r.map Vec.view = r'.map Vec.view := by
  rw [Answers] at hr hr'
  cases hrefusal : p.refusal? name q with
  | some err =>
      rw [hrefusal] at hr hr'
      rw [hr, hr']
  | none =>
      rw [hrefusal] at hr hr'
      obtain ⟨e, v, h, he, rfl, hv⟩ := hr
      obtain ⟨e', v', h', he', rfl, hv'⟩ := hr'
      obtain rfl := Option.some.inj (he.symm.trans he')
      exact congrArg Except.ok (hv.view_eq hv' hshape hd hb hb')

/-- A vector that is given to a request has at each place the node built for the key there. -/
lemma Answers.at? {v : Vec α} (hr : Answers s p name built q (.ok v)) (hd : p.Disjoint)
    (hb : p.Built plan H built) (w : Place) :
    Option.Rel (fun c m => built.get? c = some m) (p.keyFor? q w) (v.at? w) := by
  rw [Answers] at hr
  split at hr
  · cases hr
  · obtain ⟨e, v, h, he, heq, hv⟩ := hr
    cases heq
    rw [Pool.keyFor?, he, Option.bind_some]
    exact hv.at? hd hb w

end Answers

/-! ### Histories -/

/-- The histories of a loader: the requests with their answers, the last one first, the loader as it
has become, and the next unused identity. Identities may be drawn elsewhere. -/
inductive History (l : Loader α) (start : NodeId) :
    List (Request × Except Error (Vec α)) → Loader α → NodeId → Prop where
  | start : History l start [] l start
  | elsewhere {log : List (Request × Except Error (Vec α))} {l' : Loader α} {next next' : NodeId}
      (history : History l start log l' next) (le : next ≤ next') : History l start log l' next'
  | ask {log : List (Request × Except Error (Vec α))} {l' : Loader α} {next : NodeId}
      (history : History l start log l' next) (q : Request) :
      History l start ((q, (l'.ask q next).1.1) :: log) (l'.ask q next).1.2 (l'.ask q next).2

variable {log : List (Request × Except Error (Vec α))}

/-- In a history a loader is in use. -/
lemma History.calls {start : NodeId} (hhistory : History l start log l' next) :
    Calls l start l' next := by
  induction hhistory with
  | start => exact .start
  | elsewhere _ hle ih => exact .elsewhere ih hle
  | ask _ q ih =>
      cases q with
      | position i => exact .load ih i
      | keys e => exact .vecOf ih e

/-- What a loader remembers of a history: the nodes of all answers, and of all that was looked up
for requests that failed, but no others. -/
structure Remembers (s : Shape) (H : Heap α) (l : Loader α)
    (log : List (Request × Except Error (Vec α))) : Prop where
  sound : l.Sound s H
  answers : ∀ q r, (q, r) ∈ log → Answers s l.pool l.name l.built q r
  built : ∀ k, (∃ n, l.built.get? k = some n) ↔ l.pool.contains k = true ∧
    ∃ a ∈ log, ∃ k' ∈ l.pool.lookups a.1, l.pool.Reaches k' k

/-- A fresh loader has nothing to remember. -/
lemma Remembers.ofPool {name : String} {p : Pool α} (hl : ofPool s name p = .ok l) (H : Heap α) :
    l.Remembers s H [] := by
  refine ⟨.ofPool hl H, fun _ _ hmem => (nomatch hmem), fun k => ⟨?_, fun h => ?_⟩⟩
  · obtain ⟨-, -, -, plan, -, rfl⟩ := ofPool_eq_ok_iff.mp hl
    rintro ⟨n, hn⟩
    simp at hn
  · obtain ⟨-, a, ha, -⟩ := h
    cases ha

/-- A further request is remembered like those before. -/
lemma Remembers.ask (hl : l.Remembers s H log) {q : Request} {r : Except Error (Vec α)}
    {built' : KeyMap (Node α)} (h : l.Asked s q H next r H' built' next') :
    Remembers s H' { l with built := built' } ((q, r) :: log) := by
  refine ⟨⟨hl.sound.ready.withBuilt built', h.builds.after⟩, fun q' r' hmem => ?_, fun k => ?_⟩
  · rcases List.mem_cons.mp hmem with heq | hmem
    · cases heq
      exact h.answer
    · exact (hl.answers q' r' hmem).mono h.builds.sub
  · constructor
    · rintro ⟨n, hn⟩
      refine ⟨h.builds.after.contains hn, ?_⟩
      rcases h.builds.new hn with hold | ⟨k', hk', hreach⟩
      · obtain ⟨-, a, ha, hlooked⟩ := (hl.built k).mp ⟨n, hold⟩
        exact ⟨a, List.mem_cons_of_mem _ ha, hlooked⟩
      · exact ⟨(q, r), List.mem_cons_self, k', hk', hreach⟩
    · rintro ⟨hused, a, ha, k', hk', hreach⟩
      rcases List.mem_cons.mp ha with rfl | ha
      · obtain ⟨n, hn⟩ := h.found k' hk' (hreach.contains hused)
        exact h.builds.after.exists_of_reaches hn hreach
      · obtain ⟨n, hn⟩ := (hl.built k).mpr ⟨hused, a, ha, k', hk', hreach⟩
        exact ⟨n, h.builds.sub k n hn⟩

/-- Every history is remembered. -/
theorem History.remembers (hs : s.Valid) {start : NodeId} (hl : l.Remembers s H [])
    (hfree : H.FreeFrom start) (hhistory : History l start log l' next) :
    ∃ H', H'.FreeFrom next ∧ l'.Remembers s H' log := by
  induction hhistory with
  | start => exact ⟨H, hfree, hl⟩
  | elsewhere _ hle ih =>
      obtain ⟨H', hfree', hl'⟩ := ih
      exact ⟨H', fun i hi => hfree' i (hle.trans hi), hl'⟩
  | @ask log l₁ next₁ _ q ih =>
      obtain ⟨H₁, hfree₁, hl₁⟩ := ih
      obtain ⟨r, H', built', next', hask, hasked⟩ := hl₁.sound.ask hs hfree₁ q
      rw [hask]
      exact ⟨H', hasked.builds.grows.free, hl₁.ask hasked⟩

/-- As many nodes are kept as keys are reached from those that were looked up. -/
lemma Remembers.builtCount_eq (hl : l.Remembers s H log) :
    (l.builtCount : ℕ∞) = {k | l.pool.contains k = true ∧
      ∃ a ∈ log, ∃ k' ∈ l.pool.lookups a.1, l.pool.Reaches k' k}.encard := by
  have hkeys : {k | l.pool.contains k = true ∧
      ∃ a ∈ log, ∃ k' ∈ l.pool.lookups a.1, l.pool.Reaches k' k} = ↑l.built.keys.toFinset := by
    ext k
    rw [Set.mem_ofPred_eq, ← hl.built, Finset.mem_coe, List.mem_toFinset, KeyMap.mem_keys_iff]
  rw [hkeys, Set.encard_coe_eq_coe_finsetCard,
    List.toFinset_card_of_nodup l.built.keys_nodup, KeyMap.length_keys, builtCount]

/-- No more nodes are kept than the pool has. -/
lemma Remembers.builtCount_le (hl : l.Remembers s H log) : l.builtCount ≤ l.pool.nodeCount := by
  have hkeys : ∀ k n, l.built.get? k = some n →
      k ∈ (l.pool.inners.keys ++ l.pool.leaves.keys).toFinset := by
    intro k n hk
    rw [List.mem_toFinset, List.mem_append, KeyMap.mem_keys_iff, KeyMap.mem_keys_iff]
    exact Pool.contains_iff.mp (hl.sound.built.contains hk)
  calc l.builtCount
    _ ≤ (l.pool.inners.keys ++ l.pool.leaves.keys).toFinset.card := KeyMap.size_le_card hkeys
    _ ≤ (l.pool.inners.keys ++ l.pool.leaves.keys).length := List.toFinset_card_le _
    _ = l.pool.nodeCount := by
        rw [List.length_append, KeyMap.length_keys, KeyMap.length_keys, Pool.nodeCount]

/-- Whatever was asked for before, a request is answered as the fresh loader would answer it: it
fails for the same reason or gives a vector with the same elements, length and level. All these
vectors are made of one set of nodes: where one key stands, in whichever of them, is one node, and
different keys have different nodes. And the nodes kept are those of the keys that are reached
from what was looked up, also for the requests that failed. -/
theorem History.memoizes (hs : s.Valid) {name : String} {p : Pool α} (hl : ofPool s name p = .ok l)
    (hd : p.Disjoint) {start : NodeId} (hhistory : History l start log l' next) :
    (∀ q r, (q, r) ∈ log → (∀ err, r = .error err ↔ p.refusal? name q = some err) ∧
        ∀ first, r.map Vec.view = (l.ask q first).1.1.map Vec.view) ∧
      (∀ q v, (q, .ok v) ∈ log → ∀ w, (v.at? w).isSome = (p.keyFor? q w).isSome) ∧
      (∀ q v q' v', (q, .ok v) ∈ log → (q', .ok v') ∈ log → ∀ w w' n n' k k',
        v.at? w = some n → v'.at? w' = some n' → p.keyFor? q w = some k →
          p.keyFor? q' w' = some k' →
          (k = k' → n = n') ∧ (k ≠ k' → n.id ≠ n'.id)) ∧
      (l'.builtCount : ℕ∞) = {k | p.contains k = true ∧
        ∃ a ∈ log, ∃ k' ∈ p.lookups a.1, p.Reaches k' k}.encard ∧
      l'.builtCount ≤ p.nodeCount ∧ ∀ q, l'.builtCount ≤ (l'.ask q next).1.2.builtCount := by
  obtain ⟨hname, hpool⟩ := eq_of_ofPool hl
  have hshape : p.shape = s := hpool ▸ (ready_of_ofPool hl).shape
  obtain ⟨H, hfree, hrem⟩ := hhistory.remembers hs (.ofPool hl fun _ => none) fun _ _ => rfl
  have hpool' : l'.pool = p := by rw [hhistory.calls.eq_withBuilt, hpool]
  have hname' : l'.name = name := by rw [hhistory.calls.name_eq, hname]
  have hbuilt : p.Built l'.plan H l'.built := hpool' ▸ hrem.sound.built
  have hanswers : ∀ q r, (q, r) ∈ log → Answers s p name l'.built q r := by
    intro q r hmem
    have hr := hrem.answers q r hmem
    rwa [hpool', hname'] at hr
  refine ⟨fun q r hmem => ⟨(hanswers q r hmem).eq_error_iff, fun first => ?_⟩, ?_, ?_, ?_, ?_, ?_⟩
  · -- the fresh loader answers from what it builds then
    have hfresh : l.Sound s fun _ => none := .ofPool hl _
    have hfirst : Heap.FreeFrom (fun _ => none : Heap α) first := fun _ _ => rfl
    obtain ⟨r', H', built', next', hask, hasked⟩ := hfresh.ask hs hfirst q
    have hr' := hasked.answer
    have hbuilt' := hasked.builds.after
    rw [hpool, hname] at hr'
    rw [hpool] at hbuilt'
    rw [hask]
    exact (hanswers q r hmem).view_eq hr' hshape hd hbuilt hbuilt'
  · intro q v hmem w
    have hw := (hanswers q _ hmem).at? hd hbuilt w
    generalize p.keyFor? q w = k at hw ⊢
    generalize v.at? w = n at hw ⊢
    cases hw <;> rfl
  · intro q v q' v' hmem hmem' w w' n n' k k' hn hn' hk hk'
    have hw := (hanswers q _ hmem).at? hd hbuilt w
    have hw' := (hanswers q' _ hmem').at? hd hbuilt w'
    rw [hn, hk] at hw
    rw [hn', hk'] at hw'
    cases hw with
    | some hget =>
        cases hw' with
        | some hget' =>
            refine ⟨fun hkeys => ?_, fun hne hid => hne (hbuilt.inj hget hget' hid)⟩
            rw [← hkeys, hget] at hget'
            exact Option.some.inj hget'
  · rw [hrem.builtCount_eq, hpool']
  · exact hpool' ▸ hrem.builtCount_le
  · intro q
    obtain ⟨r, H', built', next', hask, hasked⟩ := hrem.sound.ask hs hfree q
    rw [hask]
    exact hasked.builds.sub.size_le

/-- A pool of two vectors that share a leaf, and of a leaf that no vector has. -/
def forkedPool : Pool Bool :=
  ⟨⟨1, 1⟩, .ofList [(0, ⟨[2, 3], false⟩), (1, ⟨[2], false⟩)],
    .ofList [(2, [true, true]), (3, [false]), (4, [])], [⟨0, 3⟩, ⟨1, 3⟩]⟩

/-- Both vectors are loaded after four requests that fail, each for another reason. The last one of
these leaves all nodes behind that the vectors need. -/
theorem History.memoizes_failing :
    ∃ (l l' : Loader Bool) (log : List (Request × Except Error (Vec Bool))) (next : NodeId),
      ofPool ⟨1, 1⟩ "pool" forkedPool = .ok l ∧ History l 0 log l' next ∧
        log.map (fun a => (a.1, a.2.map Vec.view)) =
          [(.position 1, .ok ([true, true, false], 3, 1)),
            (.position 0, .ok ([true, true, false, false], 4, 1)),
            (.keys ⟨1, 0⟩, .error (.invariant "pool" (.tailIsInner 0))),
            (.keys ⟨2, 3⟩, .error (.invariant "pool" (.rootIsLeaf 2))),
            (.keys ⟨9, 3⟩, .error (.dangling "pool" (.node 9))),
            (.position 7, .error (.dangling "pool" (.vector 7)))] ∧
        l'.builtCount = 4 ∧ forkedPool.nodeCount = 5 ∧
        (∀ q r, (q, r) ∈ log → (∀ err, r = .error err ↔ forkedPool.refusal? "pool" q = some err) ∧
          ∀ first, r.map Vec.view = (l.ask q first).1.1.map Vec.view) ∧
        (l'.builtCount : ℕ∞) = {k | forkedPool.contains k = true ∧
          ∃ a ∈ log, ∃ k' ∈ forkedPool.lookups a.1, forkedPool.Reaches k' k}.encard := by
  have hs : Shape.Valid ⟨1, 1⟩ := by decide
  have hd : forkedPool.Disjoint := by
    have hentries : ∀ a ∈ forkedPool.leaves.entries, forkedPool.inners.get? a.1 = none := by decide
    intro k items hk
    exact hentries (k, items) (KeyMap.mem_entries_iff.mpr hk)
  obtain ⟨l, hl⟩ : ∃ l, ofPool ⟨1, 1⟩ "pool" forkedPool = .ok l := ⟨_, rfl⟩
  have hhistory : History l 0 _ _ _ :=
    .ask (.ask (.ask (.ask (.ask (.ask .start (.position 7)) (.keys ⟨9, 3⟩)) (.keys ⟨2, 3⟩))
      (.keys ⟨1, 0⟩)) (.position 0)) (.position 1)
  obtain ⟨hanswers, -, -, hcount, -, -⟩ := History.memoizes hs hl hd hhistory
  refine ⟨l, _, _, _, hl, hhistory, ?_, ?_, rfl, hanswers, hcount⟩
  · cases hl
    rfl
  · cases hl
    rfl

end Loader

end RadixPool
