import Mathlib
import RadixPool.Proofs.Pool.Reading

/-!
Which documents of pools are accepted, and what the others are refused for.

A document may have many faults at once. The shape is looked at first, then the keys in the order
of the document, while the entries are entered; then the leaves and after them the inner nodes,
both from the least key on; and then the vectors. The first fault found in this order is reported.

* `FirstRepeated`: the first entry of a list that has occurred before; `insertNew_eq_error_iff`:
  it is the key for which entries are refused.
* `Pool.check_eq_error_iff`: what the check of a pool finds.
* `PoolDraft.Grammatical`, `PoolDraft.Fault`: the drafts that are accepted, and what the others are
  refused for.
* `PoolDraft.toPool_eq_ok_iff`, `PoolDraft.toPool_eq_error_iff`: the verdict on a draft.
* `Pool.ofJson_verdict`: the verdict on a document.
-/

namespace RadixPool

variable {α β : Type}

/-! ### Entries of a map -/

/-- In a map the first entry with a property is the one with the least key. -/
lemma KeyMap.isFirst_entries_iff {m : KeyMap β} {P : Nat × β → Prop} {k : Nat} {b : β} :
    IsFirst P m.entries (k, b) ↔
      m.get? k = some b ∧ P (k, b) ∧ ∀ k' b', m.get? k' = some b' → k' < k → ¬ P (k', b') := by
  constructor
  · rintro ⟨init, rest, hentries, hinit, hb⟩
    refine ⟨mem_entries_iff.mp (by simp [hentries]), hb, fun k' b' hk' hlt => ?_⟩
    have hasc := m.ascending
    rw [hentries] at hasc
    have hmem : (k', b') ∈ init ++ (k, b) :: rest := hentries ▸ mem_entries_iff.mpr hk'
    rcases List.mem_append.mp hmem with hmem | hmem
    · exact hinit _ hmem
    · -- the entries that follow have greater keys
      obtain ⟨hhead, -⟩ := List.pairwise_cons.mp (List.pairwise_append.mp hasc).2.1
      rcases List.mem_cons.mp hmem with heq | hmem
      · exact absurd (Prod.mk.inj heq).1 hlt.ne
      · exact absurd (hhead _ hmem) (Nat.lt_asymm hlt)
  · rintro ⟨hk, hb, hleast⟩
    obtain ⟨init, rest, hentries⟩ := List.append_of_mem (mem_entries_iff.mpr hk)
    refine ⟨init, rest, hentries, fun ⟨k', b'⟩ hmem => ?_, hb⟩
    have hasc := m.ascending
    rw [hentries] at hasc
    refine hleast k' b' (mem_entries_iff.mp (by simp [hentries, hmem])) ?_
    exact (List.pairwise_append.mp hasc).2.2 _ hmem (k, b) List.mem_cons_self

/-- A map made of entries with different keys has these entries. -/
lemma KeyMap.mem_entries_ofList {l : List (Key × β)} (hnd : (l.map Prod.fst).Nodup)
    {x : Key × β} : x ∈ (KeyMap.ofList l).entries ↔ x ∈ l :=
  (perm_entries_ofList hnd).mem_iff

/-- In a map made of entries with different keys the first entry with a property is the one with the
least key among them. -/
lemma KeyMap.isFirst_entries_ofList {l : List (Key × β)} (hnd : (l.map Prod.fst).Nodup)
    {P : Key × β → Prop} {x : Key × β} :
    IsFirst P (KeyMap.ofList l).entries x ↔ x ∈ l ∧ P x ∧ ∀ y ∈ l, y.1 < x.1 → ¬ P y := by
  rw [isFirst_entries_iff, ← mem_entries_iff, mem_entries_ofList hnd]
  simp only [← mem_entries_iff, mem_entries_ofList hnd, Prod.forall]

/-! ### Keys that occur twice -/

/-- The first entry of a list that has occurred before, in the list itself or in `used`. -/
def FirstRepeated (used l : List β) (b : β) : Prop :=
  ∃ init rest, l = init ++ b :: rest ∧ (used ++ init).Nodup ∧ b ∈ used ++ init

lemma firstRepeated_cons_iff {used l : List β} {a b : β} (hused : used.Nodup) :
    FirstRepeated used (a :: l) b ↔
      a ∈ used ∧ b = a ∨ a ∉ used ∧ FirstRepeated (used ++ [a]) l b := by
  simp only [FirstRepeated, List.append_assoc, List.singleton_append]
  constructor
  · rintro ⟨init, rest, h, hnd, hb⟩
    cases init with
    | nil =>
        obtain ⟨rfl, -⟩ := List.cons.inj h
        rw [List.append_nil] at hb
        exact .inl ⟨hb, rfl⟩
    | cons c init =>
        obtain ⟨rfl, rfl⟩ := List.cons.inj h
        have hnot : a ∉ used := fun hmem =>
          (List.nodup_append.mp hnd).2.2 a hmem a List.mem_cons_self rfl
        exact .inr ⟨hnot, init, rest, rfl, hnd, hb⟩
  · rintro (⟨ha, rfl⟩ | ⟨-, init, rest, rfl, hnd, hb⟩)
    · exact ⟨[], l, rfl, by rwa [List.append_nil], by rwa [List.append_nil]⟩
    · exact ⟨a :: init, rest, rfl, hnd, hb⟩

/-- In two lists in a row the first repeated entry lies in the first list, or in the second one
after the first. -/
lemma firstRepeated_append_iff {used l l' : List β} {b : β} :
    FirstRepeated used (l ++ l') b ↔ FirstRepeated used l b ∨ FirstRepeated (used ++ l) l' b := by
  constructor
  · rintro ⟨init, rest, h, hnd, hb⟩
    rcases List.append_eq_append_iff.mp h with ⟨init', rfl, hl'⟩ | ⟨rest', hl, hrest⟩
    · exact .inr ⟨init', rest, hl', by rwa [List.append_assoc], by rwa [List.append_assoc]⟩
    · cases rest' with
      | nil =>
          rw [List.append_nil] at hl
          subst hl
          exact .inr ⟨[], rest, hrest.symm, by rwa [List.append_nil], by rwa [List.append_nil]⟩
      | cons c rest' =>
          obtain ⟨rfl, -⟩ := List.cons.inj hrest
          exact .inl ⟨init, rest', hl, hnd, hb⟩
  · rintro (⟨init, rest, rfl, hnd, hb⟩ | ⟨init, rest, rfl, hnd, hb⟩)
    · exact ⟨init, rest ++ l', by simp, hnd, hb⟩
    · exact ⟨l ++ init, rest, by simp, by rwa [← List.append_assoc], by rwa [← List.append_assoc]⟩

lemma FirstRepeated.nodup_used {used l : List β} {b : β} (h : FirstRepeated used l b) :
    used.Nodup := by
  obtain ⟨_, _, -, hnd, -⟩ := h
  exact (List.nodup_append.mp hnd).1

/-- Entries are refused at the first key that has occurred before, among them or among the keys that
are in use or taken. -/
lemma insertNew_eq_error_iff {name : String} {taken : Key → Bool} {m : KeyMap β}
    {l : List (Key × β)} {e : Error} {used : List Key} (hnd : used.Nodup)
    (hused : ∀ k, (taken k || m.contains k) = true ↔ k ∈ used) :
    insertNew name taken m l = .error e ↔
      ∃ k, FirstRepeated used (l.map Prod.fst) k ∧ e = .duplicateKey name k := by
  induction l generalizing m used with
  | nil =>
      refine ⟨(fun h => nomatch h), ?_⟩
      rintro ⟨k, ⟨init, rest, h, -⟩, -⟩
      cases init <;> cases h
  | cons x l ih =>
      obtain ⟨k, b⟩ := x
      rw [insertNew, List.map_cons]
      simp only [firstRepeated_cons_iff hnd]
      split
      · next hin =>
        have hmem := (hused k).mp hin
        constructor
        · intro h
          exact ⟨k, .inl ⟨hmem, rfl⟩, (Except.error.inj h).symm⟩
        · rintro ⟨k', ⟨-, rfl⟩ | ⟨hnot, -⟩, rfl⟩
          · rfl
          · exact absurd hmem hnot
      · next hin =>
        have hnot : k ∉ used := fun hmem => hin ((hused k).mpr hmem)
        have hused' : ∀ k', (taken k' || (m.insert k b).contains k') = true ↔ k' ∈ used ++ [k] := by
          intro k'
          rw [List.mem_append, ← hused, List.mem_singleton, KeyMap.contains, KeyMap.contains,
            KeyMap.get?_insert]
          by_cases heq : k' = k <;> simp [heq]
        have hnd' : (used ++ [k]).Nodup := by
          rw [← List.concat_eq_append]
          exact hnd.concat hnot
        rw [ih hnd' hused']
        refine exists_congr fun k' => and_congr_left' ?_
        exact ⟨fun h => .inr ⟨hnot, h⟩, fun h => (h.resolve_left fun h => hnot h.1).2⟩

/-! ### Faults of a pool -/

namespace Pool

variable {name : String} {p : Pool α} {e : Error}

/-- An inner node has no more children than the shape allows, and their keys are in use. -/
def InnerFits (p : Pool α) (b : PooledBranch) : Prop :=
  b.children.length ≤ p.shape.fanout ∧ ∀ c ∈ b.children, p.contains c = true

lemma checkKey_eq_error_iff {k : Key} :
    p.checkKey name k = .error e ↔ p.contains k ≠ true ∧ e = .dangling name (.node k) := by
  rw [checkKey]
  split
  · next h =>
    refine ⟨fun he => ?_, fun he => absurd h he.1⟩
    cases he
  · next h => exact ⟨fun he => ⟨h, (Except.error.inj he).symm⟩, fun he => he.2 ▸ rfl⟩

lemma checkLeaf_eq_error_iff {k : Key} {items : List α} :
    p.checkLeaf name k items = .error e ↔ p.shape.leafCapacity < items.length ∧
      e = .invariant name (.oversizedLeaf k items.length p.shape.leafCapacity) := by
  rw [checkLeaf]
  split
  · next h => exact ⟨fun he => ⟨h, (Except.error.inj he).symm⟩, fun he => he.2 ▸ rfl⟩
  · next h =>
    refine ⟨fun he => ?_, fun he => absurd he.1 h⟩
    cases he

/-- Some keys are refused at the first one that is not in use. -/
lemma forM_checkKey_eq_error_iff {ks : List Key} :
    ks.forM (p.checkKey name) = .error e ↔
      ∃ k, IsFirst (fun k => p.contains k ≠ true) ks k ∧ e = .dangling name (.node k) := by
  rw [forM_eq_error_iff]
  simp only [ne_eq, checkKey_eq_ok_iff, checkKey_eq_error_iff]
  exact exists_congr fun k => and_congr_right fun hk => and_iff_right hk.prop

lemma checkInner_eq_error_iff {k : Key} {b : PooledBranch} :
    p.checkInner name k b = .error e ↔
      p.shape.fanout < b.children.length ∧
          e = .invariant name (.tooManyChildren k b.children.length p.shape.fanout) ∨
        b.children.length ≤ p.shape.fanout ∧
          ∃ c, IsFirst (fun c => p.contains c ≠ true) b.children c ∧
            e = .dangling name (.node c) := by
  rw [checkInner]
  split
  · next h =>
    constructor
    · exact fun he => .inl ⟨h, (Except.error.inj he).symm⟩
    · rintro (⟨-, rfl⟩ | ⟨hle, -⟩)
      · rfl
      · exact absurd hle (Nat.not_le_of_lt h)
  · next h =>
    rw [forM_checkKey_eq_error_iff]
    exact ⟨fun he => .inr ⟨Nat.le_of_not_lt h, he⟩, fun he => (he.resolve_left fun he => h he.1).2⟩

/-- The keys of roots and tails in turn. -/
def endKeys (vs : List PooledVec) : List Key := vs.flatMap fun v => [v.root, v.tail]

/-- The vectors are checked by their roots and tails in turn. -/
lemma forM_endKeys (f : Key → Except Error Unit) (vs : List PooledVec) :
    (endKeys vs).forM f = vs.forM fun v => f v.root >>= fun _ => f v.tail := by
  induction vs with
  | nil => rfl
  | cons v vs ih =>
      have hcons : (endKeys (v :: vs)).forM f =
          f v.root >>= fun _ => f v.tail >>= fun _ => (endKeys vs).forM f := rfl
      have hcons' : ((v :: vs).forM fun v => f v.root >>= fun _ => f v.tail) =
          (f v.root >>= fun _ => f v.tail) >>= fun _ =>
            vs.forM fun v => f v.root >>= fun _ => f v.tail := rfl
      rw [hcons, hcons', ih, bind_assoc]

/-- A pool is refused for a leaf with too many elements, then for an inner node, both with the least
key, and then for the first root or tail that is not in use. -/
theorem check_eq_error_iff :
    p.check name = .error e ↔
      (∃ x, IsFirst (fun x => p.shape.leafCapacity < x.2.length) p.leaves.entries x ∧
        e = .invariant name (.oversizedLeaf x.1 x.2.length p.shape.leafCapacity)) ∨
      (∀ x ∈ p.leaves.entries, x.2.length ≤ p.shape.leafCapacity) ∧
        ((∃ x, IsFirst (fun x => ¬ p.InnerFits x.2) p.inners.entries x ∧
          p.checkInner name x.1 x.2 = .error e) ∨
        (∀ x ∈ p.inners.entries, p.InnerFits x.2) ∧
          ∃ k, IsFirst (fun k => p.contains k ≠ true) (endKeys p.vectors) k ∧
            e = .dangling name (.node k)) := by
  rw [check, then_eq_error_iff, then_eq_error_iff, ← forM_endKeys, forM_checkKey_eq_error_iff]
  simp only [forM_eq_error_iff, forM_eq_ok_iff, ne_eq, checkLeaf_eq_ok_iff, checkInner_eq_ok_iff,
    checkLeaf_eq_error_iff, not_le]
  exact or_congr_left (exists_congr fun x => and_congr_right fun hx => and_iff_right hx.prop)

end Pool

/-! ### Faults of a document -/

namespace PoolDraft

variable {name : String} {s : Shape} {d : PoolDraft α} {p : Pool α} {e : Error} {k : Key}

/-- An inner node has no more children than the shape allows, and their keys are defined. -/
def InnerFits (s : Shape) (d : PoolDraft α) (b : PooledBranch) : Prop :=
  b.children.length ≤ 2 ^ s.bits ∧ ∀ c ∈ b.children, c ∈ d.keys

/-- The drafts of the documents that are accepted. -/
structure Grammatical (s : Shape) (d : PoolDraft α) : Prop where
  shape : d.HasShape s
  /-- No key occurs twice among the inner nodes, among the leaves, or among both. -/
  keys : d.keys.Nodup
  leaves : ∀ x ∈ d.leaves, x.2.length ≤ 2 ^ s.leafBits
  inners : ∀ x ∈ d.inners, d.InnerFits s x.2
  vectors : ∀ v ∈ d.vectors, v.root ∈ d.keys ∧ v.tail ∈ d.keys

/-- What a draft is refused for, and the error that says so. Each fault is only looked for where
those above it are absent. -/
inductive Fault (name : String) (s : Shape) (d : PoolDraft α) : Error → Prop where
  /-- The shape is another one, or a part of it is missing. -/
  | shape (other : ¬ d.HasShape s) : Fault name s d (.shapeMismatch name s d.bits d.leafBits)
  /-- A key occurs for the second time. -/
  | duplicate {k : Key} (shape : d.HasShape s) (repeated : FirstRepeated [] d.keys k) :
      Fault name s d (.duplicateKey name k)
  /-- Of the leaves with too many elements this is the one with the least key. -/
  | leaf {k : Key} {items : List α} (shape : d.HasShape s) (keys : d.keys.Nodup)
      (entry : (k, items) ∈ d.leaves) (large : 2 ^ s.leafBits < items.length)
      (least : ∀ x ∈ d.leaves, x.1 < k → x.2.length ≤ 2 ^ s.leafBits) :
      Fault name s d (.invariant name (.oversizedLeaf k items.length (2 ^ s.leafBits)))
  /-- The inner node with the least key of those with a fault has too many children. -/
  | width {k : Key} {b : PooledBranch} (shape : d.HasShape s) (keys : d.keys.Nodup)
      (leaves : ∀ x ∈ d.leaves, x.2.length ≤ 2 ^ s.leafBits) (entry : (k, b) ∈ d.inners)
      (least : ∀ x ∈ d.inners, x.1 < k → d.InnerFits s x.2)
      (wide : 2 ^ s.bits < b.children.length) :
      Fault name s d (.invariant name (.tooManyChildren k b.children.length (2 ^ s.bits)))
  /-- The inner node with the least key of those with a fault has not too many children, and this is
  the first of them that is not defined. -/
  | child {k c : Key} {b : PooledBranch} (shape : d.HasShape s) (keys : d.keys.Nodup)
      (leaves : ∀ x ∈ d.leaves, x.2.length ≤ 2 ^ s.leafBits) (entry : (k, b) ∈ d.inners)
      (least : ∀ x ∈ d.inners, x.1 < k → d.InnerFits s x.2)
      (narrow : b.children.length ≤ 2 ^ s.bits)
      (undefined : IsFirst (fun c => c ∉ d.keys) b.children c) :
      Fault name s d (.dangling name (.node c))
  /-- Of the roots and tails, each root before its tail, this is the first that is not defined. -/
  | vector {k : Key} (shape : d.HasShape s) (keys : d.keys.Nodup)
      (leaves : ∀ x ∈ d.leaves, x.2.length ≤ 2 ^ s.leafBits)
      (inners : ∀ x ∈ d.inners, d.InnerFits s x.2)
      (undefined : IsFirst (fun k => k ∉ d.keys) (d.vectors.flatMap fun v => [v.root, v.tail]) k) :
      Fault name s d (.dangling name (.node k))

/-! ### The pool of a draft -/

lemma innerFits_pool (hs : s.Valid) (hnd : d.keys.Nodup) {b : PooledBranch} :
    (d.pool s).InnerFits b ↔ d.InnerFits s b := by
  have hfanout : (d.pool s).shape.fanout = 2 ^ s.bits := Shape.fanout_eq hs
  rw [Pool.InnerFits, InnerFits, hfanout]
  simp only [contains_pool hnd]

/-- A draft of the expected shape is refused for the first key that occurs for the second time, and
if there is none for what the check of its pool finds. -/
lemma toPool_eq_error_iff_check (hshape : d.HasShape s) : d.toPool name s = .error e ↔
    (∃ k, FirstRepeated [] d.keys k ∧ e = .duplicateKey name k) ∨
      d.keys.Nodup ∧ (d.pool s).check name = .error e := by
  have hinners : ∀ {e}, insertNew name (fun _ => false) ∅ d.inners = .error e ↔
      ∃ k, FirstRepeated [] (d.inners.map Prod.fst) k ∧ e = .duplicateKey name k :=
    insertNew_eq_error_iff List.nodup_nil fun k => by simp [KeyMap.contains]
  have hleaves : (d.inners.map Prod.fst).Nodup → ∀ {e},
      insertNew name (KeyMap.ofList d.inners).contains ∅ d.leaves = .error e ↔
        ∃ k, FirstRepeated (d.inners.map Prod.fst) (d.leaves.map Prod.fst) k ∧
          e = .duplicateKey name k := fun hnd =>
    insertNew_eq_error_iff hnd fun k => by
      rw [Bool.or_eq_true, KeyMap.contains_ofList hnd]
      simp [KeyMap.contains]
  have hif : d.bits = some s.bits ∧ d.leafBits = some s.leafBits := hshape
  have hkeys : ∀ {k}, FirstRepeated [] d.keys k ↔ FirstRepeated [] (d.inners.map Prod.fst) k ∨
      FirstRepeated (d.inners.map Prod.fst) (d.leaves.map Prod.fst) k := firstRepeated_append_iff
  rw [toPool, if_pos hif, bind_eq_error_iff, hinners]
  simp only [hkeys]
  constructor
  · rintro (⟨k, hk, rfl⟩ | ⟨inners, hin, h⟩)
    · exact .inl ⟨k, .inl hk, rfl⟩
    · obtain ⟨hnd, -, rfl⟩ := insertNew_empty_eq_ok_iff.mp hin
      rcases bind_eq_error_iff.mp h with h | ⟨leaves, hin', h⟩
      · obtain ⟨k, hk, rfl⟩ := (hleaves hnd).mp h
        exact .inl ⟨k, .inr hk, rfl⟩
      · obtain ⟨hnd', hfree, rfl⟩ := insertNew_empty_eq_ok_iff.mp hin'
        rcases bind_eq_error_iff.mp h with h | ⟨_, -, h⟩
        · exact .inr ⟨nodup_keys_iff.mpr ⟨hnd, hnd', hfree⟩, h⟩
        · cases h
  · have hok : (d.inners.map Prod.fst).Nodup →
        insertNew name (fun _ => false) ∅ d.inners = .ok (.ofList d.inners) := fun hnd =>
      insertNew_empty_eq_ok_iff.mpr ⟨hnd, fun _ _ => rfl, rfl⟩
    rintro (⟨k, hk | hk, rfl⟩ | ⟨hnd, h⟩)
    · exact .inl ⟨k, hk, rfl⟩
    · have hnd : (d.inners.map Prod.fst).Nodup := hk.nodup_used
      exact .inr ⟨_, hok hnd, bind_eq_error_iff.mpr (.inl ((hleaves hnd).mpr ⟨k, hk, rfl⟩))⟩
    · obtain ⟨hnd, hnd', hfree⟩ := nodup_keys_iff.mp hnd
      have hok' : insertNew name (KeyMap.ofList d.inners).contains ∅ d.leaves =
          .ok (.ofList d.leaves) := insertNew_empty_eq_ok_iff.mpr ⟨hnd', hfree, rfl⟩
      refine .inr ⟨_, hok hnd, bind_eq_error_iff.mpr (.inr ⟨_, hok', ?_⟩)⟩
      exact bind_eq_error_iff.mpr (.inl h)

/-! ### The verdict -/

/-- What the pool of a draft is refused for, in terms of the draft. -/
lemma check_pool_eq_error_iff (hs : s.Valid) (hnd : d.keys.Nodup) :
    (d.pool s).check name = .error e ↔
      (∃ x ∈ d.leaves, 2 ^ s.leafBits < x.2.length ∧
        (∀ y ∈ d.leaves, y.1 < x.1 → y.2.length ≤ 2 ^ s.leafBits) ∧
          e = .invariant name (.oversizedLeaf x.1 x.2.length (2 ^ s.leafBits))) ∨
      (∀ x ∈ d.leaves, x.2.length ≤ 2 ^ s.leafBits) ∧
        ((∃ x ∈ d.inners, (∀ y ∈ d.inners, y.1 < x.1 → d.InnerFits s y.2) ∧
          (2 ^ s.bits < x.2.children.length ∧
              e = .invariant name (.tooManyChildren x.1 x.2.children.length (2 ^ s.bits)) ∨
            x.2.children.length ≤ 2 ^ s.bits ∧
              ∃ c, IsFirst (fun c => c ∉ d.keys) x.2.children c ∧ e = .dangling name (.node c))) ∨
        (∀ x ∈ d.inners, d.InnerFits s x.2) ∧
          ∃ k, IsFirst (fun k => k ∉ d.keys) (Pool.endKeys d.vectors) k ∧
            e = .dangling name (.node k)) := by
  have hcapacity : (d.pool s).shape.leafCapacity = 2 ^ s.leafBits := Shape.leafCapacity_eq hs
  have hfanout : (d.pool s).shape.fanout = 2 ^ s.bits := Shape.fanout_eq hs
  have hleaf : ∀ {P x}, IsFirst P (d.pool s).leaves.entries x ↔
      x ∈ d.leaves ∧ P x ∧ ∀ y ∈ d.leaves, y.1 < x.1 → ¬ P y :=
    KeyMap.isFirst_entries_ofList (nodup_leaves hnd)
  have hinner : ∀ {P x}, IsFirst P (d.pool s).inners.entries x ↔
      x ∈ d.inners ∧ P x ∧ ∀ y ∈ d.inners, y.1 < x.1 → ¬ P y :=
    KeyMap.isFirst_entries_ofList (nodup_inners hnd)
  have hleaves : ∀ {x}, x ∈ (d.pool s).leaves.entries ↔ x ∈ d.leaves :=
    KeyMap.mem_entries_ofList (nodup_leaves hnd)
  have hinners : ∀ {x}, x ∈ (d.pool s).inners.entries ↔ x ∈ d.inners :=
    KeyMap.mem_entries_ofList (nodup_inners hnd)
  rw [Pool.check_eq_error_iff]
  simp only [Pool.checkInner_eq_error_iff, innerFits_pool hs hnd, contains_pool hnd,
    ne_eq, hcapacity, hfanout, hleaf, hinner, hleaves, hinners, not_lt, not_not, and_assoc]
  refine or_congr_right (and_congr_right fun _ => or_congr_left ?_)
  refine exists_congr fun x => and_congr_right fun _ => ?_
  -- a node that is refused is one that does not fit
  refine and_iff_right_of_imp fun hrefused hfits => ?_
  rcases hrefused.2 with ⟨hwide, -⟩ | ⟨-, c, hc, -⟩
  · exact absurd hfits.1 (Nat.not_le_of_lt hwide)
  · exact hc.prop (hfits.2 c hc.mem)

/-- The drafts that make a pool. -/
theorem toPool_eq_ok_iff (hs : s.Valid) :
    d.toPool name s = .ok p ↔ d.Grammatical s ∧ p = d.pool s := by
  have hcapacity : (d.pool s).shape.leafCapacity = 2 ^ s.leafBits := Shape.leafCapacity_eq hs
  have hfanout : (d.pool s).shape.fanout = 2 ^ s.bits := Shape.fanout_eq hs
  have hleaf : d.keys.Nodup → ∀ {k items}, (d.pool s).leaves.get? k = some items ↔
      (k, items) ∈ d.leaves := fun hnd => KeyMap.get?_ofList (nodup_leaves hnd)
  have hinner : d.keys.Nodup → ∀ {k b}, (d.pool s).inners.get? k = some b ↔
      (k, b) ∈ d.inners := fun hnd => KeyMap.get?_ofList (nodup_inners hnd)
  rw [toPool_eq_ok_iff_check, Pool.check_eq_ok_iff]
  constructor
  · rintro ⟨hshape, hnd, hc, rfl⟩
    refine ⟨⟨hshape, hnd, fun x hx => ?_, fun x hx => ⟨?_, fun c hchild => ?_⟩,
      fun v hv => ?_⟩, rfl⟩
    · exact hcapacity ▸ hc.leaf ((hleaf hnd).mpr hx)
    · exact hfanout ▸ hc.width ((hinner hnd).mpr hx)
    · exact (contains_pool hnd).mp (hc.child ((hinner hnd).mpr hx) hchild)
    · exact ⟨(contains_pool hnd).mp (hc.root hv), (contains_pool hnd).mp (hc.tail hv)⟩
  · rintro ⟨⟨hshape, hnd, hleaves, hinners, hvectors⟩, rfl⟩
    refine ⟨hshape, hnd, ?_, rfl⟩
    exact {
      leaf := fun hk => hcapacity ▸ hleaves _ ((hleaf hnd).mp hk)
      width := fun hk => hfanout ▸ (hinners _ ((hinner hnd).mp hk)).1
      child := fun hk hc => (contains_pool hnd).mpr ((hinners _ ((hinner hnd).mp hk)).2 _ hc)
      root := fun hv => (contains_pool hnd).mpr (hvectors _ hv).1
      tail := fun hv => (contains_pool hnd).mpr (hvectors _ hv).2 }

/-- The drafts that make none. -/
theorem toPool_eq_error_iff (hs : s.Valid) :
    d.toPool name s = .error e ↔ d.Fault name s e := by
  by_cases hshape : d.HasShape s
  · rw [toPool_eq_error_iff_check hshape]
    constructor
    · rintro (⟨k, hk, rfl⟩ | ⟨hnd, h⟩)
      · exact .duplicate hshape hk
      · rcases (check_pool_eq_error_iff hs hnd).mp h with ⟨x, hx, hlarge, hleast, rfl⟩ |
          ⟨hleaves, ⟨x, hx, hleast, ⟨hwide, rfl⟩ | ⟨hnarrow, c, hc, rfl⟩⟩ | ⟨hinners, k, hk, rfl⟩⟩
        · exact .leaf hshape hnd hx hlarge hleast
        · exact .width hshape hnd hleaves hx hleast hwide
        · exact .child hshape hnd hleaves hx hleast hnarrow hc
        · exact .vector hshape hnd hleaves hinners hk
    · intro h
      cases h with
      | shape other => exact absurd hshape other
      | duplicate _ hk => exact .inl ⟨_, hk, rfl⟩
      | leaf _ hnd hx hlarge hleast =>
          exact .inr ⟨hnd, (check_pool_eq_error_iff hs hnd).mpr (.inl ⟨_, hx, hlarge, hleast, rfl⟩)⟩
      | width _ hnd hleaves hx hleast hwide =>
          exact .inr ⟨hnd, (check_pool_eq_error_iff hs hnd).mpr
            (.inr ⟨hleaves, .inl ⟨_, hx, hleast, .inl ⟨hwide, rfl⟩⟩⟩)⟩
      | child _ hnd hleaves hx hleast hnarrow hc =>
          exact .inr ⟨hnd, (check_pool_eq_error_iff hs hnd).mpr
            (.inr ⟨hleaves, .inl ⟨_, hx, hleast, .inr ⟨hnarrow, _, hc, rfl⟩⟩⟩)⟩
      | vector _ hnd hleaves hinners hk =>
          exact .inr ⟨hnd, (check_pool_eq_error_iff hs hnd).mpr
            (.inr ⟨hleaves, .inr ⟨hinners, _, hk, rfl⟩⟩)⟩
  · have hif : ¬ (d.bits = some s.bits ∧ d.leafBits = some s.leafBits) := hshape
    rw [toPool, if_neg hif]
    constructor
    · intro h
      exact Except.error.inj h ▸ .shape hshape
    · intro h
      cases h with
      | shape => rfl
      | duplicate h | leaf h | width h | child h | vector h => exact absurd h hshape

end PoolDraft

/-- A document is accepted exactly if its shape is the expected one, no key occurs twice, leaves
and inner nodes are within the limits of the shape, and every key that is referred to is defined.
If it is not, then the error is that of the first fault, in the order of `PoolDraft.Fault`. -/
theorem Pool.ofJson_verdict {read? : Json → Option α} {name : String} {s : Shape} {j : Json}
    {d : PoolDraft α} (hs : s.Valid) (hd : PoolDraft.ofJson? read? j = some d) :
    (∀ p, Pool.ofJson read? name s j = .ok p ↔ d.Grammatical s ∧ p = d.pool s) ∧
      ∀ e, Pool.ofJson read? name s j = .error e ↔ d.Fault name s e := by
  have hread : Pool.ofJson read? name s j = d.toPool name s := by rw [Pool.ofJson, hd]
  rw [hread]
  exact ⟨fun p => d.toPool_eq_ok_iff hs, fun e => d.toPool_eq_error_iff hs⟩

/-- An inner node with an undefined child stands before one with too many children, whose key is
less, and the vector refers to an undefined key as well. -/
theorem Pool.ofJson_verdict_manyFaults :
    ∃ (j : Json) (d : PoolDraft Bool), Shape.Valid ⟨1, 1⟩ ∧
      PoolDraft.ofJson? Json.bool? j = some d ∧
      d.inners = [(5, ⟨[9], false⟩), (2, ⟨[5, 5, 5], false⟩)] ∧ d.vectors = [⟨8, 8⟩] ∧
      ¬ d.Grammatical ⟨1, 1⟩ ∧ d.Fault "pool" ⟨1, 1⟩ (.invariant "pool" (.tooManyChildren 2 3 2)) ∧
      ¬ d.Fault "pool" ⟨1, 1⟩ (.dangling "pool" (.node 9)) := by
  let j : Json := .arr [.nat 1, .nat 1,
    .arr [.arr [.nat 5, .arr [.arr [.nat 9], .bool false]],
      .arr [.nat 2, .arr [.arr [.nat 5, .nat 5, .nat 5], .bool false]]],
    .arr [], .arr [.arr [.nat 8, .nat 8]]]
  have hs : Shape.Valid ⟨1, 1⟩ := by decide
  have hj : ∃ d : PoolDraft Bool, PoolDraft.ofJson? Json.bool? j = some d ∧
      d.inners = [(5, ⟨[9], false⟩), (2, ⟨[5, 5, 5], false⟩)] ∧ d.vectors = [⟨8, 8⟩] :=
    ⟨_, rfl, rfl, rfl⟩
  have herror : Pool.ofJson Json.bool? "pool" ⟨1, 1⟩ j =
      .error (.invariant "pool" (.tooManyChildren 2 3 2)) := rfl
  obtain ⟨d, hd, hinners, hvectors⟩ := hj
  obtain ⟨hok, hfault⟩ := @Pool.ofJson_verdict Bool Json.bool? "pool" ⟨1, 1⟩ j d hs hd
  refine ⟨j, d, hs, hd, hinners, hvectors, fun h => ?_, (hfault _).mp herror, fun h => ?_⟩
  · exact nomatch herror.symm.trans ((hok _).mpr ⟨h, rfl⟩)
  · exact nomatch herror.symm.trans ((hfault _).mpr h)

end RadixPool
