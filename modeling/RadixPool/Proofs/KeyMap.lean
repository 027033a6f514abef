import Mathlib
import RadixPool.KeyMap

/-!
Finite maps that grow.

* `KeyMap.mem_entries_iff`, `KeyMap.mem_keys_iff`: entries and keys by look-up.
* `KeyMap.Sub`: a map is part of another one; insertion under a new key makes a larger map.
* `KeyMap.Sub.entries_prefix`: a map whose new keys are greater than the old ones.
* `KeyMap.size_le_card`, `KeyMap.size_eq_card`, `KeyMap.length_le_size`: how many keys a map has.
* `KeyMap.keys_eq_range`, `KeyMap.getElem?_values`: maps with the keys from 0 on.
* `KeyMap.filterMap`: entries changed or left out, by their key and value.
-/

namespace RadixPool.KeyMap

variable {β : Type} {m m' m'' : KeyMap β}

lemma contains_iff {k : Nat} : m.contains k = true ↔ ∃ b, m.get? k = some b := by
  rw [contains, Option.isSome_iff_exists]

lemma contains_eq_false_iff {k : Nat} : m.contains k = false ↔ m.get? k = none := by
  rw [contains, Option.isSome_eq_false_iff, Option.isNone_iff_eq_none]

lemma mem_entries_iff {k : Nat} {b : β} : (k, b) ∈ m.entries ↔ m.get? k = some b := by
  obtain ⟨l, hl⟩ := m
  refine ⟨fun h => ?_, Assoc.mem_of_get?_eq_some⟩
  change Assoc.get? k l = some b
  induction l with
  | nil => cases h
  | cons e l ih =>
      obtain ⟨k', b'⟩ := e
      obtain ⟨hhead, htail⟩ := List.pairwise_cons.mp hl
      rcases List.mem_cons.mp h with h | h
      · cases h
        rw [Assoc.get?, if_pos rfl]
      · have hlt : k' < k := hhead (k, b) h
        rw [Assoc.get?, if_neg (Nat.ne_of_gt hlt)]
        exact ih htail h

lemma mem_keys_iff {k : Nat} : k ∈ m.keys ↔ ∃ b, m.get? k = some b := by
  simp only [keys, List.mem_map, Prod.exists, mem_entries_iff]
  constructor
  · rintro ⟨_, b, hb, rfl⟩
    exact ⟨b, hb⟩
  · rintro ⟨b, hb⟩
    exact ⟨k, b, hb, rfl⟩

lemma keys_nodup (m : KeyMap β) : m.keys.Nodup :=
  List.pairwise_map.mpr (m.ascending.imp fun h => Nat.ne_of_lt h)

lemma length_keys (m : KeyMap β) : m.keys.length = m.size := List.length_map _

/-- A list of different keys in use is no longer than the map is large. -/
lemma length_le_size {ks : List Nat} (hnd : ks.Nodup) (hks : ∀ k ∈ ks, ∃ b, m.get? k = some b) :
    ks.length ≤ m.size := by
  rw [← length_keys]
  exact (hnd.subperm fun k hk => mem_keys_iff.mpr (hks k hk)).length_le

/-- A map all of whose keys lie in a set is no larger than the set. -/
lemma size_le_card {S : Finset Nat} (hm : ∀ k b, m.get? k = some b → k ∈ S) : m.size ≤ S.card := by
  rw [← length_keys, ← List.toFinset_card_of_nodup m.keys_nodup]
  refine Finset.card_le_card fun k hk => ?_
  obtain ⟨b, hb⟩ := mem_keys_iff.mp (List.mem_toFinset.mp hk)
  exact hm k b hb

/-- A map has as many keys as there are numbers in the set of its keys. -/
lemma size_eq_card {S : Finset Nat} (hm : ∀ k, (∃ b, m.get? k = some b) ↔ k ∈ S) :
    m.size = S.card := by
  rw [← length_keys, ← List.toFinset_card_of_nodup m.keys_nodup]
  congr 1
  ext k
  rw [List.mem_toFinset, mem_keys_iff, hm]

/-- The keys of a map are the numbers below a bound if these are the numbers under which there is a
value. -/
lemma keys_eq_range {n : Nat} (hm : ∀ k, (∃ b, m.get? k = some b) ↔ k < n) :
    m.keys = List.range n := by
  have hkeys : m.keys.Pairwise (· < ·) := List.pairwise_map.mpr m.ascending
  refine hkeys.eq_of_mem_iff List.pairwise_lt_range fun k => ?_
  rw [mem_keys_iff, hm, List.mem_range]

/-- The values then stand at the places that their keys say. -/
lemma getElem?_values {n : Nat} (hm : ∀ k, (∃ b, m.get? k = some b) ↔ k < n) (k : Nat) :
    (m.entries.map Prod.snd)[k]? = m.get? k := by
  have hplace : m.keys[k]? = (List.range n)[k]? := by rw [keys_eq_range hm]
  rw [keys, List.getElem?_map] at hplace
  rw [List.getElem?_map]
  cases hentry : m.entries[k]? with
  | none =>
      rw [hentry, Option.map_none, eq_comm, List.getElem?_eq_none_iff, List.length_range] at hplace
      rw [Option.map_none, eq_comm, Option.eq_none_iff_forall_ne_some]
      exact fun b hb => Nat.not_lt_of_le hplace ((hm k).mp ⟨b, hb⟩)
  | some e =>
      obtain ⟨k', b⟩ := e
      rw [hentry, Option.map_some, eq_comm, List.getElem?_eq_some_iff] at hplace
      obtain ⟨hk, hplace⟩ := hplace
      rw [List.getElem_range] at hplace
      subst hplace
      exact (mem_entries_iff.mp (List.mem_of_getElem? hentry)).symm
/-- A further key makes the map larger by one. -/
lemma size_insert {k : Nat} (b : β) (hk : m.get? k = none) : (m.insert k b).size = m.size + 1 := by
  have hlist : ∀ l : List (Nat × β), Assoc.get? k l = none →
      (Assoc.insert k b l).length = l.length + 1 := by
    intro l
    induction l with
    | nil => intro _; rfl
    | cons e l ih =>
        obtain ⟨k', b'⟩ := e
        intro hl
        rw [Assoc.get?] at hl
        split at hl
        · cases hl
        · next hne =>
          rw [Assoc.insert]
          split
          · rfl
          · rw [List.length_cons, ih hl, List.length_cons]
  exact hlist m.entries hk

/-! ### Parts of a map -/

/-- What the first map says, the second one says as well. -/
def Sub (m m' : KeyMap β) : Prop := ∀ k b, m.get? k = some b → m'.get? k = some b

namespace Sub

lemma refl (m : KeyMap β) : m.Sub m := fun _ _ h => h

lemma trans (h : m.Sub m') (h' : m'.Sub m'') : m.Sub m'' := fun k b hb => h' k b (h k b hb)

/-- A part of a map is no larger than the map. -/
lemma size_le (h : m.Sub m') : m.size ≤ m'.size := by
  rw [← length_keys]
  refine length_le_size m.keys_nodup fun k hk => ?_
  obtain ⟨b, hb⟩ := mem_keys_iff.mp hk
  exact ⟨b, h k b hb⟩

/-- A map grows by an insertion under a new key. -/
lemma insert {k : Nat} (b : β) (hk : m.get? k = none) : m.Sub (m.insert k b) := by
  intro k' b' hb'
  rw [get?_insert, if_neg, hb']
  rintro rfl
  rw [hk] at hb'
  cases hb'

/-- Values looked up one after the other are found in a larger map as well. -/
lemma map_get? {ks : List Nat} {bs : List β} (h : m.Sub m') (hbs : ks.map m.get? = bs.map some) :
    ks.map m'.get? = bs.map some := by
  rw [← hbs]
  refine List.map_congr_left fun k hk => ?_
  have hmem : m.get? k ∈ bs.map some := hbs ▸ List.mem_map_of_mem hk
  obtain ⟨b, -, hb⟩ := List.mem_map.mp hmem
  rw [← hb, h k b hb.symm]

/-- Of two ascending lists the first one is the beginning of the second one, if the second one has
all of its entries and all others come later. -/
lemma prefix_of_subset {l l' : List (Nat × β)} (hl : l.Pairwise (·.1 < ·.1))
    (hl' : l'.Pairwise (·.1 < ·.1)) (hsub : ∀ e ∈ l, e ∈ l')
    (hlater : ∀ e' ∈ l', e' ∉ l → ∀ e ∈ l, e.1 < e'.1) : l <+: l' := by
  induction l generalizing l' with
  | nil => exact List.nil_prefix
  | cons e l ih =>
      obtain ⟨hhead, htail⟩ := List.pairwise_cons.mp hl
      cases l' with
      | nil => cases hsub e List.mem_cons_self
      | cons e' l' =>
          obtain ⟨hhead', htail'⟩ := List.pairwise_cons.mp hl'
          -- the least entries of both lists are the same one
          have heq : e = e' := by
            by_contra hne
            have hlt : e'.1 < e.1 :=
              hhead' e ((List.mem_cons.mp (hsub e List.mem_cons_self)).resolve_left hne)
            by_cases hmem : e' ∈ e :: l
            · have hlt' := hhead e' ((List.mem_cons.mp hmem).resolve_left (Ne.symm hne))
              exact Nat.lt_asymm hlt hlt'
            · exact Nat.lt_asymm hlt (hlater e' List.mem_cons_self hmem e List.mem_cons_self)
          subst heq
          refine List.cons_prefix_cons.mpr
            ⟨rfl, ih htail htail' (fun d hd => ?_) fun d hd hnot => ?_⟩
          · refine (List.mem_cons.mp (hsub d (List.mem_cons_of_mem e hd))).resolve_left ?_
            rintro rfl
            exact Nat.lt_irrefl _ (hhead d hd)
          · have hne : d ≠ e := by
              rintro rfl
              exact Nat.lt_irrefl _ (hhead' d hd)
            intro c hc
            exact hlater d (List.mem_cons_of_mem e hd) (by simpa using ⟨hne, hnot⟩) c
              (List.mem_cons_of_mem e hc)

/-- If all further keys of a larger map are greater, its further entries stand behind the others. -/
lemma entries_prefix (h : m.Sub m') (bound : Nat) (hm : ∀ k b, m.get? k = some b → k < bound)
    (hlater : ∀ k b, m'.get? k = some b → k < bound → m.get? k = some b) :
    m.entries <+: m'.entries := by
  refine prefix_of_subset m.ascending m'.ascending
    (fun ⟨k, b⟩ hkb => ?_) fun ⟨k', b'⟩ hkb' hnot => ?_
  · exact mem_entries_iff.mpr (h k b (mem_entries_iff.mp hkb))
  · rintro ⟨k, b⟩ hkb
    refine (hm k b (mem_entries_iff.mp hkb)).trans_le (Nat.le_of_not_lt fun hlt => hnot ?_)
    exact mem_entries_iff.mpr (hlater k' b' (mem_entries_iff.mp hkb') hlt)

end Sub

/-! ### Changing and leaving out entries -/

/-- The map with each entry sent through a function of its key and value, which may drop it. -/
def filterMap {γ : Type} (f : Nat → β → Option γ) (m : KeyMap β) : KeyMap γ :=
  ⟨m.entries.filterMap fun e => (f e.1 e.2).map (Prod.mk e.1), by
    refine List.Pairwise.filterMap _ ?_ m.ascending
    intro e e' hlt c hc c' hc'
    obtain ⟨b, -, rfl⟩ := Option.map_eq_some_iff.mp hc
    obtain ⟨b', -, rfl⟩ := Option.map_eq_some_iff.mp hc'
    exact hlt⟩

lemma get?_filterMap {γ : Type} (f : Nat → β → Option γ) (m : KeyMap β) (k : Nat) :
    (m.filterMap f).get? k = (m.get? k).bind (f k) := by
  ext c
  rw [← mem_entries_iff, Option.bind_eq_some_iff, filterMap, List.mem_filterMap]
  constructor
  · rintro ⟨⟨k', b⟩, hmem, heq⟩
    obtain ⟨c', hc', heq⟩ := Option.map_eq_some_iff.mp heq
    cases heq
    exact ⟨b, mem_entries_iff.mp hmem, hc'⟩
  · rintro ⟨b, hb, hc⟩
    exact ⟨(k, b), mem_entries_iff.mpr hb, by rw [hc]; rfl⟩

end RadixPool.KeyMap
