import RadixPool.Assoc

/-!
Finite maps from natural numbers.

Nodes, keys and marks are numbered, and every table of the library is a `KeyMap`: an association
list in ascending order of its keys, with the order in the type. Two maps with the same look-ups are
equal (`KeyMap.ext_get?`), and a walk over the entries meets the keys from the least to the
greatest.

* `KeyMap.get?`, `KeyMap.insert`, `KeyMap.contains`, `KeyMap.size`: the operations.
* `KeyMap.mapValues`: the same keys with other values.
-/

namespace RadixPool

/-- A finite map from natural numbers, its entries in ascending order of their keys. -/
structure KeyMap (β : Type) where
  /-- The entries, least key first. -/
  entries : List (Nat × β)
  ascending : Assoc.Ascending entries

namespace KeyMap

variable {β γ : Type}

/-- The map without entries. -/
def empty : KeyMap β := ⟨[], List.Pairwise.nil⟩

instance : EmptyCollection (KeyMap β) := ⟨empty⟩

instance : Inhabited (KeyMap β) := ⟨empty⟩

instance [DecidableEq β] : DecidableEq (KeyMap β) := fun m n =>
  decidable_of_iff (m.entries = n.entries) (by cases m; cases n; simp)

/-- The value under a key. -/
def get? (m : KeyMap β) (k : Nat) : Option β := Assoc.get? k m.entries

/-- Whether a key is in use. -/
def contains (m : KeyMap β) (k : Nat) : Bool := (m.get? k).isSome

/-- The number of keys in use. -/
def size (m : KeyMap β) : Nat := m.entries.length

/-- Whether no key is in use. -/
def isEmpty (m : KeyMap β) : Bool := m.entries.isEmpty

/-- The keys in use, least first. -/
def keys (m : KeyMap β) : List Nat := m.entries.map Prod.fst

theorem ascending_insert (k : Nat) (b : β) {l : List (Nat × β)} (h : Assoc.Ascending l) :
    Assoc.Ascending (Assoc.insert k b l) := by
  induction l with
  | nil => exact List.pairwise_singleton _ _
  | cons e l ih =>
    obtain ⟨k', b'⟩ := e
    obtain ⟨hhead, htail⟩ := List.pairwise_cons.1 h
    rw [Assoc.insert]
    split
    · next hk =>
      refine List.pairwise_cons.2 ⟨fun e he => ?_, h⟩
      rcases List.mem_cons.1 he with he | he
      · rw [he]; exact hk
      · exact Nat.lt_trans hk (hhead e he)
    · split
      · next hk => subst hk; exact List.pairwise_cons.2 ⟨hhead, htail⟩
      · next hlt hne =>
        refine List.pairwise_cons.2 ⟨fun e he => ?_, ih htail⟩
        rcases Assoc.mem_insert he with he | he
        · rw [he]; exact Nat.lt_of_le_of_ne (Nat.le_of_not_lt hlt) (Ne.symm hne)
        · exact hhead e he

/-- Stores a value under a key, in place of an earlier one. -/
def insert (m : KeyMap β) (k : Nat) (b : β) : KeyMap β :=
  ⟨Assoc.insert k b m.entries, ascending_insert k b m.ascending⟩

/-- The same keys with the values sent through `f`. -/
def mapValues (f : β → γ) (m : KeyMap β) : KeyMap γ :=
  ⟨m.entries.map fun e : Nat × β => (e.1, f e.2), List.pairwise_map.2 m.ascending⟩

/-- The map of a list of entries; a later entry replaces an earlier one of its key. -/
def ofList (l : List (Nat × β)) : KeyMap β := l.foldl (fun m e => m.insert e.1 e.2) ∅

@[simp] theorem get?_empty (k : Nat) : (∅ : KeyMap β).get? k = none := rfl

/-- After an insertion the key has the new value and all others are as before. -/
theorem get?_insert (m : KeyMap β) (k k' : Nat) (b : β) :
    (m.insert k b).get? k' = if k' = k then some b else m.get? k' :=
  Assoc.get?_insert k k' b m.entries

@[simp] theorem get?_insert_self (m : KeyMap β) (k : Nat) (b : β) :
    (m.insert k b).get? k = some b := by
  simp [get?_insert]

theorem get?_mapValues (f : β → γ) (m : KeyMap β) (k : Nat) :
    (m.mapValues f).get? k = (m.get? k).map f := by
  obtain ⟨l, h⟩ := m
  simp only [mapValues, get?]
  clear h
  induction l with
  | nil => rfl
  | cons e l ih =>
    obtain ⟨k', b⟩ := e
    simp only [List.map_cons, Assoc.get?, ih]
    split <;> rfl

theorem get?_eq_none_of_forall_lt {k : Nat} {l : List (Nat × β)} (h : ∀ e ∈ l, k < e.1) :
    Assoc.get? k l = none := by
  induction l with
  | nil => rfl
  | cons e l ih =>
    obtain ⟨k', b⟩ := e
    have hk : k < k' := h (k', b) (by simp)
    rw [Assoc.get?, if_neg (Nat.ne_of_lt hk)]
    exact ih fun e he => h e (List.mem_cons_of_mem _ he)

/-- Maps with the same look-ups are equal. -/
theorem ext_get? {m n : KeyMap β} (h : ∀ k, m.get? k = n.get? k) : m = n := by
  obtain ⟨l₁, h₁⟩ := m
  obtain ⟨l₂, h₂⟩ := n
  suffices l₁ = l₂ by subst this; rfl
  simp only [get?] at h
  induction l₁ generalizing l₂ with
  | nil =>
    cases l₂ with
    | nil => rfl
    | cons e l => obtain ⟨k, b⟩ := e; simpa [Assoc.get?] using h k
  | cons e₁ l₁ ih =>
    obtain ⟨k₁, b₁⟩ := e₁
    obtain ⟨hh₁, ht₁⟩ := List.pairwise_cons.1 h₁
    cases l₂ with
    | nil => simpa [Assoc.get?] using h k₁
    | cons e₂ l₂ =>
      obtain ⟨k₂, b₂⟩ := e₂
      obtain ⟨hh₂, ht₂⟩ := List.pairwise_cons.1 h₂
      have hk : k₁ = k₂ := by
        have e₁ := h k₁
        have e₂ := h k₂
        simp only [Assoc.get?] at e₁ e₂
        rcases Nat.lt_trichotomy k₁ k₂ with lt | eq | gt
        · rw [get?_eq_none_of_forall_lt fun e he => Nat.lt_trans lt (hh₂ e he)] at e₁
          simp [Nat.ne_of_lt lt] at e₁
        · exact eq
        · rw [get?_eq_none_of_forall_lt fun e he => Nat.lt_trans gt (hh₁ e he)] at e₂
          simp [Nat.ne_of_lt gt] at e₂
      subst hk
      have hb : b₁ = b₂ := by simpa [Assoc.get?] using h k₁
      subst hb
      congr 1
      refine ih ht₁ l₂ ht₂ fun k => ?_
      by_cases hk : k = k₁
      · subst hk
        rw [get?_eq_none_of_forall_lt hh₁, get?_eq_none_of_forall_lt hh₂]
      · simpa [Assoc.get?, hk] using h k

end KeyMap

end RadixPool
