/-!
Association lists kept in ascending order of their keys.

The list form of a finite map. Its entries stand in strictly ascending order, so a map has one list
and equal maps are equal lists.

* `Assoc.get?`, `Assoc.insert`, `Assoc.erase`: look-up, insertion with replacement, removal.
* `Assoc.Ascending`: the order of the entries.
* `Assoc.get?_insert`: what a look-up sees after an insertion.
-/

namespace RadixPool.Assoc

variable {κ β : Type} [LT κ] [DecidableLT κ] [DecidableEq κ]

/-- The value stored under a key. -/
def get? (k : κ) : List (κ × β) → Option β
  | [] => none
  | (k', b) :: l => if k = k' then some b else get? k l

/-- Stores a value under a key, in place of an earlier one or before the first greater key. -/
def insert (k : κ) (b : β) : List (κ × β) → List (κ × β)
  | [] => [(k, b)]
  | (k', b') :: l =>
    if k < k' then (k, b) :: (k', b') :: l
    else if k = k' then (k, b) :: l
    else (k', b') :: insert k b l

/-- Removes the entry of a key. -/
def erase (k : κ) : List (κ × β) → List (κ × β)
  | [] => []
  | (k', b) :: l => if k = k' then l else (k', b) :: erase k l

/-- Each key is smaller than all later ones. -/
def Ascending (l : List (κ × β)) : Prop := l.Pairwise fun a b => a.1 < b.1

omit [LT κ] [DecidableLT κ] in
@[simp] theorem get?_nil (k : κ) : get? k ([] : List (κ × β)) = none := rfl

omit [LT κ] [DecidableLT κ] in
theorem mem_of_get?_eq_some {k : κ} {b : β} {l : List (κ × β)} (h : get? k l = some b) :
    (k, b) ∈ l := by
  induction l with
  | nil => simp at h
  | cons e l ih =>
    obtain ⟨k', b'⟩ := e
    rw [get?] at h
    split at h
    · simp_all
    · exact List.mem_cons_of_mem _ (ih h)

theorem mem_insert {k : κ} {b : β} {e : κ × β} {l : List (κ × β)} (h : e ∈ insert k b l) :
    e = (k, b) ∨ e ∈ l := by
  induction l with
  | nil => simpa [insert] using h
  | cons e' l ih =>
    obtain ⟨k', b'⟩ := e'
    rw [insert] at h
    split at h
    · simpa using h
    · split at h
      · rcases List.mem_cons.1 h with h | h
        · exact .inl h
        · exact .inr (List.mem_cons_of_mem _ h)
      · rcases List.mem_cons.1 h with h | h
        · exact .inr (by simp [h])
        · exact (ih h).imp_right (List.mem_cons_of_mem _)

/-- A look-up after an insertion sees the new value under its key and all else as before. -/
theorem get?_insert (k k' : κ) (b : β) (l : List (κ × β)) :
    get? k' (insert k b l) = if k' = k then some b else get? k' l := by
  induction l with
  | nil => simp [insert, get?]
  | cons e l ih =>
    obtain ⟨k'', b''⟩ := e
    rw [insert]
    split
    · simp [get?]
    · split
      · next h => subst h; by_cases hk : k' = k <;> simp [get?, hk]
      · next h =>
        rw [get?, ih]
        by_cases hk : k' = k''
        · subst hk; simp [get?, Ne.symm h]
        · simp [get?, hk]

omit [LT κ] [DecidableLT κ] in
theorem mem_of_mem_erase {k : κ} {e : κ × β} {l : List (κ × β)} (h : e ∈ erase k l) : e ∈ l := by
  induction l with
  | nil => simp [erase] at h
  | cons e' l ih =>
    obtain ⟨k', b'⟩ := e'
    rw [erase] at h
    split at h
    · exact List.mem_cons_of_mem _ h
    · rcases List.mem_cons.1 h with h | h
      · simp [h]
      · exact List.mem_cons_of_mem _ (ih h)

end RadixPool.Assoc
