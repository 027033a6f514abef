import Mathlib
import RadixPool.Assoc

/-!
Association lists up to the order of their entries.

* `Assoc.perm_insert`, `Assoc.perm_erase`: an insertion under a new key adds an entry, a removal
  takes one away.
* `Assoc.perm_foldl_insert`: insertions under different keys add all entries.
* `Assoc.get?_of_mem`, `Assoc.get?_foldl_insert`: with different keys every entry is found.
* `Assoc.get?_erase_self`: with different keys an entry that was removed is gone.
-/

namespace RadixPool.Assoc

variable {κ β : Type} [LT κ] [DecidableLT κ] [DecidableEq κ] {k : κ} {b : β} {l m : List (κ × β)}

omit [LT κ] [DecidableLT κ] in
/-- With different keys every entry is found. -/
lemma get?_of_mem (hnd : (l.map Prod.fst).Nodup) (hmem : (k, b) ∈ l) : get? k l = some b := by
  induction l with
  | nil => cases hmem
  | cons e l ih =>
      obtain ⟨k', b'⟩ := e
      rw [List.map_cons, List.nodup_cons] at hnd
      rcases List.mem_cons.mp hmem with heq | hin
      · cases heq
        rw [get?, if_pos rfl]
      · have hne : k ≠ k' := by
          rintro rfl
          exact hnd.1 (List.mem_map.mpr ⟨_, hin, rfl⟩)
        rw [get?, if_neg hne]
        exact ih hnd.2 hin

/-- An insertion under a new key adds an entry. -/
lemma perm_insert (b : β) (hk : get? k l = none) : (insert k b l).Perm ((k, b) :: l) := by
  induction l with
  | nil => exact .refl _
  | cons e l ih =>
      obtain ⟨k', b'⟩ := e
      rw [get?] at hk
      split at hk
      · cases hk
      · next hne =>
        rw [insert]
        split
        · exact .refl _
        · exact ((ih hk).cons (k', b')).trans (.swap _ _ _)

/-- Insertions under different new keys add all entries. -/
lemma perm_foldl_insert (hnd : (l.map Prod.fst).Nodup) (hnew : ∀ e ∈ l, get? e.1 m = none) :
    (l.foldl (fun m e => insert e.1 e.2 m) m).Perm (l ++ m) := by
  induction l generalizing m with
  | nil => exact .refl _
  | cons e l ih =>
      rw [List.map_cons, List.nodup_cons] at hnd
      obtain ⟨he, hnew⟩ := List.forall_mem_cons.mp hnew
      have hrest := ih (m := insert e.1 e.2 m) hnd.2 fun e' he' => by
        rw [get?_insert, if_neg, hnew e' he']
        intro heq
        exact hnd.1 (heq ▸ List.mem_map_of_mem he')
      exact hrest.trans (((perm_insert e.2 he).append_left l).trans List.perm_middle)

/-- After insertions under different keys into the empty list every entry is found. -/
lemma get?_foldl_insert (hnd : (l.map Prod.fst).Nodup) {e : κ × β} (he : e ∈ l) :
    get? e.1 (l.foldl (fun m e => insert e.1 e.2 m) []) = some e.2 := by
  have hperm := perm_foldl_insert (m := []) hnd fun _ _ => rfl
  rw [List.append_nil] at hperm
  exact get?_of_mem ((hperm.map Prod.fst).nodup_iff.mpr hnd) (hperm.mem_iff.mpr he)

omit [LT κ] [DecidableLT κ] in
/-- A removal takes the entry away that was found. -/
lemma perm_erase (hk : get? k l = some b) : l.Perm ((k, b) :: erase k l) := by
  induction l with
  | nil => cases hk
  | cons e l ih =>
      obtain ⟨k', b'⟩ := e
      rw [get?] at hk
      split at hk
      · next heq =>
        subst heq
        obtain rfl := Option.some.inj hk
        rw [erase, if_pos rfl]
      · next hne =>
        rw [erase, if_neg hne]
        exact ((ih hk).cons (k', b')).trans (.swap _ _ _)

omit [LT κ] [DecidableLT κ] in
/-- With different keys nothing is left under a key after its removal. -/
lemma get?_erase_self (hnd : (l.map Prod.fst).Nodup) (k : κ) : get? k (erase k l) = none := by
  induction l with
  | nil => rfl
  | cons e l ih =>
      obtain ⟨k', b'⟩ := e
      rw [List.map_cons, List.nodup_cons] at hnd
      rw [erase]
      split
      · next heq =>
        subst heq
        by_contra hne
        obtain ⟨b, hb⟩ := Option.ne_none_iff_exists'.mp hne
        exact hnd.1 (List.mem_map.mpr ⟨_, mem_of_get?_eq_some hb, rfl⟩)
      · next hne => rw [get?, if_neg hne, ih hnd.2]

/-- What is inserted under a new key is gone after its removal. -/
lemma erase_insert (b : β) (hk : get? k l = none) : erase k (insert k b l) = l := by
  induction l with
  | nil => simp [insert, erase]
  | cons e l ih =>
      obtain ⟨k', b'⟩ := e
      rw [get?] at hk
      split at hk
      · cases hk
      · next hne =>
        rw [insert]
        split
        · rw [erase, if_pos rfl]
        · rw [erase, if_neg hne, ih hk]

end RadixPool.Assoc
