import Mathlib
import RadixPool.Proofs.Vec.Sound

/-!
Editing vectors.

Appending and replacing do the same to a sound vector as to the list of its elements, whatever its
tree looks like. So two sound vectors with the same elements stay alike through any edits, although
their trees may grow at different times and have size tables at different places.

* `Edit`, `Edit.apply`: appending or replacing an element, and what it does to a list.
* `Vec.edit`, `Vec.Edits`: edits of a vector, one and several.
* `Vec.Agrees`: vectors that answer alike.
* `Vec.Sound.edits`: what several edits do to a sound vector.
* `Vec.Sound.agrees_of_edits`: vectors with the same elements answer alike after the same edits.
-/

namespace RadixPool

variable {α : Type} {s : Shape}

/-- A change of a vector: an element is appended, or the one at a position is replaced. -/
inductive Edit (α : Type) where
  | push (x : α)
  | set (i : Nat) (x : α)

namespace Edit

/-- What an edit does to a list. Out of bounds nothing is replaced. -/
def apply (xs : List α) : Edit α → List α
  | push x => xs ++ [x]
  | set i x => xs.set i x

/-- How many elements an edit adds. -/
def growth : Edit α → Nat
  | push _ => 1
  | set _ _ => 0

/-- How many elements some edits add. -/
def totalGrowth (es : List (Edit α)) : Nat := (es.map growth).sum

lemma length_apply (xs : List α) (e : Edit α) : (e.apply xs).length = xs.length + e.growth := by
  cases e with
  | push x => rw [apply, growth, List.length_append, List.length_singleton]
  | set i x => rw [apply, growth, List.length_set, Nat.add_zero]

lemma totalGrowth_cons (e : Edit α) (es : List (Edit α)) :
    totalGrowth (e :: es) = e.growth + totalGrowth es := by
  rw [totalGrowth, totalGrowth, List.map_cons, List.sum_cons]

end Edit

namespace Vec

/-- The vector after an edit. Out of bounds it stays as it is. -/
def edit (s : Shape) (v : Vec α) : Edit α → Fresh (Vec α)
  | .push x => v.push s x
  | .set i x => fun next =>
    let (w?, next) := v.set? s i x next
    (w?.getD v, next)

/-- The second vector comes from the first one by some edits. Each of them draws its identities from
wherever the supply is by then. -/
inductive Edits (s : Shape) : Vec α → List (Edit α) → Vec α → Prop where
  | nil (v : Vec α) : Edits s v [] v
  | cons {v w : Vec α} {es : List (Edit α)} (e : Edit α) (next : NodeId)
      (rest : Edits s (v.edit s e next).1 es w) : Edits s v (e :: es) w

/-- Vectors that answer alike: they have the same elements and the same length, a look-up gives the
same at every position, and an element can be replaced at the same positions. -/
structure Agrees (s : Shape) (v w : Vec α) : Prop where
  toList : v.toList = w.toList
  len : v.len = w.len
  get? : ∀ i, v.get? s i = w.get? s i
  set? : ∀ i x next next', (v.set? s i x next).1.isSome = (w.set? s i x next').1.isSome

namespace Sound

variable {h h' : Nat} {v v' w w' : Vec α}

/-- An edit does to the elements what it does to a list, and keeps vectors sound while their
length is a word. -/
lemma edit (hs : s.Valid) (hv : v.Sound s h) (e : Edit α) (next : NodeId)
    (hroom : v.toList.length + e.growth < Word.count) :
    (v.edit s e next).1.toList = e.apply v.toList ∧ ∃ h', (v.edit s e next).1.Sound s h' := by
  cases e with
  | push x => exact ⟨hv.toList_push hs x next, hv.push hs x next hroom⟩
  | set i x =>
      rw [Vec.edit, Edit.apply]
      by_cases hi : i < v.toList.length
      · obtain ⟨v', next', hset, hv', hlist⟩ := hv.set?_eq hs hi x next
        simp only [hset]
        exact ⟨hlist, h, hv'⟩
      · have hle := Nat.le_of_not_lt hi
        simp only [hv.set?_eq_none hle, List.set_eq_of_length_le hle]
        exact ⟨rfl, h, hv⟩

/-- Several edits do to the elements what they do to a list. -/
theorem edits (hs : s.Valid) {es : List (Edit α)} (hedits : Edits s v es w) (hv : v.Sound s h)
    (hroom : v.toList.length + Edit.totalGrowth es < Word.count) :
    w.toList = es.foldl Edit.apply v.toList ∧ ∃ h', w.Sound s h' := by
  induction hedits generalizing h with
  | nil v => exact ⟨rfl, h, hv⟩
  | @cons v w es e next _ ih =>
      rw [Edit.totalGrowth_cons] at hroom
      obtain ⟨hlist, h₁, hv₁⟩ := hv.edit hs e next (by omega)
      have hlength := Edit.length_apply v.toList e
      rw [← hlist] at hlength
      rw [List.foldl_cons, ← hlist]
      exact ih hv₁ (by omega)

/-- Whether an element can be replaced depends on the number of elements only. -/
lemma isSome_set? (hs : s.Valid) (hv : v.Sound s h) (i : Nat) (x : α) (next : NodeId) :
    (v.set? s i x next).1.isSome = decide (i < v.toList.length) := by
  by_cases hi : i < v.toList.length
  · obtain ⟨v', next', hset, -, -⟩ := hv.set?_eq hs hi x next
    rw [hset, decide_eq_true hi]
    rfl
  · rw [hv.set?_eq_none (Nat.le_of_not_lt hi), decide_eq_false hi]
    rfl

/-- Sound vectors with the same elements answer alike. -/
lemma agrees (hs : s.Valid) (hv : v.Sound s h) (hw : w.Sound s h') (heq : v.toList = w.toList) :
    v.Agrees s w := by
  refine ⟨heq, ?_, fun i => ?_, fun i x next next' => ?_⟩
  · rw [hv.len, hw.len, heq]
  · rw [hv.get?_eq hs, hw.get?_eq hs, heq]
  · rw [hv.isSome_set? hs, hw.isSome_set? hs, heq]

/-- Sound vectors with the same elements answer alike after the same edits, as long as their
length is a word. -/
theorem agrees_of_edits (hs : s.Valid) (hv : v.Sound s h) (hw : w.Sound s h')
    (heq : v.toList = w.toList) {es : List (Edit α)}
    (hroom : v.toList.length + Edit.totalGrowth es < Word.count) (hv' : Edits s v es v')
    (hw' : Edits s w es w') : v'.Agrees s w' := by
  obtain ⟨hlist, _, hsound⟩ := hv.edits hs hv' hroom
  obtain ⟨hlist', _, hsound'⟩ := hw.edits hs hw' (heq ▸ hroom)
  exact hsound.agrees hs hsound' (by rw [hlist, hlist', heq])

end Sound

end Vec

end RadixPool
