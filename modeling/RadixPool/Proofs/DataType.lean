import Mathlib
import RadixPool.DataType
import RadixPool.Proofs.Pool.Document

/-!
Values that are read as they were written.

A document that is null stands for no value of an option, so an option cannot hold values that are
written as null themselves. There is no other obstacle: a type reads all of its values as they were
written exactly if no option in it is over such a type.

* `DataType.WritesNull`: the types with a value that is written as null.
* `DataType.ReadsBack`: the types without an option over one of these.
* `DataType.ofJson?_toJson_iff`: these are the types that read their values as they were written.
-/

namespace RadixPool.DataType

/-- The types with a value that is written as null. -/
def WritesNull : DataType → Prop
  | .json | .option _ => True
  | _ => False

/-- The types in which no option is over a type that writes a null. -/
def ReadsBack : DataType → Prop
  | .option t => ¬ t.WritesNull ∧ t.ReadsBack
  | .list t => t.ReadsBack
  | .pair s t => s.ReadsBack ∧ t.ReadsBack
  | _ => True

lemma writesNull_iff (t : DataType) : t.WritesNull ↔ ∃ x, t.toJson x = .null := by
  cases t with
  | json => exact iff_of_true trivial ⟨Json.null, rfl⟩
  | option t => exact iff_of_true trivial ⟨none, rfl⟩
  | int | text | flag | list | pair => exact iff_of_false id fun ⟨_, hx⟩ => by cases hx

/-- Any document but null is read as what the option holds. -/
lemma ofJson?_option {t : DataType} {j : Json} (hj : j ≠ .null) :
    (option t).ofJson? j = (t.ofJson? j).map some := by
  cases j with
  | null => exact absurd rfl hj
  | _ => rfl

/-- The values of a type without such an option are read as they were written. -/
theorem ReadsBack.ofJson?_toJson : {t : DataType} → t.ReadsBack → (x : t.Value) →
    t.ofJson? (t.toJson x) = some x
  | .int _, _, x => dif_pos x.2
  | .text, _, _ | .flag, _, _ | .json, _, _ | .option _, _, none => rfl
  | .option t, ht, some x => by
    have hne : t.toJson x ≠ .null := fun hx => ht.1 (t.writesNull_iff.mpr ⟨x, hx⟩)
    rw [toJson, ofJson?_option hne, ht.2.ofJson?_toJson, Option.map_some]
    rfl
  | .list t, ht, _ =>
    have ht' : t.ReadsBack := ht
    Json.listOf?_arr_map fun x _ => ht'.ofJson?_toJson x
  | .pair s t, ht, (x, y) => by
    simp only [toJson, ofJson?, ht.1.ofJson?_toJson x, ht.2.ofJson?_toJson y]

/-- A type reads all of its values as they were written exactly if no option in it is over a type
with a value that is written as null. -/
theorem ofJson?_toJson_iff (t : DataType) :
    (∀ x, t.ofJson? (t.toJson x) = some x) ↔ t.ReadsBack := by
  refine ⟨fun h => ?_, ReadsBack.ofJson?_toJson⟩
  induction t with
  | int | text | flag | json => trivial
  | option t ih =>
      have hnull : ¬ t.WritesNull := by
        rw [writesNull_iff]
        rintro ⟨x, hx⟩
        have hsome := h (some x)
        rw [toJson, hx] at hsome
        cases hsome
      refine ⟨hnull, ih fun x => ?_⟩
      have hsome := h (some x)
      have hne : t.toJson x ≠ .null := fun hx => hnull (t.writesNull_iff.mpr ⟨x, hx⟩)
      rw [toJson, ofJson?_option hne] at hsome
      obtain ⟨y, hy, hyx⟩ := Option.map_eq_some_iff.mp hsome
      exact Option.some.inj hyx ▸ hy
  | list t ih =>
      refine ih fun x => ?_
      have hlist := h [x]
      simp only [toJson, ofJson?, Json.listOf?, List.map_cons, List.map_nil, List.mapM_cons,
        List.mapM_nil] at hlist
      cases hx : t.ofJson? (t.toJson x) with
      | none =>
          rw [hx] at hlist
          cases hlist
      | some y =>
          rw [hx] at hlist
          exact congrArg some (List.cons.inj (Option.some.inj hlist)).1
  | pair s t ihs iht =>
      have hboth : ∀ x y, s.ofJson? (s.toJson x) = some x ∧ t.ofJson? (t.toJson y) = some y := by
        intro x y
        have hpair := h (x, y)
        simp only [toJson, ofJson?] at hpair
        split at hpair
        · next x' y' hx hy =>
          obtain ⟨rfl, rfl⟩ := Prod.mk.inj (Option.some.inj hpair)
          exact ⟨hx, hy⟩
        · cases hpair
      exact ⟨ihs fun x => (hboth x t.default).1, iht fun y => (hboth s.default y).2⟩

end RadixPool.DataType
