import Mathlib
import RadixPool.Error

/-!
Computations that may fail.

* `bind_eq_ok_iff`, `bind_of_ok`: computations one after the other.
* `forM_eq_ok_iff`, `then_eq_ok_iff`: checks one after the other.
* `bind_eq_error_iff`, `then_eq_error_iff`, `forM_eq_error_iff`: the first failure.
* `IsFirst`: the first entry of a list with a property.
* `FailsOnlyWith`: computations all of whose errors have a property.
* `run_bind_of_ok`, `run_bind_of_error`, `run_bind_eq_ok_iff`: computations with a state that is
  kept even if they fail.
-/

namespace RadixPool

/-! ### Computations and checks -/

/-- Two computations in turn succeed if both do. -/
lemma bind_eq_ok_iff {β γ : Type} {f : Except Error β} {g : β → Except Error γ} {c : γ} :
    (f >>= g) = .ok c ↔ ∃ b, f = .ok b ∧ g b = .ok c := by
  cases f with
  | error e => exact ⟨(fun h => nomatch h), fun ⟨_, h, _⟩ => nomatch h⟩
  | ok b =>
      constructor
      · intro h
        exact ⟨b, rfl, h⟩
      · rintro ⟨b', hb, hg⟩
        cases hb
        exact hg

lemma bind_of_ok {β γ : Type} {f : Except Error β} {g : β → Except Error γ} {b : β}
    (hf : f = .ok b) : (f >>= g) = g b := by
  rw [hf]
  rfl

/-- Two checks in turn succeed if both do. -/
lemma then_eq_ok_iff {f g : Except Error Unit} :
    (f >>= fun _ => g) = .ok () ↔ f = .ok () ∧ g = .ok () := by
  rw [bind_eq_ok_iff]
  exact ⟨fun ⟨_, hf, hg⟩ => ⟨hf, hg⟩, fun ⟨hf, hg⟩ => ⟨(), hf, hg⟩⟩

/-- A check of all entries of a list succeeds if each of them passes. -/
lemma forM_eq_ok_iff {β : Type} {f : β → Except Error Unit} {l : List β} :
    l.forM f = .ok () ↔ ∀ b ∈ l, f b = .ok () := by
  induction l with
  | nil => exact ⟨fun _ _ hb => (nomatch hb), fun _ => rfl⟩
  | cons b l ih =>
      have hcons : (b :: l).forM f = (f b >>= fun _ => l.forM f) := rfl
      rw [hcons, then_eq_ok_iff, List.forall_mem_cons, ih]

/-- Two computations in turn fail if the first one does, or the second one after it. -/
lemma bind_eq_error_iff {β γ : Type} {f : Except Error β} {g : β → Except Error γ} {e : Error} :
    (f >>= g) = .error e ↔ f = .error e ∨ ∃ b, f = .ok b ∧ g b = .error e := by
  cases f with
  | error e' =>
      refine ⟨fun h => .inl ?_, ?_⟩
      · obtain rfl := Except.error.inj h
        rfl
      · rintro (h | ⟨_, h, _⟩)
        · obtain rfl := Except.error.inj h
          rfl
        · cases h
  | ok b =>
      refine ⟨fun h => .inr ⟨b, rfl, h⟩, ?_⟩
      rintro (h | ⟨b', hb, hg⟩)
      · cases h
      · cases hb
        exact hg

lemma then_eq_error_iff {f g : Except Error Unit} {e : Error} :
    (f >>= fun _ => g) = .error e ↔ f = .error e ∨ f = .ok () ∧ g = .error e := by
  rw [bind_eq_error_iff]
  exact or_congr_right ⟨fun ⟨_, hf, hg⟩ => ⟨hf, hg⟩, fun ⟨hf, hg⟩ => ⟨(), hf, hg⟩⟩

/-! ### The first entry with a property -/

/-- The first entry of a list with a property. -/
def IsFirst {β : Type} (P : β → Prop) (l : List β) (b : β) : Prop :=
  ∃ init rest, l = init ++ b :: rest ∧ (∀ a ∈ init, ¬ P a) ∧ P b

lemma IsFirst.mem {β : Type} {P : β → Prop} {l : List β} {b : β} (h : IsFirst P l b) : b ∈ l := by
  obtain ⟨init, rest, rfl, -⟩ := h
  exact List.mem_append_right _ List.mem_cons_self

lemma IsFirst.prop {β : Type} {P : β → Prop} {l : List β} {b : β} (h : IsFirst P l b) : P b := by
  obtain ⟨_, _, -, -, hb⟩ := h
  exact hb

lemma not_isFirst_nil {β : Type} {P : β → Prop} {b : β} : ¬ IsFirst P [] b := fun h =>
  List.not_mem_nil h.mem

lemma isFirst_cons_iff {β : Type} {P : β → Prop} {a b : β} {l : List β} :
    IsFirst P (a :: l) b ↔ P a ∧ b = a ∨ ¬ P a ∧ IsFirst P l b := by
  constructor
  · rintro ⟨init, rest, h, hinit, hb⟩
    cases init with
    | nil =>
        obtain ⟨rfl, rfl⟩ := List.cons.inj h
        exact .inl ⟨hb, rfl⟩
    | cons c init =>
        obtain ⟨rfl, rfl⟩ := List.cons.inj h
        obtain ⟨ha, hinit⟩ := List.forall_mem_cons.mp hinit
        exact .inr ⟨ha, init, rest, rfl, hinit, hb⟩
  · rintro (⟨ha, rfl⟩ | ⟨ha, init, rest, rfl, hinit, hb⟩)
    · exact ⟨[], l, rfl, (fun _ hmem => nomatch hmem), ha⟩
    · exact ⟨a :: init, rest, rfl, List.forall_mem_cons.mpr ⟨ha, hinit⟩, hb⟩

/-- A check of all entries of a list fails at the first entry that does not pass. -/
lemma forM_eq_error_iff {β : Type} {f : β → Except Error Unit} {l : List β} {e : Error} :
    l.forM f = .error e ↔ ∃ b, IsFirst (fun a => f a ≠ .ok ()) l b ∧ f b = .error e := by
  induction l with
  | nil => exact ⟨(fun h => nomatch h), fun ⟨_, h, _⟩ => absurd h not_isFirst_nil⟩
  | cons a l ih =>
      have hcons : (a :: l).forM f = (f a >>= fun _ => l.forM f) := rfl
      rw [hcons, then_eq_error_iff, ih]
      constructor
      · rintro (h | ⟨h, b, hb, hfail⟩)
        · exact ⟨a, isFirst_cons_iff.mpr (.inl ⟨fun hok => (nomatch h.symm.trans hok), rfl⟩), h⟩
        · exact ⟨b, isFirst_cons_iff.mpr (.inr ⟨fun hne => hne h, hb⟩), hfail⟩
      · rintro ⟨b, hb, hfail⟩
        obtain ⟨-, rfl⟩ | ⟨hok, hb⟩ := isFirst_cons_iff.mp hb
        · exact .inl hfail
        · exact .inr ⟨not_not.mp hok, b, hb, hfail⟩

/-! ### What errors there may be -/

/-- Whatever the computation fails with has the property. -/
def FailsOnlyWith {β : Type} (P : Error → Prop) (f : Except Error β) : Prop :=
  ∀ e, f = .error e → P e

namespace FailsOnlyWith

variable {β γ : Type} {P : Error → Prop}

lemma ok (b : β) : FailsOnlyWith P (.ok b) := by
  intro e h
  cases h

lemma error {e : Error} (he : P e) : FailsOnlyWith P (.error e : Except Error β) := by
  intro e' h
  cases h
  exact he

lemma bind {f : Except Error β} {g : β → Except Error γ} (hf : FailsOnlyWith P f)
    (hg : ∀ b, FailsOnlyWith P (g b)) : FailsOnlyWith P (f >>= g) := by
  intro e h
  rcases bind_eq_error_iff.mp h with h | ⟨b, -, h⟩
  · exact hf e h
  · exact hg b e h

lemma forM {f : β → Except Error Unit} (hf : ∀ b, FailsOnlyWith P (f b)) (l : List β) :
    FailsOnlyWith P (l.forM f) := by
  intro e h
  obtain ⟨b, -, h⟩ := forM_eq_error_iff.mp h
  exact hf b e h

lemma foldlM {f : β → γ → Except Error β} (hf : ∀ b c, FailsOnlyWith P (f b c))
    (l : List γ) (b : β) : FailsOnlyWith P (l.foldlM f b) := by
  induction l generalizing b with
  | nil => exact ok b
  | cons c l ih =>
      rw [List.foldlM_cons]
      exact (hf b c).bind ih

end FailsOnlyWith

/-! ### Computations with a state -/

section State

variable {ε τ β γ : Type} {st st₁ st' : τ}

lemma run_bind_of_ok {f : ExceptT ε (StateM τ) β} {g : β → ExceptT ε (StateM τ) γ} {b : β}
    (hf : f st = (.ok b, st')) : (f >>= g) st = g b st' := by
  change (match f st with | (x, st₁) => ExceptT.bindCont g x st₁) = _
  rw [hf]
  rfl

lemma run_bind_of_error {f : ExceptT ε (StateM τ) β} {g : β → ExceptT ε (StateM τ) γ}
    {e : ε} (hf : f st = (.error e, st')) : (f >>= g) st = (.error e, st') := by
  change (match f st with | (x, st₁) => ExceptT.bindCont g x st₁) = _
  rw [hf]
  rfl

/-- Two computations in turn succeed if both do. -/
lemma run_bind_eq_ok_iff {f : ExceptT ε (StateM τ) β} {g : β → ExceptT ε (StateM τ) γ}
    {c : γ} : (f >>= g) st = (.ok c, st') ↔
      ∃ b st₁, f st = (.ok b, st₁) ∧ g b st₁ = (.ok c, st') := by
  constructor
  · intro h
    cases hf : f st with
    | mk r st₁ =>
        cases r with
        | error e =>
            rw [run_bind_of_error hf] at h
            cases h
        | ok b => exact ⟨b, st₁, rfl, (run_bind_of_ok hf).symm.trans h⟩
  · rintro ⟨b, st₁, hf, hg⟩
    rw [run_bind_of_ok hf, hg]

lemma run_mapM_cons_of_ok {f : β → ExceptT ε (StateM τ) γ} {b : β} {bs : List β} {c : γ}
    {cs : List γ} (hc : f b st = (.ok c, st₁)) (hcs : bs.mapM f st₁ = (.ok cs, st')) :
    (b :: bs).mapM f st = (.ok (c :: cs), st') := by
  rw [List.mapM_cons, run_bind_of_ok hc, run_bind_of_ok hcs]
  rfl

end State

end RadixPool
