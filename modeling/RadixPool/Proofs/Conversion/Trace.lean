import Mathlib
import RadixPool.Conversion.ElementRule
import RadixPool.Proofs.Conversion.Total
import RadixPool.Proofs.Pool.Reload

/-!
The calls of element functions.

An element function may fail, and may keep a state of its own; which calls are made is seen by
noting the element of each call. A pool is converted by calls on the elements of its leaves, in
the order of the keys and then of the positions, up to the first failure; inner nodes and vectors
that share a leaf add no calls. The pools of a set are converted in the order of the declarations,
and no calls are made for those behind one that is not converted.

* `InTurn`, `FailsAt`: calls on the elements of a list that all succeed, and calls up to a failure.
* `notingCalls`: an element function whose calls are noted.
* `Pool.stored`, `Pool.Converted`: the elements of a pool, and the pool with the results.
* `Pool.ConvertsTo`: how the conversion of a pool ends; `Pool.exists_convertsTo`,
  `Pool.ConvertsTo.convert_eq`: it ends in one of these ways.
* `DeclaredPool.Passes`, `DeclaredPool.Stops`: a pool of a set that is converted, and one that is
  not.
* `PoolSet.PassInTurn`, `PoolSet.ConvertsTo`: pools of a set that are converted in turn, and how
  the conversion of a set ends; `PoolSet.exists_convertsTo`, `PoolSet.ConvertsTo.convert_eq`: it
  ends in one of these ways.
* `PoolSet.convert_in_order`: the results, errors and calls for pools and pool sets.
-/

namespace RadixPool

variable {σ κ ε α β : Type}

/-! ### Calls in turn -/

/-- Called on some elements in turn, the function gives a result for each of them. -/
inductive InTurn (f : α → ExceptT ε (StateM σ) β) : σ → List α → List β → σ → Prop where
  | nil (st : σ) : InTurn f st [] [] st
  | cons {st st₁ st' : σ} {x : α} {xs : List α} {y : β} {ys : List β} (call : f x st = (.ok y, st₁))
      (rest : InTurn f st₁ xs ys st') : InTurn f st (x :: xs) (y :: ys) st'

/-- Called on some elements in turn, the function fails at one of them. The calls that were made end
with the one that failed. -/
inductive FailsAt (f : α → ExceptT ε (StateM σ) β) :
    σ → List α → (calls : List α) → (reason : ε) → σ → Prop where
  | here {st st' : σ} {x : α} {xs : List α} {reason : ε}
      (call : f x st = (.error reason, st')) : FailsAt f st (x :: xs) [x] reason st'
  | later {st st₁ st' : σ} {x : α} {xs calls : List α} {y : β} {reason : ε}
      (call : f x st = (.ok y, st₁)) (rest : FailsAt f st₁ xs calls reason st') :
      FailsAt f st (x :: xs) (x :: calls) reason st'

/-- The function can give the result for the element, in some state. -/
def Gives (f : α → ExceptT ε (StateM σ) β) (x : α) (y : β) : Prop :=
  ∃ st st', f x st = (.ok y, st')

/-- The element function that also notes what each call was made with. -/
def notingCalls (note : α → κ) (f : α → ExceptT ε (StateM σ) β) :
    α → ExceptT ε (StateM (σ × List κ)) β := fun x (st, log) =>
  let (r, st) := f x st
  (r, st, log ++ [note x])

section Calls

variable {f : α → ExceptT ε (StateM σ) β} {st st' : σ} {xs xs' calls : List α} {ys : List β}
  {reason : ε}

/-- Calls in turn all succeed, or they end with a failure. -/
lemma inTurn_or_failsAt (f : α → ExceptT ε (StateM σ) β) (st : σ) (xs : List α) :
    (∃ ys st', InTurn f st xs ys st') ∨ ∃ calls reason st', FailsAt f st xs calls reason st' := by
  induction xs generalizing st with
  | nil => exact .inl ⟨[], st, .nil st⟩
  | cons x xs ih =>
      obtain ⟨⟨reason⟩ | ⟨y⟩, st₁, hcall⟩ : ∃ r st₁, f x st = (r, st₁) := ⟨_, _, rfl⟩
      · exact .inr ⟨_, _, _, .here hcall⟩
      · rcases ih st₁ with ⟨ys, st', hrest⟩ | ⟨calls, reason, st', hrest⟩
        · exact .inl ⟨_, _, .cons hcall hrest⟩
        · exact .inr ⟨_, _, _, .later hcall hrest⟩

/-- Not both. -/
lemma InTurn.not_failsAt (h : InTurn f st xs ys st') {st'' : σ} :
    ¬ FailsAt f st xs calls reason st'' := by
  intro hfail
  induction h generalizing calls with
  | nil => cases hfail
  | cons call _ ih =>
      cases hfail with
      | here hcall => cases call.symm.trans hcall
      | later hcall hrest =>
          cases call.symm.trans hcall
          exact ih hrest

/-- The results come from the elements, one by one. -/
lemma InTurn.gives (h : InTurn f st xs ys st') : List.Forall₂ (Gives f) xs ys := by
  induction h with
  | nil => exact .nil
  | cons call _ ih => exact .cons ⟨_, _, call⟩ ih

/-- Calls on two lists one after the other. -/
lemma InTurn.of_append (h : InTurn f st (xs ++ xs') ys st') :
    ∃ ys₁ ys₂ st₁, ys = ys₁ ++ ys₂ ∧ InTurn f st xs ys₁ st₁ ∧ InTurn f st₁ xs' ys₂ st' := by
  induction xs generalizing st ys with
  | nil => exact ⟨[], ys, st, rfl, .nil st, h⟩
  | cons x xs ih =>
      cases h with
      | cons call rest =>
          obtain ⟨ys₁, ys₂, st₁, rfl, h₁, h₂⟩ := ih rest
          exact ⟨_ :: ys₁, ys₂, st₁, rfl, .cons call h₁, h₂⟩

/-- A failure on two lists is one on the first list, or on the second one after it. -/
lemma FailsAt.of_append (h : FailsAt f st (xs ++ xs') calls reason st') :
    FailsAt f st xs calls reason st' ∨ ∃ ys st₁ calls', InTurn f st xs ys st₁ ∧
      FailsAt f st₁ xs' calls' reason st' := by
  induction xs generalizing st calls with
  | nil => exact .inr ⟨[], st, calls, .nil st, h⟩
  | cons x xs ih =>
      cases h with
      | here call => exact .inl (.here call)
      | later call rest =>
          rcases ih rest with hfail | ⟨ys, st₁, calls', hxs, hfail⟩
          · exact .inl (.later call hfail)
          · exact .inr ⟨_, st₁, calls', .cons call hxs, hfail⟩

/-- A list is converted by calls on its elements in turn. -/
lemma InTurn.mapM_eq (h : InTurn f st xs ys st') : xs.mapM f st = (.ok ys, st') := by
  induction h with
  | nil => rfl
  | cons call _ ih => exact run_mapM_cons_of_ok call ih

/-- After a failure no more calls are made. -/
lemma FailsAt.mapM_eq (h : FailsAt f st xs calls reason st') :
    xs.mapM f st = (.error reason, st') := by
  induction h with
  | here call => rw [List.mapM_cons, run_bind_of_error call]
  | later call _ ih => rw [List.mapM_cons, run_bind_of_ok call, run_bind_of_error ih]

variable {note : α → κ} {log : List κ}

lemma notingCalls_apply {x : α} {r : Except ε β} (h : f x st = (r, st')) :
    notingCalls note f x (st, log) = (r, st', log ++ [note x]) := by
  rw [notingCalls, h]

lemma Gives.noting {x : α} {y : β} (h : Gives f x y) : Gives (notingCalls note f) x y := by
  obtain ⟨st, st', hcall⟩ := h
  exact ⟨(st, []), _, notingCalls_apply hcall⟩

/-- Calls in turn are noted in turn. -/
lemma InTurn.noting (h : InTurn f st xs ys st') :
    InTurn (notingCalls note f) (st, log) xs ys (st', log ++ xs.map note) := by
  induction h generalizing log with
  | nil st =>
      rw [List.map_nil, List.append_nil]
      exact .nil _
  | cons call _ ih =>
      rw [List.map_cons, List.append_cons]
      exact .cons (notingCalls_apply call) ih

/-- The call that fails is the last one that is noted. -/
lemma FailsAt.noting (h : FailsAt f st xs calls reason st') :
    FailsAt (notingCalls note f) (st, log) xs calls reason (st', log ++ calls.map note) := by
  induction h generalizing log with
  | here call => exact .here (notingCalls_apply call)
  | later call _ ih =>
      rw [List.map_cons, List.append_cons]
      exact .later (notingCalls_apply call) ih

end Calls

/-! ### One pool -/

namespace Pool

/-- The elements of the leaves, in the order of the keys. Each leaf counts once. -/
def stored (p : Pool α) : List α := p.leaves.entries.flatMap Prod.snd

lemma stored_map (g : α → β) (p : Pool α) : (p.map g).stored = p.stored.map g := by
  simp only [stored, map, KeyMap.mapValues, List.flatMap_map, List.map_flatMap]

/-- The second pool has the nodes and vectors of the first one, and in its leaves the results for
the elements there; in the order of the keys these are `ys`. -/
structure Converted (f : α → ExceptT ε (StateM σ) β) (p : Pool α) (ys : List β) (q : Pool β) :
    Prop where
  shape : q.shape = p.shape
  inners : q.inners = p.inners
  vectors : q.vectors = p.vectors
  leaves : List.Forall₂ (fun a b => a.1 = b.1 ∧ List.Forall₂ (Gives f) a.2 b.2) p.leaves.entries
    q.leaves.entries
  stored : q.stored = ys

/-- How the conversion of a pool ends, with the state that is left and the calls that were made:
there is a result for each element, or the first failure is the error. -/
inductive ConvertsTo [ToString ε] (name : String) (f : α → ExceptT ε (StateM σ) β) (p : Pool α)
    (st : σ) :
    Except Error (Pool β) → σ → (calls : List α) → Prop where
  | all {ys : List β} {st' : σ} {q : Pool β} (gives : InTurn f st p.stored ys st')
      (converted : p.Converted f ys q) : ConvertsTo name f p st (.ok q) st' p.stored
  | failure {calls : List α} {reason : ε} {st' : σ}
      (fails : FailsAt f st p.stored calls reason st') :
      ConvertsTo name f p st (.error (.conversion name (toString reason))) st' calls

variable {f : α → ExceptT ε (StateM σ) β} {st st' : σ} {leaves : List (Key × List α)}
  {name : String} {p : Pool α}

/-- Leaves with results for the same elements are equal if all results in order are. -/
lemma leaves_unique {τ : Type} {f' : α → ExceptT ε (StateM τ) β} {ls ls' : List (Key × List β)}
    (h : List.Forall₂ (fun a b => a.1 = b.1 ∧ List.Forall₂ (Gives f) a.2 b.2) leaves ls)
    (h' : List.Forall₂ (fun a b => a.1 = b.1 ∧ List.Forall₂ (Gives f') a.2 b.2) leaves ls')
    (heq : ls.flatMap Prod.snd = ls'.flatMap Prod.snd) : ls = ls' := by
  induction h generalizing ls' with
  | nil =>
      cases h'
      rfl
  | cons hab _ ih =>
      cases h' with
      | cons hab' hrest =>
          rw [List.flatMap_cons, List.flatMap_cons] at heq
          obtain ⟨hitems, hrests⟩ :=
            List.append_inj heq (hab.2.length_eq.symm.trans hab'.2.length_eq)
          rw [ih hrest hrests, Prod.ext (hab.1.symm.trans hab'.1) hitems]

/-- The pool with the results is determined by them. -/
lemma Converted.unique {τ : Type} {f' : α → ExceptT ε (StateM τ) β} {ys : List β}
    {q q' : Pool β} (h : p.Converted f ys q) (h' : p.Converted f' ys q') : q = q' := by
  obtain ⟨shape, inners, leaves, vectors⟩ := q
  obtain ⟨shape', inners', leaves', vectors'⟩ := q'
  have hleaves : leaves = leaves' := by
    have heq := leaves_unique h.leaves h'.leaves (h.stored.trans h'.stored.symm)
    cases leaves
    cases leaves'
    congr
  rw [Pool.mk.injEq]
  exact ⟨h.shape.trans h'.shape.symm, h.inners.trans h'.inners.symm, hleaves,
    h.vectors.trans h'.vectors.symm⟩

/-- Leaves are converted one after the other. -/
lemma convertLeaves_of_inTurn (done : KeyMap (List β)) {ys : List β}
    (h : InTurn f st (leaves.flatMap Prod.snd) ys st') :
    ∃ leaves' : List (Key × List β),
      List.Forall₂ (fun a b => a.1 = b.1 ∧ List.Forall₂ (Gives f) a.2 b.2) leaves leaves' ∧
      leaves'.flatMap Prod.snd = ys ∧
      convertLeaves f done leaves st =
        (.ok (leaves'.foldl (fun m e => m.insert e.1 e.2) done), st') := by
  induction leaves generalizing st ys done with
  | nil =>
      cases h
      exact ⟨[], .nil, rfl, rfl⟩
  | cons e leaves ih =>
      obtain ⟨k, items⟩ := e
      obtain ⟨ys₁, ys₂, st₁, rfl, hitems, hrest⟩ := h.of_append
      obtain ⟨leaves', hleaves, hstored, hrun⟩ := ih (done.insert k ys₁) hrest
      refine ⟨(k, ys₁) :: leaves', .cons ⟨rfl, hitems.gives⟩ hleaves, ?_, ?_⟩
      · rw [List.flatMap_cons, hstored]
      · rw [convertLeaves, run_bind_of_ok hitems.mapM_eq, hrun]
        rfl

/-- The first failure ends it. -/
lemma convertLeaves_of_failsAt (done : KeyMap (List β)) {calls : List α} {reason : ε}
    (h : FailsAt f st (leaves.flatMap Prod.snd) calls reason st') :
    convertLeaves f done leaves st = (.error reason, st') := by
  induction leaves generalizing st calls done with
  | nil => cases h
  | cons e leaves ih =>
      obtain ⟨k, items⟩ := e
      rw [convertLeaves]
      rcases h.of_append with hitems | ⟨ys, st₁, calls', hitems, hrest⟩
      · exact run_bind_of_error hitems.mapM_eq
      · rw [run_bind_of_ok hitems.mapM_eq, ih _ hrest]

variable [ToString ε]

/-- The pool has the leaves that come out, or the reason for which there are none is the error. -/
lemma convert_of_convertLeaves {r : Except ε (KeyMap (List β))}
    (h : convertLeaves f ∅ p.leaves.entries st = (r, st')) :
    p.convert name f st = (match r with
      | .ok leaves => .ok ⟨p.shape, p.inners, leaves, p.vectors⟩
      | .error reason => .error (.conversion name (toString reason)), st') := by
  simp only [convert, ExceptT.mk, ExceptT.run, bind, StateT.bind, h]
  cases r <;> rfl

/-- With a result for each element there is a converted pool. -/
lemma convert_eq_of_inTurn (name : String) {ys : List β} (h : InTurn f st p.stored ys st') :
    ∃ q, p.Converted f ys q ∧ p.convert name f st = (.ok q, st') := by
  obtain ⟨leaves', hleaves, hstored, hrun⟩ := convertLeaves_of_inTurn ∅ h
  have hkeys : p.leaves.entries.map Prod.fst = leaves'.map Prod.fst := by
    rw [← List.forall₂_eq_eq_eq, List.forall₂_map_left_iff, List.forall₂_map_right_iff]
    exact hleaves.imp fun _ _ h => h.1
  have hascending : Assoc.Ascending leaves' := by
    have h := List.pairwise_map.mpr p.leaves.ascending
    rw [hkeys] at h
    exact List.pairwise_map.mp h
  have hentries : leaves'.foldl (fun (m : KeyMap (List β)) e => m.insert e.1 e.2) ∅ =
      ⟨leaves', hascending⟩ := KeyMap.ofList_entries ⟨leaves', hascending⟩
  rw [hentries] at hrun
  exact ⟨⟨p.shape, p.inners, ⟨leaves', hascending⟩, p.vectors⟩, ⟨rfl, rfl, rfl, hleaves, hstored⟩,
    convert_of_convertLeaves hrun⟩

/-- The conversion of a pool ends in one of the two ways. -/
lemma exists_convertsTo (name : String) (f : α → ExceptT ε (StateM σ) β) (p : Pool α) (st : σ) :
    ∃ r st' calls, p.ConvertsTo name f st r st' calls := by
  rcases inTurn_or_failsAt f st p.stored with ⟨ys, st', hgives⟩ | ⟨calls, reason, st', hfails⟩
  · obtain ⟨q, hq, -⟩ := convert_eq_of_inTurn name hgives
    exact ⟨_, st', _, .all hgives hq⟩
  · exact ⟨_, st', calls, .failure hfails⟩

namespace ConvertsTo

variable {r : Except Error (Pool β)} {calls : List α}

/-- How it ends is what comes out. -/
theorem convert_eq (h : p.ConvertsTo name f st r st' calls) : p.convert name f st = (r, st') := by
  cases h with
  | all gives converted =>
      obtain ⟨q, hq, hrun⟩ := convert_eq_of_inTurn name gives
      rw [hrun, hq.unique converted]
  | failure fails => exact convert_of_convertLeaves (convertLeaves_of_failsAt ∅ fails)

/-- A function that keeps the elements keeps the pool. -/
lemma pure : p.ConvertsTo (ε := ε) name (fun x => Pure.pure x) st (.ok p) st p.stored := by
  have hgives : ∀ x : α, Gives (σ := σ) (ε := ε) (fun x => Pure.pure x) x x :=
    fun x => ⟨st, st, rfl⟩
  have hturn : ∀ xs : List α, InTurn (ε := ε) (fun x => Pure.pure x) st xs xs st := by
    intro xs
    induction xs with
    | nil => exact .nil st
    | cons x xs ih => exact .cons rfl ih
  refine .all (hturn _) ⟨rfl, rfl, rfl, List.forall₂_same.mpr fun e _ => ⟨rfl, ?_⟩, rfl⟩
  exact List.forall₂_same.mpr fun x _ => hgives x

/-- It ends alike when the calls are noted. -/
lemma noting (h : p.ConvertsTo name f st r st' calls) (note : α → κ) (log : List κ) :
    p.ConvertsTo name (notingCalls note f) (st, log) r (st', log ++ calls.map note) calls := by
  cases h with
  | all gives converted =>
      refine .all gives.noting ⟨converted.shape, converted.inners, converted.vectors, ?_,
        converted.stored⟩
      exact converted.leaves.imp fun _ _ h => ⟨h.1, h.2.imp fun _ _ => Gives.noting⟩
  | failure fails => exact .failure fails.noting

/-- There is a converted pool exactly if the function, called in turn, gives a result for each
element. -/
lemma exists_ok_iff (h : p.ConvertsTo name f st r st' calls) :
    (∃ q, r = .ok q) ↔ ∃ ys st', InTurn f st p.stored ys st' := by
  cases h with
  | all gives _ => exact ⟨fun _ => ⟨_, _, gives⟩, fun _ => ⟨_, rfl⟩⟩
  | failure fails =>
      refine ⟨(fun ⟨_, hq⟩ => by cases hq), fun ⟨ys, st₁, gives⟩ => absurd fails gives.not_failsAt⟩

end ConvertsTo

end Pool

/-! ### Pool sets -/

section Sets

variable [TypeFamily]

/-- A call of an element function: the container type that it converts, and the element. -/
abbrev Call : Type := (C : ContainerType) × C.Elem

/-- The conversion whose calls are noted. -/
def Conversion.noting (c : Conversion (StateM σ) ε) : Conversion (StateM (σ × List Call)) ε :=
  ⟨c.source, c.target, notingCalls (Sigma.mk c.source) c.apply⟩

/-- The table of conversions whose calls are noted. -/
def Conversions.noting (t : Conversions (StateM σ) ε) : Conversions (StateM (σ × List Call)) ε :=
  ⟨t.entries.map Conversion.noting⟩

lemma Conversions.find?_noting (t : Conversions (StateM σ) ε) (C : ContainerType) :
    t.noting.find? C = (t.find? C).map Conversion.noting := by
  rw [find?, noting, List.find?_map]
  rfl

lemma Conversions.find?_noting_source {t : Conversions (StateM σ) ε} {c : Conversion (StateM σ) ε}
    (h : t.find? c.source = some c) : t.noting.find? c.source = some c.noting := by
  rw [find?_noting, h, Option.map_some]

namespace DeclaredPool

/-- The calls on all elements of a pool. -/
def calls (p : DeclaredPool) : List Call := p.builder.pool.stored.map (Sigma.mk p.type)

/-- A pool with a conversion that keeps the shape and gives a result for each of its elements, in
turn from the state `st`; the converted pool is accepted, and its loader is registered for the
type. -/
inductive Passes [ToString ε] (t : Conversions (StateM σ) ε) (st : σ) :
    DeclaredPool → RegisteredLoader → σ → Prop where
  | mk {c : Conversion (StateM σ) ε} {name : String} {b : Builder c.source.Elem} {st' : σ}
      {q : Pool c.target.Elem} {l : Loader c.target.Elem} (found : t.find? c.source = some c)
      (same : c.target.shape = c.source.shape)
      (converts : b.pool.ConvertsTo name c.apply st (.ok q) st' b.pool.stored)
      (accepted : Loader.ofPool c.target.shape name q = .ok l) :
      Passes t st ⟨name, c.source, b⟩ ⟨c.source, name, c.target, l⟩ st'

/-- A pool that ends the conversion of a set, with the error, the state that is left and the calls
made for the pool. -/
inductive Stops [ToString ε] (t : Conversions (StateM σ) ε) (st : σ) :
    DeclaredPool → Error → σ → (calls : List Call) → Prop where
  /-- There is no conversion for the pool. -/
  | missing {p : DeclaredPool} (unknown : t.find? p.type = none) :
      Stops t st p (.missingConversion p.type.label) st []
  /-- The target has another shape; no calls are made. -/
  | shape {c : Conversion (StateM σ) ε} {name : String} {b : Builder c.source.Elem}
      (found : t.find? c.source = some c) (differs : c.target.shape ≠ c.source.shape) :
      Stops t st ⟨name, c.source, b⟩ (.shapeMismatch name c.source.shape
        (some c.target.shape.bits) (some c.target.shape.leafBits)) st []
  /-- The conversion fails at an element; the calls end with that one. -/
  | element {c : Conversion (StateM σ) ε} {name : String} {b : Builder c.source.Elem} {st' : σ}
      {calls : List c.source.Elem} {reason : ε} (found : t.find? c.source = some c)
      (same : c.target.shape = c.source.shape)
      (fails : FailsAt c.apply st b.pool.stored calls reason st') :
      Stops t st ⟨name, c.source, b⟩ (.conversion name (toString reason)) st'
        (calls.map (Sigma.mk c.source))
  /-- All elements are converted, but the pool that comes out is not accepted. -/
  | refused {c : Conversion (StateM σ) ε} {name : String} {b : Builder c.source.Elem} {st' : σ}
      {q : Pool c.target.Elem} {err : Error} (found : t.find? c.source = some c)
      (same : c.target.shape = c.source.shape)
      (converts : b.pool.ConvertsTo name c.apply st (.ok q) st' b.pool.stored)
      (refused : Loader.ofPool c.target.shape name q = .error err) :
      Stops t st ⟨name, c.source, b⟩ err st' (b.pool.stored.map (Sigma.mk c.source))

end DeclaredPool

namespace PoolSet

/-- Pools that pass one after the other, with their loaders. -/
inductive PassInTurn [ToString ε] (t : Conversions (StateM σ) ε) :
    σ → List DeclaredPool → List RegisteredLoader → σ → Prop where
  | nil (st : σ) : PassInTurn t st [] [] st
  | cons {st st₁ st' : σ} {p : DeclaredPool} {ps : List DeclaredPool} {r : RegisteredLoader}
      {rs : List RegisteredLoader} (pass : p.Passes t st r st₁)
      (rest : PassInTurn t st₁ ps rs st') :
      PassInTurn t st (p :: ps) (r :: rs) st'

/-- How the conversion of a set ends, with the state that is left and the calls that were made:
all pools pass, or the first one that does not gives the error, and nothing is called for the
others behind it. -/
inductive ConvertsTo [ToString ε] (t : Conversions (StateM σ) ε) (st : σ) (S : PoolSet) :
    Except Error LoaderSet → σ → (calls : List Call) → Prop where
  | all {rs : List RegisteredLoader} {st' : σ} (pass : PassInTurn t st S.pools rs st') :
      ConvertsTo t st S (.ok ⟨rs⟩) st' (S.pools.flatMap DeclaredPool.calls)
  | stopped {before after : List DeclaredPool} {p : DeclaredPool} {rs : List RegisteredLoader}
      {st₁ st' : σ} {err : Error} {calls : List Call} (pools : S.pools = before ++ p :: after)
      (pass : PassInTurn t st before rs st₁) (stops : p.Stops t st₁ err st' calls) :
      ConvertsTo t st S (.error err) st' (before.flatMap DeclaredPool.calls ++ calls)

end PoolSet

variable [ToString ε] {t : Conversions (StateM σ) ε} {st st' : σ} {p : DeclaredPool}
  {ps : List DeclaredPool} {r : RegisteredLoader}
  {rs : List RegisteredLoader} {err : Error} {calls : List Call}

/-- Once all elements are converted, it is for the loader to accept the pool or to refuse it. -/
lemma Conversion.load_of_convertsTo {c : Conversion (StateM σ) ε}
    (same : c.target.shape = c.source.shape) {name : String} {q : Pool c.source.Elem}
    {q' : Pool c.target.Elem} {made : List c.source.Elem}
    (converts : q.ConvertsTo name c.apply st (.ok q') st' made) :
    c.load name q st = (Loader.ofPool c.target.shape name q', st') := by
  rw [load_of_eq same, run_bind_of_ok converts.convert_eq]
  rfl

namespace DeclaredPool

/-- A pool passes, or it stops the conversion. -/
lemma passes_or_stops (t : Conversions (StateM σ) ε) (st : σ) (p : DeclaredPool) :
    (∃ r st', p.Passes t st r st') ∨ ∃ err st' calls, p.Stops t st err st' calls := by
  obtain ⟨name, C, b⟩ := p
  cases hfind : t.find? C with
  | none => exact .inr ⟨_, _, _, .missing hfind⟩
  | some c =>
      obtain rfl : c.source = C := by simpa [Conversions.find?] using List.find?_some hfind
      by_cases hshape : c.target.shape = c.source.shape
      · obtain ⟨r, st', calls, hends⟩ := b.pool.exists_convertsTo name c.apply st
        cases hends with
        | failure fails => exact .inr ⟨_, _, _, .element hfind hshape fails⟩
        | @all ys _ q gives converted =>
            cases hl : Loader.ofPool c.target.shape name q with
            | error err => exact .inr ⟨_, _, _, .refused hfind hshape (.all gives converted) hl⟩
            | ok l => exact .inl ⟨_, _, .mk hfind hshape (.all gives converted) hl⟩
      · exact .inr ⟨_, _, _, .shape hfind hshape⟩

/-- The loader of a pool that passes is registered, and the other pools follow. -/
lemma Passes.convertAll_cons (h : p.Passes t st r st') {ls : LoaderSet}
    (hnew : ∀ r ∈ ls.loaders, r.source ≠ p.type ∧ r.name ≠ p.name) (ps : List DeclaredPool) :
    PoolSet.convertAll t ls (p :: ps) st =
      PoolSet.convertAll t ⟨ls.loaders ++ [r]⟩ ps st' := by
  cases h with
  | @mk c name b _ q l found same converts accepted =>
      have hload : c.load name b.pool st = (.ok l, st') := by
        rw [Conversion.load_of_convertsTo same converts, accepted]
      rw [PoolSet.convertAll_of_find? found, run_bind_of_ok hload, LoaderSet.insert_eq_ok l hnew]
      rfl

/-- A pool that stops the conversion gives the error, whatever pools would follow. -/
lemma Stops.convertAll_cons (h : p.Stops t st err st' calls) (ls : LoaderSet)
    (ps : List DeclaredPool) : PoolSet.convertAll t ls (p :: ps) st = (.error err, st') := by
  cases h with
  | missing unknown =>
      rw [PoolSet.convertAll, unknown]
      rfl
  | @shape c name b found differs =>
      have hload := congrFun (Conversion.load_of_ne differs name b.pool) st
      rw [PoolSet.convertAll_of_find? found]
      exact run_bind_of_error hload
  | element found same fails =>
      rw [PoolSet.convertAll_of_find? found, Conversion.load_of_eq same]
      exact run_bind_of_error (run_bind_of_error (Pool.ConvertsTo.failure fails).convert_eq)
  | @refused c name b _ q _ found same converts refused =>
      have hload : c.load name b.pool st = (.error err, st') := by
        rw [Conversion.load_of_convertsTo same converts, refused]
      rw [PoolSet.convertAll_of_find? found]
      exact run_bind_of_error hload

/-- For a pool that passes the calls on all of its elements are noted. -/
lemma Passes.noting (h : p.Passes t st r st') (log : List Call) :
    p.Passes t.noting (st, log) r (st', log ++ p.calls) := by
  cases h with
  | mk found same converts accepted =>
      exact .mk (c := Conversion.noting _) (Conversions.find?_noting_source found) same
        (converts.noting _ log) accepted

/-- For a pool that stops the conversion the calls that were made are noted. -/
lemma Stops.noting (h : p.Stops t st err st' calls) (log : List Call) :
    p.Stops t.noting (st, log) err (st', log ++ calls) calls := by
  cases h with
  | missing unknown =>
      rw [List.append_nil]
      exact .missing (by rw [Conversions.find?_noting, unknown, Option.map_none])
  | shape found differs =>
      rw [List.append_nil]
      exact .shape (c := Conversion.noting _) (Conversions.find?_noting_source found) differs
  | element found same fails =>
      exact .element (c := Conversion.noting _) (Conversions.find?_noting_source found) same
        fails.noting
  | refused found same converts refused =>
      exact .refused (c := Conversion.noting _) (Conversions.find?_noting_source found) same
        (converts.noting _ log) refused

end DeclaredPool

namespace PoolSet

/-- All pools pass, or there is a first one that does not. -/
lemma passInTurn_or_stops (t : Conversions (StateM σ) ε) (st : σ) (ps : List DeclaredPool) :
    (∃ rs st', PassInTurn t st ps rs st') ∨
    ∃ before p after rs st₁ err st' calls, ps = before ++ p :: after ∧
      PassInTurn t st before rs st₁ ∧ p.Stops t st₁ err st' calls := by
  induction ps generalizing st with
  | nil => exact .inl ⟨[], st, .nil st⟩
  | cons p ps ih =>
      rcases p.passes_or_stops t st with ⟨r, st₁, hpass⟩ | ⟨err, st', calls, hstop⟩
      · rcases ih st₁ with ⟨rs, st', hrest⟩ |
          ⟨before, q, after, rs, st₂, err, st', calls, rfl, hrest, hstop⟩
        · exact .inl ⟨_, _, .cons hpass hrest⟩
        · exact .inr ⟨p :: before, q, after, _, st₂, err, st', calls, rfl, .cons hpass hrest, hstop⟩
      · exact .inr ⟨[], p, ps, [], st, err, st', calls, rfl, .nil st, hstop⟩

namespace PassInTurn

/-- The loaders of pools that pass are registered in turn, and the other pools follow. -/
lemma convertAll_append (h : PassInTurn t st ps rs st') (ls : LoaderSet)
    (htypes : (ps.map DeclaredPool.type).Nodup) (hnames : (ps.map DeclaredPool.name).Nodup)
    (hnew : ∀ r ∈ ls.loaders, r.source ∉ ps.map DeclaredPool.type ∧
      r.name ∉ ps.map DeclaredPool.name) (ps' : List DeclaredPool) :
    convertAll t ls (ps ++ ps') st = convertAll t ⟨ls.loaders ++ rs⟩ ps' st' := by
  induction h generalizing ls with
  | nil st => rw [List.nil_append, List.append_nil]
  | @cons st st₁ st' p ps r rs pass _ ih =>
      rw [List.map_cons, List.nodup_cons] at htypes hnames
      have hfirst : ∀ r ∈ ls.loaders, r.source ≠ p.type ∧ r.name ≠ p.name := fun r hr =>
        ⟨List.ne_of_not_mem_cons (hnew r hr).1, List.ne_of_not_mem_cons (hnew r hr).2⟩
      rw [List.cons_append, pass.convertAll_cons hfirst, ih _ htypes.2 hnames.2, List.append_assoc,
        List.singleton_append]
      intro r' hr'
      rcases List.mem_append.mp hr' with hr' | hr'
      · exact ⟨List.not_mem_of_not_mem_cons (hnew r' hr').1,
          List.not_mem_of_not_mem_cons (hnew r' hr').2⟩
      · obtain rfl := List.mem_singleton.mp hr'
        cases pass
        exact ⟨htypes.1, hnames.1⟩

/-- For pools that pass the calls on all of their elements are noted, pool after pool. -/
lemma noting (h : PassInTurn t st ps rs st') (log : List Call) :
    PassInTurn t.noting (st, log) ps rs (st', log ++ ps.flatMap DeclaredPool.calls) := by
  induction h generalizing log with
  | nil st =>
      rw [List.flatMap_nil, List.append_nil]
      exact .nil _
  | cons pass _ ih =>
      rw [List.flatMap_cons, ← List.append_assoc]
      exact .cons (pass.noting log) (ih _)

end PassInTurn

/-- The conversion of a set ends in one of the two ways. -/
lemma exists_convertsTo (t : Conversions (StateM σ) ε) (st : σ) (S : PoolSet) :
    ∃ r st' calls, ConvertsTo t st S r st' calls := by
  rcases passInTurn_or_stops t st S.pools with ⟨rs, st', hpass⟩ |
    ⟨before, p, after, rs, st₁, err, st', calls, hpools, hpass, hstops⟩
  · exact ⟨_, _, _, .all hpass⟩
  · exact ⟨_, _, _, .stopped hpools hpass hstops⟩

namespace ConvertsTo

variable {S : PoolSet} {res : Except Error LoaderSet}

/-- With different types and names of the pools, how it ends is what comes out. -/
theorem convert_eq (h : ConvertsTo t st S res st' calls)
    (htypes : (S.pools.map DeclaredPool.type).Nodup)
    (hnames : (S.pools.map DeclaredPool.name).Nodup) : S.convert t st = (res, st') := by
  rw [convert]
  cases h with
  | all pass =>
      have hrun := pass.convertAll_append .empty htypes hnames
        (fun r hr => absurd hr List.not_mem_nil) []
      rw [List.append_nil] at hrun
      exact hrun
  | @stopped before after p rs _ _ _ _ pools pass stops =>
      rw [pools, List.map_append] at htypes hnames
      have hrun := pass.convertAll_append .empty htypes.of_append_left
        hnames.of_append_left (fun r hr => absurd hr List.not_mem_nil) (p :: after)
      rw [pools, hrun]
      exact stops.convertAll_cons _ _

/-- It ends alike when the calls are noted. -/
lemma noting (h : ConvertsTo t st S res st' calls) (log : List Call) :
    ConvertsTo t.noting (st, log) S res (st', log ++ calls) calls := by
  cases h with
  | all pass => exact .all (pass.noting log)
  | stopped pools pass stops =>
      rw [← List.append_assoc]
      exact .stopped pools (pass.noting log) (stops.noting _)

end ConvertsTo

end PoolSet

/-! ### Results, errors and calls -/

/-- Calls in order, up to the first failure. The elements of a pool are converted leaf by leaf
from the least key on, one call for each of them; there is a converted pool exactly if all of
these calls succeed, and otherwise the first failure is the error and the last call. The pools of
a set are converted in the order of the declarations, up to the first one that has no conversion,
or one to another shape, or an element for which there is no result, or that is not accepted any
more. -/
theorem PoolSet.convert_in_order :
    (∀ {ε α β κ : Type} [ToString ε] (name : String) (f : α → ExceptT ε (StateM σ) β) (note : α → κ)
      (p : Pool α) (st : σ) (log : List κ), ∃ r st' calls, p.ConvertsTo name f st r st' calls ∧
        p.convert name f st = (r, st') ∧
        p.convert name (notingCalls note f) (st, log) = (r, st', log ++ calls.map note) ∧
        ((∃ q, r = .ok q) ↔ ∃ ys st', InTurn f st p.stored ys st')) ∧
    ∀ (t : Conversions (StateM σ) ε) (S : PoolSet), (S.pools.map DeclaredPool.type).Nodup →
      (S.pools.map DeclaredPool.name).Nodup → ∀ (st : σ) (log : List Call),
        ∃ r st' calls, S.ConvertsTo t st r st' calls ∧ S.convert t st = (r, st') ∧
          S.convert t.noting (st, log) = (r, st', log ++ calls) := by
  constructor
  · intro ε α β κ _ name f note p st log
    obtain ⟨r, st', calls, hends⟩ := p.exists_convertsTo name f st
    exact ⟨r, st', calls, hends, hends.convert_eq, (hends.noting note log).convert_eq,
      hends.exists_ok_iff⟩
  · intro t S htypes hnames st log
    obtain ⟨r, st', calls, hends⟩ := S.exists_convertsTo t st
    exact ⟨r, st', calls, hends, hends.convert_eq htypes hnames,
      (hends.noting log).convert_eq htypes hnames⟩

end Sets

/-- Numbers in two vectors that share nodes, of which the element function takes all but the
negative one, counting its calls: this is the fourth one that it is called on, and the last one.
The second pool has no conversion, but the error is not about it. -/
theorem PoolSet.convert_in_order_counting :
    ∃ (c : Conversion (StateM Nat)) (D : ContainerType) (u v : Vec c.source.Elem)
      (b : Builder c.source.Elem) (x y : c.source.Elem),
      ([c.source, D].Nodup ∧ ["a", "b"].Nodup) ∧ u.root.node ∈ v.root.children ∧
      ((Builder.empty c.source.shape).addAll [v, u]).2 = b ∧ b.pool.stored = [x, x, x, y, x, x] ∧
      ∀ (st : Nat) (log : List Call),
        ∃ r st' calls, PoolSet.ConvertsTo ⟨[c]⟩ st ⟨[⟨"a", c.source, b⟩, ⟨"b", D, .empty D.shape⟩]⟩
            r st' calls ∧
          PoolSet.convert ⟨[c]⟩ ⟨[⟨"a", c.source, b⟩, ⟨"b", D, .empty D.shape⟩]⟩ st = (r, st') ∧
          PoolSet.convert (Conversions.noting ⟨[c]⟩)
            ⟨[⟨"a", c.source, b⟩, ⟨"b", D, .empty D.shape⟩]⟩ (st, log) = (r, st', log ++ calls) ∧
          r = .error (.conversion "a" ("negative element " ++ toString (-3 : Int))) ∧ st' = st + 4 ∧
          calls = [⟨c.source, x⟩, ⟨c.source, x⟩, ⟨c.source, x⟩, ⟨c.source, y⟩] := by
  let C : ContainerType := ⟨"Numbers", .int (.signed 32), ⟨1, 1⟩, by decide⟩
  let D : ContainerType := ⟨"Texts", .text, ⟨1, 1⟩, by decide⟩
  let c : Conversion (StateM Nat) :=
    ⟨C, C, fun x n => (ElementRule.notNegative.convert C.elem C.elem x, n + 1)⟩
  let x : C.Elem := ⟨5, by decide⟩
  let y : C.Elem := ⟨-3, by decide⟩
  let g : Bool → C.Elem := fun b => if b then x else y
  let u : Vec C.Elem := World.relaxedVec.map id g
  let v : Vec C.Elem := World.grownVec.map id g
  let b : Builder C.Elem := ((Builder.empty C.shape).addAll [v, u]).2
  have hcopies : List.Forall₂ (fun w v => v.Resembles (w.map id g))
      [World.grownVec, World.relaxedVec] [v, u] := .cons (.refl _) (.cons (.refl _) .nil)
  have hstored : b.pool.stored = [x, x, x, y, x, x] := by
    have hflags :
        ((Builder.empty C.shape).addAll [World.grownVec, World.relaxedVec]).2.pool.stored =
        [true, true, true, false, true, true] := by decide
    rw [(Builder.addAll_renamed Function.injective_id hcopies).2, Pool.stored_map, hflags]
    rfl
  have hroot : u.root.node ∈ v.root.children := List.mem_cons_self
  have htypes : [C, D].Nodup := by decide
  have hnames : ["a", "b"].Nodup := by decide
  have hfails (st : Nat) : FailsAt c.apply st b.pool.stored [x, x, x, y]
      ("negative element " ++ toString (-3 : Int)) (st + 4) := by
    rw [hstored]
    exact .later rfl (.later rfl (.later rfl (.here rfl)))
  have hends (st : Nat) : PoolSet.ConvertsTo ⟨[c]⟩ st
      ⟨[⟨"a", C, b⟩, ⟨"b", D, .empty D.shape⟩]⟩ (.error (.conversion "a" _)) (st + 4)
      ([x, x, x, y].map (Sigma.mk C)) :=
    .stopped rfl (.nil st) (.element (c := c) rfl rfl (hfails st))
  refine ⟨c, D, u, v, b, x, y, ⟨htypes, hnames⟩, hroot, rfl, hstored, fun st log => ?_⟩
  obtain ⟨r, st', calls, hends', hrun, hnoting⟩ := PoolSet.convert_in_order.2 ⟨[c]⟩
    ⟨[⟨"a", C, b⟩, ⟨"b", D, .empty D.shape⟩]⟩ htypes hnames st log
  refine ⟨r, st', calls, hends', hrun, hnoting, ?_⟩
  -- the run is known, so its result and its calls are these
  rw [((hends st).noting log).convert_eq htypes hnames, Prod.mk.injEq, Prod.mk.injEq,
    List.append_cancel_left_eq] at hnoting
  obtain ⟨rfl, rfl, rfl⟩ := hnoting
  exact ⟨rfl, rfl, rfl⟩

/-- A third element is appended to the vector of a sparse document, and the pool of the vector is
converted by a function that keeps all elements; what comes out is not accepted. A second pool has
no conversion, but the error is not about it. -/
theorem PoolSet.convert_sparse_refused :
    ∃ (C D : ContainerType) (t : Conversions (StateM Unit)) (p : Pool C.Elem) (l l' : Loader C.Elem)
      (v : Vec C.Elem) (x : C.Elem) (next : NodeId) (i : Nat) (S : PoolSet) (err : Error),
      t.entries = [⟨C, C, fun x => pure x⟩] ∧ t.find? D = none ∧
      Pool.ofJson C.elem.ofJson? "pool" C.shape (sparseJson 32) = .ok p ∧
      Loader.ofPool C.shape "pool" p = .ok l ∧ l.load 0 0 = ((.ok v, l'), next) ∧
      (do
        let S ← PoolSet.empty.declare C "a"
        let S ← S.declare D "b"
        S.add C (v.push C.shape x next).1) = .ok (i, S) ∧
      S.convert t () = (.error err, ()) ∧ err ≠ .missingConversion D.label := by
  let C : ContainerType := ⟨"Flags", .flag, ⟨2, 1⟩, by decide⟩
  let D : ContainerType := ⟨"Texts", .text, ⟨2, 1⟩, by decide⟩
  let c : Conversion (StateM Unit) := ⟨C, C, fun x => pure x⟩
  obtain ⟨p, l, v, l', next, hp, hl, hload, -, -, hrefused⟩ := Loader.push_sparseJson
  let b : Builder C.Elem := ((Builder.empty ⟨2, 1⟩).addAll [(v.push ⟨2, 1⟩ true next).1]).2
  let S : PoolSet := ⟨[⟨"a", C, b⟩, ⟨"b", D, .empty D.shape⟩]⟩
  obtain ⟨err, herr⟩ : ∃ err, Loader.ofPool C.shape "a" b.pool = .error err := by
    cases h : Loader.ofPool C.shape "a" b.pool with
    | error err => exact ⟨err, rfl⟩
    | ok l => exact absurd ⟨l, h⟩ (hrefused "a")
  have hconverts : b.pool.ConvertsTo "a" c.apply () (.ok b.pool) () b.pool.stored := .pure
  have hstops : DeclaredPool.Stops ⟨[c]⟩ () ⟨"a", C, b⟩ err () (b.pool.stored.map (Sigma.mk C)) :=
    .refused (c := c) rfl rfl hconverts herr
  have hends : PoolSet.ConvertsTo ⟨[c]⟩ () S (.error err) () _ := .stopped rfl (.nil ()) hstops
  have htypes : [C, D].Nodup := by decide
  have hnames : ["a", "b"].Nodup := by decide
  refine ⟨C, D, ⟨[c]⟩, p, l, l', v, true, next, _, S, err, rfl, rfl, hp, hl, hload, rfl,
    hends.convert_eq htypes hnames, ?_⟩
  rintro rfl
  cases Loader.isReadError_of_ofPool herr

end RadixPool
