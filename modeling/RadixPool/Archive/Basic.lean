import RadixPool.Policy
import RadixPool.Record.Document

/-!
Archives.

An archive is one object: it holds a record as its policy wants it, and under `pools` the pools of
the containers of the record.

* `packRecord`: the pools of a record and the record as a document.
* `toArchive`: the archive of a record.
* `ofArchive`: the record of an archive, with the names of the pools that the policy does not know.
-/

namespace RadixPool

variable [TypeFamily] {R : RecordType}

/-- Declares the pools that a policy wants; `asked` counts the names asked for before. -/
def declareAll (P : Policy R) (asked : Nat) (s : PoolSet) :
    List ContainerType → Except Error PoolSet
  | [] => .ok s
  | C :: Cs => do
    let name ← P.nameFor asked C
    declareAll P (asked + 1) (← s.declare C name) Cs

/-- The pools of a record and the record as a document. -/
def packRecord (P : Policy R) (r : R.Value) : Except Error (PoolSet × Json) := do
  let s ← declareAll P 0 .empty (P.types r)
  match (R.encode r).run.run s with
  | (.ok j, s) => return (s, j)
  | (.error e, _) => throw e

/-- The archive of a record. -/
def toArchive (P : Policy R) (r : R.Value) : Except Error Json := do
  let (s, j) ← packRecord P r
  let members ← P.wrap j
  if (Assoc.get? Policy.poolsKey members).isSome then
    throw (.policy (.reservedKey Policy.poolsKey))
  return .obj (Assoc.insert Policy.poolsKey (.obj s.toMembers) members)

/-- Makes the loaders that a policy wants from the pools of an archive, and gives the pools that are
left. -/
def loadersOf (P : Policy R) (asked : Nat) (pools : List (String × Json)) (s : LoaderSet) :
    List ContainerType → Except Error (LoaderSet × List (String × Json))
  | [] => .ok (s, pools)
  | C :: Cs => do
    let name ← P.nameFor asked C
    match Assoc.get? name pools with
    | none => throw (.policy (.notInArchive name C.label))
    | some j =>
      let pool ← Pool.ofJson C.elem.ofJson? name C.shape j
      let loader ← Loader.ofPool C.shape name pool
      loadersOf P (asked + 1) (Assoc.erase name pools) (← s.insert C name C loader) Cs

/-- The record of an archive and the names of the pools that are not used. -/
def ofArchive (P : Policy R) (archive : Json) : Fresh (Except Error (R.Value × List String)) := do
  let initial ← R.default
  let parts : Except Error (LoaderSet × List (String × Json) × Json) := do
    let .obj members := archive | throw (.document .archiveNotObject)
    match Assoc.get? Policy.poolsKey members with
    | none => throw (.document (.memberMissing Policy.poolsKey))
    | some (.obj pools) =>
      let (s, unused) ← loadersOf P 0 pools .empty (P.types initial)
      return (s, unused, ← P.unwrap (Assoc.erase Policy.poolsKey members))
    | some _ => throw (.document (.memberNotObject Policy.poolsKey))
  match parts with
  | .error e => return .error e
  | .ok (s, unused, j) => fun next =>
    let (r, _, next) := (R.decode j).run.run (s, next)
    (r.map fun r => (r, unused.map Prod.fst), next)

end RadixPool
