import RadixPool.Error
import RadixPool.Record.Schema

/-!
Archive policies.

A policy decides which container types of a record get a pool, what the pools are called, and where
in the archive the record itself stands.

* `Policy`: the decisions for the records of one type.
* `Policy.under`: a policy that puts the record under a key of the archive.
* `Policy.auto`: pools for all container types of the record, named after their first fields.
* `Policy.named`: a fixed list of pools with their names.
* `Policy.versioned`: the automatic pools, the record wrapped with a version number.
-/

namespace RadixPool

variable [TypeFamily]

/-- The layout of the archives for the records of one type. -/
structure Policy (R : RecordType) where
  /-- The container types that get a pool, in order. -/
  types : R.Value → List ContainerType
  /-- The name of the pool for a container type. The number counts the names asked for before. -/
  nameFor : Nat → ContainerType → Except Error String
  /-- The key under which the record stands. -/
  rootKey : String
  /-- The members of the archive that hold a record. -/
  wrap : Json → Except Error (List (String × Json))
  /-- The record held by the members of an archive, from which the pools have been taken. -/
  unwrap : List (String × Json) → Except Error Json

namespace Policy

/-- The key of the pools in every archive. -/
def poolsKey : String := "pools"

/-- The key of the record if a policy does not choose one. -/
def defaultRootKey : String := "value0"

variable {R : RecordType}

/-- The policy that puts the record under a key. -/
def under (rootKey : String) (types : R.Value → List ContainerType)
    (nameFor : Nat → ContainerType → Except Error String) : Policy R where
  types
  nameFor
  rootKey
  wrap j := .ok [(rootKey, j)]
  unwrap members :=
    match Assoc.get? rootKey members with
    | some j => .ok j
    | none => .error (.document (.rootMissing rootKey))

/-- A pool for each container type of the record, named after the first field that has the type. -/
def auto (R : RecordType) : Policy R :=
  under defaultRootKey (fun _ => R.containerTypes.map Prod.fst) fun _ C =>
    match R.containerTypes.find? fun t => t.1 = C with
    | some (_, name) => .ok name
    | none => .error (.policy (.notInRecord C.label R.label))

/-- The listed pools and no others. -/
def named (R : RecordType) (rootKey : String) (pools : List (ContainerType × String)) : Policy R :=
  under rootKey (fun _ => pools.map Prod.fst) fun _ C =>
    match pools.find? fun t => t.1 = C with
    | some (_, name) => .ok name
    | none => .error (.policy (.unnamed C.label))

/-- The automatic pools, the record standing in the body of a member `doc` with a version number.
Only version 1 is read. -/
def versioned (R : RecordType) : Policy R :=
  { auto R with
    rootKey := "doc"
    wrap := fun j => .ok [("doc", .obj [("body", j), ("version", .int 1)])]
    unwrap := fun members =>
      match Assoc.get? "doc" members with
      | none => .error (.document (.memberMissing "doc"))
      | some doc =>
        if doc.member? "version" = some (.int 1) then
          match doc.member? "body" with
          | some j => .ok j
          | none => .error (.document (.memberMissing "body"))
        else .error (.policy (.refused "unsupported version")) }

end Policy

end RadixPool
