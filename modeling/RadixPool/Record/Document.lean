import RadixPool.LoaderSet
import RadixPool.PoolSet
import RadixPool.Record.Schema

/-!
Records as documents.

A record is written as an object: a container as its position in the pool of its type, a plain value
as it is, a record as an object.

* `RecordType.encode`: writes a record, its containers being added to a pool set.
* `RecordType.decode`: reads a record, its containers being loaded from a loader set.
-/

namespace RadixPool

variable [TypeFamily]

/-- A computation that adds containers to a pool set; those added before a failure stay. -/
abbrev Saving (σ : Type) := ExceptT Error (StateM PoolSet) σ

/-- A computation that loads containers from a loader set. -/
abbrev Loading (σ : Type) := ExceptT Error (StateM (LoaderSet × NodeId)) σ

/-- Adds a container. -/
def Saving.add (C : ContainerType) (v : Vec C.Elem) : Saving Nat := fun s =>
  match s.add C v with
  | .ok (i, s) => (.ok i, s)
  | .error e => (.error e, s)

/-- Loads a container. -/
def Loading.load (C : ContainerType) (i : Nat) : Loading (Vec C.Elem) := fun (s, next) =>
  let ((r, s), next) := s.load C i next
  (r, s, next)

/-- The members of the object that a record should be. -/
def Loading.members (label : String) : Json → Loading (List (String × Json))
  | .obj members => return members
  | j => throw (.document (.recordNotObject label j.kind))

namespace Schema

mutual

/-- Writes the value of a field. -/
def encode : (s : Schema) → s.Value → Saving Json
  | .container C, v => do return .nat (← Saving.add C v)
  | .value t, x => return t.toJson x
  | .record _ fields, vs => do return .ofMembers (← encodeAll fields vs)

/-- Writes the values of some fields in turn. -/
def encodeAll : (fields : List (FieldName × Schema)) → Values fields → Saving (List (String × Json))
  | [], _ => return []
  | (f, s) :: fields, (v, vs) => do
    let j ← encode s v
    return (f.key, j) :: (← encodeAll fields vs)

end

mutual

/-- Reads the value of a field that is stored under a key. -/
def decode (key : String) : (s : Schema) → Json → Loading s.Value
  | .container C, j =>
    match j.natBelow? Word.count with
    | some i => Loading.load C i
    | none => throw (.document (.notAnInstance key j.kind))
  | .value t, j =>
    match t.ofJson? j with
    | some x => return x
    | none => throw (.document .malformed)
  | .record label fields, j => do decodeAll (← Loading.members label j) fields

/-- Reads the values of some fields in turn. -/
def decodeAll (members : List (String × Json)) :
    (fields : List (FieldName × Schema)) → Loading (Values fields)
  | [] => return ()
  | (f, s) :: fields =>
    match Assoc.get? f.key members with
    | none => throw (.document (.fieldMissing f.key))
    | some j => do
      let v ← decode f.key s j
      return (v, ← decodeAll members fields)

end

end Schema

namespace RecordType

/-- Writes a record as an object. -/
def encode (R : RecordType) (r : R.Value) : Saving Json := do
  return .ofMembers (← Schema.encodeAll R.fields r)

/-- Reads a record from an object. -/
def decode (R : RecordType) (j : Json) : Loading R.Value := do
  Schema.decodeAll (← Loading.members R.label j) R.fields

end RecordType

end RadixPool
