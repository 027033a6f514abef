import RadixPool.ContainerType
import RadixPool.Vec.Basic

/-!
Records.

A record has fields of three sorts: containers, plain values and further records. Its description is
data, and determines the type of its values.

* `Schema`, `RecordType`: descriptions of a field and of a record; `RecordType.Value`: their values.
* `RecordType.default`: the value with empty containers and the initial plain values.
* `RecordType.containerTypes`: the container types of a record, each with the first field that has
  it.
* `RecordType.containers`: the containers of a value.
-/

namespace RadixPool

/-- The name of a field, and the key under which it is stored. -/
structure FieldName where
  name : String
  key : String

variable [TypeFamily]

/-- The description of a field. -/
inductive Schema where
  /-- A container, which is stored in a pool. -/
  | container (C : ContainerType)
  /-- A plain value, which is stored in place. -/
  | value (t : TypeFamily.Kind)
  /-- A record. Its containers share the pools of the record around it. -/
  | record (label : String) (fields : List (FieldName × Schema))

/-- The description of a record, with the text that names it in messages. -/
structure RecordType where
  label : String
  fields : List (FieldName × Schema)

namespace Schema

mutual

/-- The values of a field. -/
def Value : Schema → Type
  | .container C => Vec C.Elem
  | .value t => t.Value
  | .record _ fields => Values fields

/-- The values of some fields. -/
def Values : List (FieldName × Schema) → Type
  | [] => Unit
  | (_, s) :: fields => Value s × Values fields

end

mutual

/-- The initial value of a field; containers are empty. -/
def default : (s : Schema) → Fresh s.Value
  | .container C => Vec.empty C.shape
  | .value t => fun next => (t.default, next)
  | .record _ fields => defaults fields

/-- The initial values of some fields. -/
def defaults : (fields : List (FieldName × Schema)) → Fresh (Values fields)
  | [] => fun next => ((), next)
  | (_, s) :: fields => fun next =>
    let (v, next) := default s next
    let (vs, next) := defaults fields next
    ((v, vs), next)

end

/-- Adds a container type to a list unless it is there. -/
def pushNew (types : List (ContainerType × String)) (t : ContainerType × String) :
    List (ContainerType × String) :=
  if types.any fun u => u.1 = t.1 then types else types ++ [t]

mutual

/-- Adds the container types of a field that is stored under a key. -/
def collect (types : List (ContainerType × String)) (key : String) :
    Schema → List (ContainerType × String)
  | .container C => pushNew types (C, key)
  | .value _ => types
  | .record _ fields => (collectAll [] fields).foldl pushNew types

/-- Adds the container types of some fields. -/
def collectAll (types : List (ContainerType × String)) :
    List (FieldName × Schema) → List (ContainerType × String)
  | [] => types
  | (f, s) :: fields => collectAll (collect types f.key s) fields

end

mutual

/-- The containers of a value, in the order of the fields. -/
def containers : (s : Schema) → s.Value → List ((C : ContainerType) × Vec C.Elem)
  | .container C, v => [⟨C, v⟩]
  | .value _, _ => []
  | .record _ fields, vs => containersAll fields vs

/-- The containers of some values. -/
def containersAll : (fields : List (FieldName × Schema)) → Values fields →
    List ((C : ContainerType) × Vec C.Elem)
  | [], _ => []
  | (_, s) :: fields, (v, vs) => containers s v ++ containersAll fields vs

end

end Schema

namespace RecordType

/-- The values of a record. -/
abbrev Value (R : RecordType) : Type := Schema.Values R.fields

/-- The value with empty containers and the initial plain values. -/
def default (R : RecordType) : Fresh R.Value := Schema.defaults R.fields

/-- The keys of the fields, in order. -/
def keys (R : RecordType) : List String := R.fields.map fun f => f.1.key

/-- The container types of a record in the order of their first fields, with the keys of those. -/
def containerTypes (R : RecordType) : List (ContainerType × String) := Schema.collectAll [] R.fields

/-- The containers of a value, in the order of the fields. -/
def containers (R : RecordType) (r : R.Value) : List ((C : ContainerType) × Vec C.Elem) :=
  Schema.containersAll R.fields r

end RecordType

end RadixPool
