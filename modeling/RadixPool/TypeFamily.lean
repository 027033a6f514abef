import RadixPool.Json.Basic

/-!
Families of data types.

The elements of containers and the plain fields of records are values of data types. Containers and
records are the same whichever types these are: they are described over a family of types, each of
which has values, an initial value, and a way to write a value as a document and to read it back.

* `TypeFamily`: a family of types, each named by a member of `TypeFamily.Kind`.
* `TypeFamily.Kind.Value`, `TypeFamily.Kind.default`: the values of a type.
* `TypeFamily.Kind.toJson`, `TypeFamily.Kind.ofJson?`: writing and reading.
-/

namespace RadixPool

/-- A family of data types. That two types are one can be decided. -/
class TypeFamily where
  Kind : Type
  decideKind : DecidableEq Kind
  valueOf : Kind → Type
  defaultOf : (t : Kind) → valueOf t
  write : (t : Kind) → valueOf t → Json
  read? : (t : Kind) → Json → Option (valueOf t)

namespace TypeFamily.Kind

variable [TypeFamily]

instance : DecidableEq TypeFamily.Kind := TypeFamily.decideKind

/-- The values of a type. -/
abbrev Value (t : TypeFamily.Kind) : Type := TypeFamily.valueOf t

/-- The value a field has before it is set. -/
abbrev default (t : TypeFamily.Kind) : t.Value := TypeFamily.defaultOf t

/-- A value as a document. -/
abbrev toJson (t : TypeFamily.Kind) : t.Value → Json := TypeFamily.write t

/-- The value that a document stands for, if it is one of the type. -/
abbrev ofJson? (t : TypeFamily.Kind) : Json → Option t.Value := TypeFamily.read? t

end TypeFamily.Kind

end RadixPool
