import RadixPool.ContainerType
import RadixPool.Pool.Builder
import RadixPool.Pool.Document

/-!
Pool sets.

A pool set has one pool in the making for each container type that was declared, under a name of its
own, in the order of the declarations.

* `DeclaredPool`, `PoolSet`: the pools.
* `PoolSet.declare`: a further pool; a type or a name in use is refused.
* `PoolSet.add`: adds a vector to the pool of its type.
* `PoolSet.get?`, `PoolSet.nameOf?`: the pool and the name of a type.
* `PoolSet.toMembers`: the documents of all pools by name.
-/

namespace RadixPool

variable [TypeFamily]

/-- A pool in the making with its name. -/
structure DeclaredPool where
  name : String
  type : ContainerType
  builder : Builder type.Elem

/-- The pool as one of type `C`, if it is one. -/
def DeclaredPool.builder? (p : DeclaredPool) (C : ContainerType) : Option (Builder C.Elem) :=
  if h : p.type = C then some (h ▸ p.builder) else none

/-- The document of the pool. -/
def DeclaredPool.toJson (p : DeclaredPool) : Json := p.builder.pool.toJson p.type.elem.toJson

/-- Pools in the making, in the order in which they were declared. -/
structure PoolSet where
  pools : List DeclaredPool

namespace PoolSet

/-- The set without pools. -/
def empty : PoolSet := ⟨[]⟩

/-- The pool of a container type. -/
def get? (s : PoolSet) (C : ContainerType) : Option (Builder C.Elem) :=
  s.pools.findSome? fun p => p.builder? C

/-- The name declared for a container type. -/
def nameOf? (s : PoolSet) (C : ContainerType) : Option String :=
  (s.pools.find? fun p => p.type = C).map DeclaredPool.name

/-- The names in the order of the declarations. -/
def names (s : PoolSet) : List String := s.pools.map DeclaredPool.name

/-- The set with a further, empty pool. Each type and each name can be declared once. -/
def declare (s : PoolSet) (C : ContainerType) (name : String) : Except Error PoolSet :=
  match s.nameOf? C with
  | some first => .error (.policy (.declaredTwice C.label first name))
  | none =>
    if s.names.contains name then .error (.policy (.nameTaken name))
    else .ok ⟨s.pools ++ [⟨name, C, .empty C.shape⟩]⟩

/-- Adds a vector to the first pool of its type. -/
def addTo (C : ContainerType) (v : Vec C.Elem) :
    List DeclaredPool → Option (Nat × List DeclaredPool)
  | [] => none
  | p :: ps =>
    match p.builder? C with
    | some b =>
      let (i, b) := b.add v
      some (i, ⟨p.name, C, b⟩ :: ps)
    | none => (addTo C v ps).map fun (i, ps) => (i, p :: ps)

/-- Adds a vector to the pool of its type and gives its position there. -/
def add (s : PoolSet) (C : ContainerType) (v : Vec C.Elem) : Except Error (Nat × PoolSet) :=
  match addTo C v s.pools with
  | some (i, pools) => .ok (i, ⟨pools⟩)
  | none => .error (.policy (.undeclared C.label))

/-- The documents of all pools by name. -/
def toMembers (s : PoolSet) : List (String × Json) :=
  s.pools.foldl (fun l p => Assoc.insert p.name p.toJson l) []

/-- A pool set for display. -/
def display (s : PoolSet) : String :=
  "\x7b" ++ ", ".intercalate (s.pools.map fun p => Quoted.text p.name ++ ": " ++ p.type.display)
    ++ "\x7d"

end PoolSet

end RadixPool
