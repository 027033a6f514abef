import RadixPool.LoaderSet
import RadixPool.PoolSet

/-!
Converting the elements of pools.

A conversion rewrites the elements of all leaves of a pool and leaves keys, inner nodes and
vectors as they are. A leaf is converted once, however many vectors share it. Element functions
run in a monad, so that what they do besides can be observed, and fail with reasons of a type of
their own, of which the error has the text.

* `Conversion`, `Conversions`: element functions by container type.
* `Pool.convert`: converts the leaves of a pool from the least key on, up to the first failure.
* `PoolSet.convert`: converts the pools of a set in order and gives loaders for the results.
* `counterpart`: what has become of a vector.
-/

namespace RadixPool

variable [TypeFamily] {m : Type → Type} {ε α β : Type}

/-- An element function from one container type to another. A failure has a reason of type `ε`. -/
structure Conversion (m : Type → Type) (ε : Type := String) where
  source : ContainerType
  target : ContainerType
  apply : source.Elem → ExceptT ε m target.Elem

/-- Conversions, at most one for each source. -/
structure Conversions (m : Type → Type) (ε : Type := String) where
  entries : List (Conversion m ε)

namespace Conversions

/-- The table without conversions. -/
def empty : Conversions m ε := ⟨[]⟩

/-- The table with a conversion in place of an earlier one of its source. -/
def insert (t : Conversions m ε) (c : Conversion m ε) : Conversions m ε :=
  ⟨t.entries.filter (fun d => d.source ≠ c.source) ++ [c]⟩

/-- The number of conversions. -/
def size (t : Conversions m ε) : Nat := t.entries.length

/-- Whether there are no conversions. -/
def isEmpty (t : Conversions m ε) : Bool := t.entries.isEmpty

/-- The conversion of a container type. -/
def find? (t : Conversions m ε) (C : ContainerType) : Option (Conversion m ε) :=
  t.entries.find? fun c => c.source = C

/-- A table for display. -/
def display (t : Conversions m ε) : String :=
  "ConversionTable \x7b entries: " ++ toString t.size ++ " \x7d"

end Conversions

/-- Converts some leaves in turn and enters them under their keys. -/
def Pool.convertLeaves [Monad m] (f : α → ExceptT ε m β) (done : KeyMap (List β)) :
    List (Key × List α) → ExceptT ε m (KeyMap (List β))
  | [] => return done
  | (k, items) :: leaves => do
    let items ← items.mapM f
    convertLeaves f (done.insert k items) leaves

/-- The pool with its elements converted, leaf by leaf from the least key on. The first failure ends
the conversion. -/
def Pool.convert [Monad m] [ToString ε] (name : String) (f : α → ExceptT ε m β) (p : Pool α) :
    ExceptT Error m (Pool β) := ExceptT.mk do
  match ← (Pool.convertLeaves f ∅ p.leaves.entries).run with
  | .ok leaves => return .ok ⟨p.shape, p.inners, leaves, p.vectors⟩
  | .error reason => return .error (.conversion name (toString reason))

/-- The loader for the converted pool. Source and target must have one shape. -/
def Conversion.load [Monad m] [ToString ε] (c : Conversion m ε) (name : String)
    (p : Pool c.source.Elem) : ExceptT Error m (Loader c.target.Elem) := do
  let D := c.target.shape
  if D ≠ c.source.shape then
    throw (.shapeMismatch name c.source.shape (some D.bits) (some D.leafBits))
  let pool ← p.convert name c.apply
  ExceptT.mk (pure (Loader.ofPool D name pool))

/-- Converts some pools in turn. -/
def PoolSet.convertAll [Monad m] [ToString ε] (t : Conversions m ε) (s : LoaderSet) :
    List DeclaredPool → ExceptT Error m LoaderSet
  | [] => return s
  | p :: ps => do
    match t.find? p.type with
    | none => throw (.missingConversion p.type.label)
    | some c =>
      match p.builder? c.source with
      | none => throw (.missingConversion c.source.label)
      | some b =>
        let loader ← c.load p.name b.pool
        convertAll t (← ExceptT.mk (pure (s.insert p.type p.name c.target loader))) ps

/-- Converts all pools of a set, in order, and gives loaders for the results. -/
def PoolSet.convert [Monad m] [ToString ε] (t : Conversions m ε) (s : PoolSet) :
    ExceptT Error m LoaderSet :=
  convertAll t .empty s.pools

/-- The cause when there is no loader from one type to another. -/
def missingBetween (C D : ContainerType) : Error :=
  .missingConversion (C.label ++ " -> " ++ D.label)

/-- Loads the converted vector at a position of a pool. -/
def loadConverted (converted : LoaderSet) (C D : ContainerType) (i : Nat) :
    Fresh (Except Error (Vec D.Elem) × LoaderSet) :=
  converted.withLoader C D (missingBetween C D) fun l => l.load i

/-- What has become of a vector whose root and tail are in the pools that were converted. -/
def counterpart (s : PoolSet) (converted : LoaderSet) (C D : ContainerType) (v : Vec C.Elem) :
    Fresh (Except Error (Vec D.Elem) × LoaderSet) :=
  match s.get? C with
  | none => return (.error (.policy (.noPool C.label)), converted)
  | some b =>
    match b.ends? v with
    | none =>
      return (.error (.policy (.notInPool C.label ((s.nameOf? C).getD ""))), converted)
    | some e => converted.withLoader C D (missingBetween C D) fun l => l.vecOf e

end RadixPool
