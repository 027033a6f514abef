import RadixPool.ContainerType
import RadixPool.Pool.Loader

/-!
Loader sets.

A loader set has one loader for each container type of some source, in the order in which they came.
The vectors that a loader gives may be of another type than its source.

* `RegisteredLoader`, `LoaderSet`: the loaders.
* `LoaderSet.insert`: a further loader; a source or a name in use is refused.
* `LoaderSet.loader?`: the loader from one type to another.
* `LoaderSet.withLoader`, `LoaderSet.load`: runs a step of a loader; loads a vector.
-/

namespace RadixPool

variable [TypeFamily]

/-- A loader with the container type it stands for and its name. -/
structure RegisteredLoader where
  source : ContainerType
  name : String
  type : ContainerType
  loader : Loader type.Elem

/-- The loader as one that gives vectors of type `D`, if it does. -/
def RegisteredLoader.loader? (l : RegisteredLoader) (D : ContainerType) : Option (Loader D.Elem) :=
  if h : l.type = D then some (h ▸ l.loader) else none

/-- Loaders in the order in which they came. -/
structure LoaderSet where
  loaders : List RegisteredLoader

namespace LoaderSet

/-- The set without loaders. -/
def empty : LoaderSet := ⟨[]⟩

/-- The names in order. -/
def names (s : LoaderSet) : List String := s.loaders.map RegisteredLoader.name

/-- The set with a further loader. -/
def insert (s : LoaderSet) (source : ContainerType) (name : String) (type : ContainerType)
    (loader : Loader type.Elem) : Except Error LoaderSet :=
  if s.loaders.any fun l => l.source = source || l.name = name then
    .error (.policy (.registeredTwice name))
  else .ok ⟨s.loaders ++ [⟨source, name, type, loader⟩]⟩

/-- The loader for a container type, if it gives vectors of type `D`. -/
def loader? (s : LoaderSet) (source D : ContainerType) : Option (Loader D.Elem) :=
  (s.loaders.find? fun l => l.source = source).bind fun l => l.loader? D

/-- The set with the loader for a container type replaced. -/
def update (s : LoaderSet) (source D : ContainerType) (loader : Loader D.Elem) : LoaderSet :=
  ⟨s.loaders.map fun l => if l.source = source then ⟨source, l.name, D, loader⟩ else l⟩

/-- Runs a loading step on the loader for a container type; without one the step fails. -/
def withLoader {β : Type} (s : LoaderSet) (source D : ContainerType) (missing : Error)
    (step : Loader D.Elem → Fresh (Except Error β × Loader D.Elem)) :
    Fresh (Except Error β × LoaderSet) :=
  match s.loader? source D with
  | none => return (.error missing, s)
  | some l => do
    let (r, l) ← step l
    return (r, s.update source D l)

/-- Loads the vector at a position of the pool of its own type. -/
def load (s : LoaderSet) (C : ContainerType) (i : Nat) :
    Fresh (Except Error (Vec C.Elem) × LoaderSet) :=
  s.withLoader C C (.policy (.undeclared C.label)) fun l => l.load i

/-- The names of a set for display. -/
def display (s : LoaderSet) : String := "[" ++ ", ".intercalate (s.names.map Quoted.text) ++ "]"

end LoaderSet

end RadixPool
