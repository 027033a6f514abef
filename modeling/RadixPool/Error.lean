import RadixPool.Shape

/-!
What can go wrong.

An error names its cause; the wording is added in one place.

* `Defect`: what is wrong with a node of a pool.
* `PolicyFault`: what stands against placing a container or a pool.
* `DocumentFault`: what is wrong with a document.
* `Error`: the causes, `Error.isReadError` the ones found while reading, `Error.text?` the
  wording.
-/

namespace RadixPool

/-- The number of a node inside one pool. -/
abbrev Key := Nat

/-- Something that a pool refers to by a number. -/
inductive Reference where
  | node (key : Key)
  | vector (index : Nat)
deriving DecidableEq

/-- What is wrong with a node of a pool. -/
inductive Defect where
  | oversizedLeaf (key : Key) (size limit : Nat)
  | tooManyChildren (key : Key) (count limit : Nat)
  | cycle (key : Key)
  | unevenChildren (key : Key)
  | partialChild (key child : Key)
  | sizeOverflow (key : Key)
  | tooDeep (key : Key) (height : Nat)
  | rootIsLeaf (key : Key)
  | tailIsInner (key : Key)
deriving DecidableEq

/-- What stands against placing a container or a pool. Container types and records are named by the
text that stands for them in messages. -/
inductive PolicyFault where
  | declaredTwice (type first second : String)
  | nameTaken (name : String)
  | undeclared (type : String)
  | registeredTwice (name : String)
  | notInRecord (type record : String)
  | unnamed (type : String)
  | notInArchive (name type : String)
  | reservedKey (key : String)
  | noPool (type : String)
  | notInPool (type name : String)
  /-- A refusal of a policy in its own words. -/
  | refused (reason : String)
deriving DecidableEq

/-- What is wrong with a document. -/
inductive DocumentFault where
  /-- The text, the bytes or a part of the document cannot be read as what they should be. -/
  | malformed
  | archiveNotObject
  | memberNotObject (name : String)
  | memberMissing (name : String)
  | rootMissing (key : String)
  | recordNotObject (record found : String)
  | fieldMissing (name : String)
  | notAnInstance (field found : String)
deriving DecidableEq

/-- The cause of a failure. -/
inductive Error where
  | dangling (pool : String) (reference : Reference)
  /-- The shape that was found may lack one of its parts. -/
  | shapeMismatch (pool : String) (expected : Shape) (bits leafBits : Option Nat)
  | invariant (pool : String) (defect : Defect)
  | duplicateKey (pool : String) (key : Key)
  | missingConversion (type : String)
  | policy (fault : PolicyFault)
  | document (fault : DocumentFault)
  /-- An element function failed. -/
  | conversion (pool reason : String)
deriving DecidableEq

/-- Whether an error is found while data are read or checked. -/
def Error.isReadError : Error → Bool
  | .dangling .. | .shapeMismatch .. | .invariant .. | .duplicateKey .. | .document _ => true
  | .missingConversion _ | .policy _ | .conversion .. => false

/-! ### Wording -/

/-- The text of a reference. -/
def Reference.text : Reference → String
  | .node key => s!"node {key}"
  | .vector index => s!"vector instance {index}"

/-- The text of a defect. -/
def Defect.text : Defect → String
  | .oversizedLeaf key size limit => s!"leaf {key} holds {size} elements, limit is {limit}"
  | .tooManyChildren key count limit => s!"inner node {key} has {count} children, limit is {limit}"
  | .cycle key => s!"cycle through inner node {key}"
  | .unevenChildren key => s!"inner node {key} has children of uneven height"
  | .partialChild key child =>
    s!"regular inner node {key} has a partial child {child} before its last slot"
  | .sizeOverflow key => s!"inner node {key} size overflows"
  | .tooDeep key height => s!"inner node {key} is too deep (height {height})"
  | .rootIsLeaf key => s!"vector root {key} is a leaf"
  | .tailIsInner key => s!"vector tail {key} is an inner node"

/-- A name between single quotes. -/
def singleQuoted (name : String) : String := "'" ++ name ++ "'"

/-- The text of a fault. -/
def PolicyFault.text : PolicyFault → String
  | .declaredTwice type first second =>
    "container type " ++ type ++ " declared twice (as " ++ singleQuoted first ++ " and "
      ++ singleQuoted second ++ ")"
  | .nameTaken name =>
    "pool name " ++ singleQuoted name ++ " used for more than one container type"
  | .undeclared type => "no pool declared for container type " ++ type
  | .registeredTwice name => "pool " ++ singleQuoted name ++ " registered more than once"
  | .notInRecord type record => "container type " ++ type ++ " does not appear in " ++ record
  | .unnamed type => "no pool name declared for container type " ++ type
  | .notInArchive name type =>
    "pool " ++ singleQuoted name ++ " for " ++ type ++ " is not in the archive"
  | .reservedKey key => "wrapped value uses the reserved key " ++ singleQuoted key
  | .noPool type => "no pool for container type " ++ type
  | .notInPool type name =>
    "container of type " ++ type ++ " is not part of pool " ++ singleQuoted name
  | .refused reason => reason

/-- The text of a fault; what is merely unreadable has none. -/
def DocumentFault.text? : DocumentFault → Option String
  | .malformed => none
  | .archiveNotObject => some "archive is not an object"
  | .memberNotObject name => some (singleQuoted name ++ " is not an object")
  | .memberMissing name => some ("missing " ++ singleQuoted name)
  | .rootMissing key => some ("missing root key " ++ singleQuoted key)
  | .recordNotObject record found =>
    some ("expected an object for " ++ record ++ ", found " ++ found)
  | .fieldMissing name => some ("missing field " ++ singleQuoted name)
  | .notAnInstance field found =>
    some ("field " ++ singleQuoted field ++ " must be a container instance index, found " ++ found)

/-- The text of an error. -/
def Error.text? : Error → Option String
  | .dangling pool reference =>
    some ("Dangling reference in pool " ++ singleQuoted pool ++ ": " ++ reference.text)
  | .shapeMismatch pool expected bits leafBits =>
    some ("Structural mismatch in pool " ++ singleQuoted pool ++ ": expected " ++ expected.text
      ++ ", found " ++ Shape.describe bits leafBits)
  | .invariant pool defect =>
    some ("Invariant violation in pool " ++ singleQuoted pool ++ ": " ++ defect.text)
  | .duplicateKey pool key => some (s!"Duplicate key {key} in pool " ++ singleQuoted pool)
  | .missingConversion type => some ("No transform registered for container type " ++ type)
  | .policy fault => some ("Policy error: " ++ fault.text)
  | .document fault => fault.text?.map ("Serialization error: " ++ ·)
  | .conversion pool reason =>
    some ("Transform failed in pool " ++ singleQuoted pool ++ ": " ++ reason)

end RadixPool
