import RadixPool.Json.Token

/-!
Reading JSON text.

The text is cut into tokens, the tokens are put together to a tree of what is written, and the tree
is read as a document. Only the last step looks at the depth, at the numbers and at the characters
of strings, so a reader that skips a part of the tree skips its faults as well.

* `Written`: what a text says, with repeated members and undecoded strings and numbers.
* `Written.ofText?`: the tree of a text.
* `Written.toJson?`: the document of a tree.
* `Json.ofText?`, `Json.ofUtf8?`: the document of a text or of its bytes.
-/

namespace RadixPool

/-- A JSON text as it is written. -/
inductive Written where
  | null
  | bool (b : Bool)
  | number (n : Numeral)
  | str (s : Option String)
  | arr (items : List Written)
  | obj (members : List (Option String × Written))

namespace Written

/-- An array or object that is still open: what it holds so far, last first. -/
inductive Frame where
  | items (done : List Written)
  | members (done : List (Option String × Written)) (name : Option String)

/-- What may come next. -/
inductive State where
  /-- A value. -/
  | value (frames : List Frame)
  /-- A value or the end of the array just opened. -/
  | item (frames : List Frame)
  /-- The name of a member. -/
  | name (frames : List Frame) (done : List (Option String × Written))
  /-- The name of a member or the end of the object just opened. -/
  | firstName (frames : List Frame)
  /-- The colon after a name. -/
  | colon (frames : List Frame) (done : List (Option String × Written)) (name : Option String)
  /-- A comma or the end of the innermost array or object. -/
  | more (innermost : Frame) (frames : List Frame)
  /-- Nothing. -/
  | done (w : Written)

/-- Hands a finished value to the array or object around it. -/
def deliver (w : Written) : List Frame → State
  | [] => .done w
  | .items ws :: frames => .more (.items (w :: ws)) frames
  | .members ms name :: frames => .more (.members ((name, w) :: ms) name) frames

/-- The first token of a value. -/
def State.beginValue (frames : List Frame) : Token → Option State
  | .openArray => some (.item frames)
  | .openObject => some (.firstName frames)
  | .null => some (deliver .null frames)
  | .bool b => some (deliver (.bool b) frames)
  | .number n => some (deliver (.number n) frames)
  | .str s => some (deliver (.str s) frames)
  | _ => none

/-- Takes one token. -/
def State.step : State → Token → Option State
  | .value frames, t => beginValue frames t
  | .item frames, .closeArray => some (deliver (.arr []) frames)
  | .item frames, t => beginValue (.items [] :: frames) t
  | .firstName frames, .closeObject => some (deliver (.obj []) frames)
  | .firstName frames, .str s => some (.colon frames [] s)
  | .name frames ms, .str s => some (.colon frames ms s)
  | .colon frames ms s, .colon => some (.value (.members ms s :: frames))
  | .more (.items ws) frames, .comma => some (.value (.items ws :: frames))
  | .more (.items ws) frames, .closeArray => some (deliver (.arr ws.reverse) frames)
  | .more (.members ms _) frames, .comma => some (.name frames ms)
  | .more (.members ms _) frames, .closeObject => some (deliver (.obj ms.reverse) frames)
  | _, _ => none

/-- The tree of a text; nothing may follow the value. -/
def ofText? (s : String) : Option Written := do
  let tokens ← Token.readAll s.toList
  match ← tokens.foldlM State.step (.value []) with
  | .done w => some w
  | _ => none

mutual

/-- The document that is written, if arrays and objects nest at most `depth` deep, every number is
in range and every string has a text. -/
def toJson? (depth : Nat) : Written → Option Json
  | .null => some .null
  | .bool b => some (.bool b)
  | .number n => n.toJson?
  | .str s => s.map .str
  | .arr items =>
    match depth with
    | 0 => none
    | depth + 1 => (itemsToJson? depth items).map .arr
  | .obj members =>
    match depth with
    | 0 => none
    | depth + 1 => (membersToJson? depth members).map Json.ofMembers

/-- The items of an array. -/
def itemsToJson? (depth : Nat) : List Written → Option (List Json)
  | [] => some []
  | w :: ws =>
    match toJson? depth w with
    | some j => (itemsToJson? depth ws).map (j :: ·)
    | none => none

/-- The members of an object, in the order in which they are written. -/
def membersToJson? (depth : Nat) : List (Option String × Written) → Option (List (String × Json))
  | [] => some []
  | (s, w) :: ms =>
    match s, toJson? depth w with
    | some name, some j => (membersToJson? depth ms).map ((name, j) :: ·)
    | _, _ => none

end

end Written

namespace Json

/-- How deep arrays and objects may nest in a text. -/
def maxDepth : Nat := 127

/-- The document of a text. -/
def ofText? (s : String) : Option Json := do
  (← Written.ofText? s).toJson? maxDepth

/-- The document of a text given by its bytes. -/
def ofUtf8? (bytes : ByteArray) : Option Json := do
  ofText? (← String.fromUTF8? bytes)

end Json

end RadixPool
