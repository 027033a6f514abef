import RadixPool.Json.Numeral
import RadixPool.Text.Quoted

/-!
Documents for display, with the kind of each part named.

* `Json.display`: a document as it stands in the listing of a container.
-/

namespace RadixPool.Json

mutual

/-- A document with the kind of each part. -/
def display : Json → String
  | .null => "Null"
  | .bool b => "Bool(" ++ (if b then "true" else "false") ++ ")"
  | .int n => "Number(" ++ toString n ++ ")"
  | .float bits => "Number(" ++ floatText bits ++ ")"
  | .str s => "String(" ++ Quoted.text s ++ ")"
  | .arr items => "Array [" ++ ", ".intercalate (displayItems items) ++ "]"
  | .obj members => "Object \x7b" ++ ", ".intercalate (displayMembers members) ++ "\x7d"

/-- The items of an array, one by one. -/
def displayItems : List Json → List String
  | [] => []
  | j :: js => display j :: displayItems js

/-- The members of an object, one by one. -/
def displayMembers : List (String × Json) → List String
  | [] => []
  | (n, j) :: ms => (Quoted.text n ++ ": " ++ display j) :: displayMembers ms

end

end RadixPool.Json
