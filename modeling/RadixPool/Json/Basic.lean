import RadixPool.Assoc

/-!
JSON documents.

* `Json`: a document. Numbers are integers or binary floating-point numbers, and the two stay apart;
  the members of an object stand in ascending order of their names.
* `Json.ofMembers`, `Json.member?`: objects from members in any order, and the look-up of a member.
* `Json.same`: equality by value, where the two zeros are one number.
* `Json.kind`: the word for what a document is.
* `Json.fields?`, `Json.natBelow?`, `Json.listOf?` and their like: readers of single documents.
-/

namespace RadixPool

/-- A JSON document. -/
inductive Json where
  | null
  | bool (b : Bool)
  /-- An integer. -/
  | int (n : Int)
  /-- A number written with a fraction or an exponent, as the bits of a double. -/
  | float (bits : UInt64)
  | str (s : String)
  | arr (items : List Json)
  /-- An object, its members in ascending order of their names. -/
  | obj (members : List (String × Json))
deriving Inhabited

namespace Json

/-- The object with these members; of two members with one name the later one counts. -/
def ofMembers (members : List (String × Json)) : Json :=
  .obj (members.foldl (fun l m => Assoc.insert m.1 m.2 l) [])

/-- The member of an object under a name. -/
def member? (name : String) : Json → Option Json
  | .obj members => Assoc.get? name members
  | _ => none

/-- A number that is not negative. -/
def nat (n : Nat) : Json := .int n

/-- The word for what a document is, as it stands in messages. -/
def kind : Json → String
  | .null => "null"
  | .bool _ => "a boolean"
  | .int _ | .float _ => "a number"
  | .str _ => "a string"
  | .arr _ => "an array"
  | .obj _ => "an object"

mutual

/-- Equality by value. Floating-point numbers compare as numbers, so the two zeros are equal; an
integer never equals a floating-point number. -/
def same : Json → Json → Bool
  | .null, .null => true
  | .bool a, .bool b => a == b
  | .int a, .int b => a == b
  | .float a, .float b => Float.ofBits a == Float.ofBits b
  | .str a, .str b => a == b
  | .arr a, .arr b => sameItems a b
  | .obj a, .obj b => sameMembers a b
  | _, _ => false

/-- Item by item equality. -/
def sameItems : List Json → List Json → Bool
  | [], [] => true
  | a :: as, b :: bs => same a b && sameItems as bs
  | _, _ => false

/-- Member by member equality. -/
def sameMembers : List (String × Json) → List (String × Json) → Bool
  | [], [] => true
  | (m, a) :: as, (n, b) :: bs => m == n && same a b && sameMembers as bs
  | _, _ => false

end

mutual

/-- Whether two documents are written alike; here the two zeros differ. -/
def decEq : (a b : Json) → Decidable (a = b)
  | .null, .null => isTrue rfl
  | .bool a, .bool b => decidable_of_iff (a = b) (by simp)
  | .int a, .int b => decidable_of_iff (a = b) (by simp)
  | .float a, .float b => decidable_of_iff (a = b) (by simp)
  | .str a, .str b => decidable_of_iff (a = b) (by simp)
  | .arr a, .arr b => @decidable_of_iff _ (a = b) (by simp) (decEqItems a b)
  | .obj a, .obj b => @decidable_of_iff _ (a = b) (by simp) (decEqMembers a b)
  | .null, .bool _ | .null, .int _ | .null, .float _ | .null, .str _ | .null, .arr _
  | .null, .obj _ | .bool _, .null | .bool _, .int _ | .bool _, .float _ | .bool _, .str _
  | .bool _, .arr _ | .bool _, .obj _ | .int _, .null | .int _, .bool _ | .int _, .float _
  | .int _, .str _ | .int _, .arr _ | .int _, .obj _ | .float _, .null | .float _, .bool _
  | .float _, .int _ | .float _, .str _ | .float _, .arr _ | .float _, .obj _ | .str _, .null
  | .str _, .bool _ | .str _, .int _ | .str _, .float _ | .str _, .arr _ | .str _, .obj _
  | .arr _, .null | .arr _, .bool _ | .arr _, .int _ | .arr _, .float _ | .arr _, .str _
  | .arr _, .obj _ | .obj _, .null | .obj _, .bool _ | .obj _, .int _ | .obj _, .float _
  | .obj _, .str _ | .obj _, .arr _ => isFalse nofun

/-- Equality of item lists. -/
def decEqItems : (a b : List Json) → Decidable (a = b)
  | [], [] => isTrue rfl
  | [], _ :: _ | _ :: _, [] => isFalse nofun
  | a :: as, b :: bs =>
    @decidable_of_iff _ (a = b ∧ as = bs) (by simp)
      (@instDecidableAnd _ _ (decEq a b) (decEqItems as bs))

/-- Equality of member lists. -/
def decEqMembers : (a b : List (String × Json)) → Decidable (a = b)
  | [], [] => isTrue rfl
  | [], _ :: _ | _ :: _, [] => isFalse nofun
  | (m, a) :: as, (n, b) :: bs =>
    @decidable_of_iff _ (m = n ∧ a = b ∧ as = bs) (by simp [and_assoc])
      (@instDecidableAnd _ _ (inferInstanceAs (Decidable (m = n)))
        (@instDecidableAnd _ _ (decEq a b) (decEqMembers as bs)))

end

instance : DecidableEq Json := decEq

/-- The members a document written as an object or as the array of its fields has: the members
named in `names`, or as many items as there are names. -/
def fields? (names : List String) : Json → Option (List (Option Json))
  | .obj members => some (names.map fun n => Assoc.get? n members)
  | .arr items => if items.length = names.length then some (items.map some) else none
  | _ => none

/-- The integer of a number written as one. -/
def int? : Json → Option Int
  | .int n => some n
  | _ => none

/-- A number written as an integer in `0 .. limit-1`. -/
def natBelow? (limit : Nat) : Json → Option Nat
  | .int (.ofNat n) => if n < limit then some n else none
  | _ => none

/-- A truth value. -/
def bool? : Json → Option Bool
  | .bool b => some b
  | _ => none

/-- The text of a string. -/
def str? : Json → Option String
  | .str s => some s
  | _ => none

/-- The items of an array. -/
def items? : Json → Option (List Json)
  | .arr items => some items
  | _ => none

/-- Reads every item of an array, or nothing if one of them cannot be read. -/
def listOf? {α : Type} (item? : Json → Option α) : Json → Option (List α)
  | .arr items => items.mapM item?
  | _ => none

end Json

end RadixPool
