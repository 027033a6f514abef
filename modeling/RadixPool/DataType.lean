import RadixPool.Json.Display
import RadixPool.TypeFamily

/-!
Element types.

The elements of containers and the plain fields of records have one of the types listed here. Each
type says which values it has, how a value is written as a document and read back, when two values
are equal, and how a value is shown.

* `IntWidth`, `DataType`: the types; `DataType.Value`: their values.
* `DataType.toJson`, `DataType.ofJson?`: writing and reading.
* `DataType.same`, `DataType.display`, `DataType.default`: equality, display, initial value.

They are the family of types over which containers and records are computed.
-/

namespace RadixPool

/-- The size of an integer type. -/
inductive IntWidth where
  | signed (bits : Nat)
  | unsigned (bits : Nat)
deriving DecidableEq

namespace IntWidth

/-- The numbers of the type. -/
def Holds : IntWidth → Int → Prop
  | .signed bits, n => -(1 <<< (bits - 1) : Nat) ≤ n ∧ n < (1 <<< (bits - 1) : Nat)
  | .unsigned bits, n => 0 ≤ n ∧ n < (1 <<< bits : Nat)

instance (w : IntWidth) (n : Int) : Decidable (w.Holds n) := by
  cases w <;> exact inferInstanceAs (Decidable (_ ∧ _))

theorem holds_zero (w : IntWidth) : w.Holds 0 := by
  cases w with
  | signed bits =>
    have := Nat.one_shiftLeft (bits - 1) ▸ Nat.two_pow_pos (bits - 1)
    exact ⟨by omega, by omega⟩
  | unsigned bits =>
    have := Nat.one_shiftLeft bits ▸ Nat.two_pow_pos bits
    exact ⟨by omega, by omega⟩

end IntWidth

/-- The type of an element or of a plain field. -/
inductive DataType where
  | int (w : IntWidth)
  | text
  | flag
  | json
  | option (t : DataType)
  | list (t : DataType)
  | pair (s t : DataType)
deriving DecidableEq

namespace DataType

/-- The values of a type. -/
def Value : DataType → Type
  | .int w => { n : Int // w.Holds n }
  | .text => String
  | .flag => Bool
  | .json => Json
  | .option t => Option t.Value
  | .list t => List t.Value
  | .pair s t => s.Value × t.Value

/-- The value a field has before it is set. -/
def default : (t : DataType) → t.Value
  | .int w => ⟨0, w.holds_zero⟩
  | .text => ""
  | .flag => false
  | .json => Json.null
  | .option _ => none
  | .list _ => []
  | .pair s t => (s.default, t.default)

/-- A value as a document. -/
def toJson : (t : DataType) → t.Value → Json
  | .int _, n => .int n.val
  | .text, s => .str s
  | .flag, b => .bool b
  | .json, j => j
  | .option _, none => .null
  | .option t, some x => t.toJson x
  | .list t, xs => .arr (xs.map t.toJson)
  | .pair s t, (x, y) => .arr [s.toJson x, t.toJson y]

/-- The value that a document stands for, if it is one of the type. -/
def ofJson? : (t : DataType) → Json → Option t.Value
  | .int w, j =>
    match j with
    | .int n => if h : w.Holds n then some ⟨n, h⟩ else none
    | _ => none
  | .text, j => j.str?
  | .flag, j => j.bool?
  | .json, j => some j
  | .option t, j =>
    match j with
    | .null => some none
    | j => (t.ofJson? j).map some
  | .list t, j => j.listOf? t.ofJson?
  | .pair s t, j =>
    match j with
    | .arr [x, y] =>
      match s.ofJson? x, t.ofJson? y with
      | some x, some y => some (x, y)
      | _, _ => none
    | _ => none

/-- Equality by value. -/
def same : (t : DataType) → t.Value → t.Value → Bool
  | .int _, m, n => m.val == n.val
  | .text, s, t => (show String from s) == (show String from t)
  | .flag, a, b => (show Bool from a) == (show Bool from b)
  | .json, j, k => Json.same j k
  | .option _, none, none => true
  | .option t, some x, some y => t.same x y
  | .option _, _, _ => false
  | .list t, xs, ys => List.isEqv xs ys t.same
  | .pair s t, (x₁, y₁), (x₂, y₂) => s.same x₁ x₂ && t.same y₁ y₂

/-- A list for display. -/
def displayList {α : Type} (display : α → String) (xs : List α) : String :=
  "[" ++ ", ".intercalate (xs.map display) ++ "]"

/-- A value for display. -/
def display : (t : DataType) → t.Value → String
  | .int _, n => toString n.val
  | .text, s => Quoted.text s
  | .flag, b => if (show Bool from b) then "true" else "false"
  | .json, j => Json.display j
  | .option _, none => "None"
  | .option t, some x => "Some(" ++ t.display x ++ ")"
  | .list t, xs => displayList t.display xs
  | .pair s t, (x, y) => "(" ++ s.display x ++ ", " ++ t.display y ++ ")"

end DataType

instance : TypeFamily where
  Kind := DataType
  decideKind := inferInstance
  valueOf := DataType.Value
  defaultOf := DataType.default
  write := DataType.toJson
  read? := DataType.ofJson?

end RadixPool
