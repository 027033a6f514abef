import RadixPool.Json.Numeral

/-!
The tokens of JSON text.

* `Token`: punctuation, the three words, numbers and strings.
* `Token.readAll`: cuts a text into tokens. A string whose escapes do not form characters is a token
  all the same, but has no text.
-/

namespace RadixPool

/-- A token of JSON text. -/
inductive Token where
  | openArray
  | closeArray
  | openObject
  | closeObject
  | comma
  | colon
  | null
  | bool (b : Bool)
  | number (n : Numeral)
  /-- A string; it has no text if an escaped surrogate stands alone. -/
  | str (s : Option String)

namespace Token

/-- The characters between tokens. -/
def isBlank (c : Char) : Bool := c == ' ' || c == '\n' || c == '\t' || c == '\r'

/-- The value of a decimal digit. -/
def digitValue (c : Char) : Nat := c.toNat - 48

/-- The value of a hexadecimal digit. -/
def hexValue? (c : Char) : Option Nat :=
  if '0' ≤ c ∧ c ≤ '9' then some (c.toNat - 48)
  else if 'a' ≤ c ∧ c ≤ 'f' then some (c.toNat - 87)
  else if 'A' ≤ c ∧ c ≤ 'F' then some (c.toNat - 55)
  else none

/-- The value of four hexadecimal digits. -/
def hexUnit? (a b c d : Char) : Option Nat := do
  return (((← hexValue? a) * 16 + (← hexValue? b)) * 16 + (← hexValue? c)) * 16 + (← hexValue? d)

/-- The character that a one-letter escape stands for. -/
def escape? : Char → Option Char
  | '"' => some '"'
  | '\\' => some '\\'
  | '/' => some '/'
  | 'b' => some '\x08'
  | 'f' => some '\x0c'
  | 'n' => some '\n'
  | 'r' => some '\r'
  | 't' => some '\t'
  | _ => none

/-! ### Strings -/

/-- A piece of a written string: a character, or a 16-bit unit written in hexadecimal. -/
inductive Piece where
  | char (c : Char)
  | unit (u : Nat)

/-- Reads the pieces of a string up to its closing quote; raw control characters are refused. -/
def pieces : List Char → List Piece → Option (List Piece × List Char)
  | '"' :: cs, acc => some (acc.reverse, cs)
  | '\\' :: 'u' :: a :: b :: c :: d :: cs, acc =>
    match hexUnit? a b c d with
    | some u => pieces cs (.unit u :: acc)
    | none => none
  | '\\' :: e :: cs, acc =>
    match escape? e with
    | some c => pieces cs (.char c :: acc)
    | none => none
  | c :: cs, acc => if c < ' ' ∨ c = '\\' then none else pieces cs (.char c :: acc)
  | [], _ => none

/-- Whether a unit is the first half of a pair. -/
def isHigh (u : Nat) : Bool := 0xD800 ≤ u && u < 0xDC00

/-- Whether a unit is the second half of a pair. -/
def isLow (u : Nat) : Bool := 0xDC00 ≤ u && u < 0xE000

/-- Joins the pieces to characters, most recent first; halves of pairs must meet. -/
def join : List Piece → List Char → Option (List Char)
  | [], acc => some acc
  | .char c :: ps, acc => join ps (c :: acc)
  | .unit u :: .unit v :: ps, acc =>
    if isHigh u then
      if isLow v then
        join ps (Char.ofNat (0x10000 + (u - 0xD800) * 0x400 + (v - 0xDC00)) :: acc)
      else none
    else if isLow u then none
    else join (.unit v :: ps) (Char.ofNat u :: acc)
  | .unit u :: ps, acc => if isHigh u || isLow u then none else join ps (Char.ofNat u :: acc)

/-- The string after its opening quote. -/
def readString (cs : List Char) : Option (Token × List Char) :=
  (pieces cs []).map fun (ps, rest) =>
    (.str ((join ps []).map fun acc => String.ofList acc.reverse), rest)

/-! ### Numbers -/

/-- The digits at the head of a text and what follows them. -/
def digits (cs : List Char) : List Nat × List Char :=
  let (ds, rest) := cs.span Char.isDigit
  (ds.map digitValue, rest)

/-- The part of a number after its point, if it has one; a point needs a digit after it. -/
def readFraction : List Char → Option (Option (List Nat) × List Char)
  | '.' :: cs =>
    match digits cs with
    | ([], _) => none
    | (ds, rest) => some (some ds, rest)
  | cs => some (none, cs)

/-- The exponent of a number, if it has one; its sign may be left out, its digits may not. -/
def readExponent : List Char → Option (Option (Bool × List Nat) × List Char)
  | [] => some (none, [])
  | e :: cs =>
    if e = 'e' ∨ e = 'E' then
      let (down, cs) := match cs with
        | '-' :: cs => (true, cs)
        | '+' :: cs => (false, cs)
        | cs => (false, cs)
      match digits cs with
      | ([], _) => none
      | (ds, rest) => some (some (down, ds), rest)
    else some (none, e :: cs)

/-- A number; more than one digit before the point must not begin with zero. -/
def readNumber (cs : List Char) : Option (Token × List Char) := do
  let (negative, cs) := match cs with
    | '-' :: cs => (true, cs)
    | cs => (false, cs)
  let (whole, cs) := digits cs
  if whole = [] ∨ (whole.head? = some 0 ∧ whole ≠ [0]) then none
  let (fraction, cs) ← readFraction cs
  let (exponent, cs) ← readExponent cs
  return (.number ⟨negative, whole, fraction, exponent⟩, cs)

/-! ### Texts -/

/-- The token at the head of a text that does not begin with a blank. -/
def read : List Char → Option (Token × List Char)
  | '[' :: cs => some (.openArray, cs)
  | ']' :: cs => some (.closeArray, cs)
  | '\x7b' :: cs => some (.openObject, cs)
  | '\x7d' :: cs => some (.closeObject, cs)
  | ',' :: cs => some (.comma, cs)
  | ':' :: cs => some (.colon, cs)
  | 'n' :: 'u' :: 'l' :: 'l' :: cs => some (.null, cs)
  | 't' :: 'r' :: 'u' :: 'e' :: cs => some (.bool true, cs)
  | 'f' :: 'a' :: 'l' :: 's' :: 'e' :: cs => some (.bool false, cs)
  | '"' :: cs => readString cs
  | cs => readNumber cs

/-- Reads at most `fuel` tokens and blanks. -/
def readUpTo : (fuel : Nat) → List Char → List Token → Option (List Token)
  | _, [], acc => some acc.reverse
  | 0, _ :: _, _ => none
  | fuel + 1, c :: cs, acc =>
    if isBlank c then readUpTo fuel cs acc
    else match read (c :: cs) with
      | some (t, rest) => readUpTo fuel rest (t :: acc)
      | none => none

/-- The tokens of a text. No token is empty, so there are no more of them than characters. -/
def readAll (cs : List Char) : Option (List Token) := readUpTo cs.length cs []

end Token

end RadixPool
