import RadixPool.Json.Numeral

/-!
Writing JSON text.

* `Json.quoteInto`: a string between quotes.
* `Json.compact`: a document on one line without blanks.
* `Json.pretty`: a document with two blanks of indentation for each level; empty arrays and objects
  stay on one line.
-/

namespace RadixPool.Json

/-- The digits of a control character in an escape. -/
def hexDigits (c : Char) : String :=
  String.ofList [Nat.digitChar (c.toNat / 16), Nat.digitChar (c.toNat % 16)]

/-- A character inside a string: quotes, backslashes and control characters are escaped, all others
stand for themselves. -/
def escapeInto (out : String) (c : Char) : String :=
  if c = '"' then out ++ "\\\""
  else if c = '\\' then out ++ "\\\\"
  else if ' ' ≤ c then out.push c
  else if c = '\n' then out ++ "\\n"
  else if c = '\r' then out ++ "\\r"
  else if c = '\t' then out ++ "\\t"
  else if c = '\x08' then out ++ "\\b"
  else if c = '\x0c' then out ++ "\\f"
  else out ++ "\\u00" ++ hexDigits c

/-- Appends a string between quotes. -/
def quoteInto (out : String) (s : String) : String :=
  (s.toList.foldl escapeInto (out.push '"')).push '"'

/-! ### One line -/

mutual

/-- Appends a document on one line. -/
def compactInto (out : String) : Json → String
  | .null => out ++ "null"
  | .bool b => out ++ if b then "true" else "false"
  | .int n => out ++ toString n
  | .float bits => out ++ floatText bits
  | .str s => quoteInto out s
  | .arr [] => out ++ "[]"
  | .arr (j :: js) => compactItems (compactInto (out.push '[') j) js ++ "]"
  | .obj [] => out ++ "\x7b\x7d"
  | .obj ((n, j) :: ms) =>
    compactMembers (compactInto ((quoteInto (out.push '\x7b') n).push ':') j) ms ++ "\x7d"

/-- Appends further items. -/
def compactItems (out : String) : List Json → String
  | [] => out
  | j :: js => compactItems (compactInto (out.push ',') j) js

/-- Appends further members. -/
def compactMembers (out : String) : List (String × Json) → String
  | [] => out
  | (n, j) :: ms => compactMembers (compactInto ((quoteInto (out.push ',') n).push ':') j) ms

end

/-- A document on one line without blanks. -/
def compact (j : Json) : String := compactInto "" j

/-! ### Indented -/

/-- A line break and the indentation of a level. -/
def newline (level : Nat) : String := String.ofList ('\n' :: List.replicate (2 * level) ' ')

mutual

/-- Appends an indented document that begins at a level. -/
def prettyInto (level : Nat) (out : String) : Json → String
  | .null => out ++ "null"
  | .bool b => out ++ if b then "true" else "false"
  | .int n => out ++ toString n
  | .float bits => out ++ floatText bits
  | .str s => quoteInto out s
  | .arr [] => out ++ "[]"
  | .arr (j :: js) =>
    prettyItems level (prettyInto (level + 1) (out ++ "[" ++ newline (level + 1)) j) js
      ++ newline level ++ "]"
  | .obj [] => out ++ "\x7b\x7d"
  | .obj ((n, j) :: ms) =>
    prettyMembers level
        (prettyInto (level + 1) (quoteInto (out ++ "\x7b" ++ newline (level + 1)) n ++ ": ") j) ms
      ++ newline level ++ "\x7d"

/-- Appends further items of an array at a level. -/
def prettyItems (level : Nat) (out : String) : List Json → String
  | [] => out
  | j :: js => prettyItems level (prettyInto (level + 1) (out ++ "," ++ newline (level + 1)) j) js

/-- Appends further members of an object at a level. -/
def prettyMembers (level : Nat) (out : String) : List (String × Json) → String
  | [] => out
  | (n, j) :: ms =>
    prettyMembers level
      (prettyInto (level + 1) (quoteInto (out ++ "," ++ newline (level + 1)) n ++ ": ") j) ms

end

/-- A document with indentation. -/
def pretty (j : Json) : String := prettyInto 0 "" j

end RadixPool.Json
