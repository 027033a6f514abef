import RadixPool.Text.Hidden

/-!
Quoted text for display.

* `Quoted.text`: a string between quotes; what cannot be shown is written by its code point.
-/

namespace RadixPool.Quoted

/-- Appends a character: quotes, backslashes and the common controls with a backslash, other hidden
characters by their code point in hexadecimal. -/
def charInto (out : String) (c : Char) : String :=
  if c = '"' then out ++ "\\\""
  else if c = '\\' then out ++ "\\\\"
  else if c = '\x00' then out ++ "\\0"
  else if c = '\t' then out ++ "\\t"
  else if c = '\n' then out ++ "\\n"
  else if c = '\r' then out ++ "\\r"
  else if Hidden.isHidden c then
    out ++ "\\u\x7b" ++ String.ofList (Nat.toDigits 16 c.toNat) ++ "\x7d"
  else out.push c

/-- A string between quotes. -/
def text (s : String) : String := (s.toList.foldl charInto "\"").push '"'

end RadixPool.Quoted
