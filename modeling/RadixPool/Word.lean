/-!
Length words.

Lengths, positions and cumulative counts are 64-bit words: a sum that leaves the range wraps, and a
shift takes its distance modulo the width. As long as everything stays below `Word.count` the
operations are the ones of the natural numbers.

* `Word.add`, `Word.sub`: sum and difference of two words.
* `Word.pow2`, `Word.shiftRight`: a power of two and a quotient by one.
* `Word.pow2?`, `Word.add?`: the same, refused when the result is no word.
-/

namespace RadixPool.Word

/-- The number of words, `2^64`. -/
abbrev count : Nat := 18446744073709551616

/-- The width of a word in bits. -/
abbrev width : Nat := 64

/-- The sum of two words, modulo their number. -/
def add (a b : Nat) : Nat := (a + b) % count

/-- The difference of two words, modulo their number. -/
def sub (a b : Nat) : Nat := (a + (count - b)) % count

/-- The word with bit `s` set; the distance counts modulo the width. -/
def pow2 (s : Nat) : Nat := 1 <<< (s % width)

/-- The quotient by `2^s`, the distance again counting modulo the width. -/
def shiftRight (a s : Nat) : Nat := a >>> (s % width)

/-- The power `2^s` if it is a word. -/
def pow2? (s : Nat) : Option Nat := if s < width then some (1 <<< s) else none

/-- The sum of two words if it is a word. -/
def add? (a b : Nat) : Option Nat := if a + b < count then some (a + b) else none

/-! ### Below the limit words are numbers -/

theorem add_eq {a b : Nat} (h : a + b < count) : add a b = a + b :=
  Nat.mod_eq_of_lt h

theorem sub_eq {a b : Nat} (h : b ≤ a) (ha : a < count) : sub a b = a - b := by
  simp only [sub, count] at *
  omega

theorem pow2_eq {s : Nat} (h : s < width) : pow2 s = 1 <<< s := by
  rw [pow2, Nat.mod_eq_of_lt h]

theorem shiftRight_eq {a s : Nat} (h : s < width) : shiftRight a s = a >>> s := by
  rw [shiftRight, Nat.mod_eq_of_lt h]

theorem pow2?_eq_some_iff {s n : Nat} : pow2? s = some n ↔ s < width ∧ n = 1 <<< s := by
  unfold pow2?
  split
  · simp_all [eq_comm]
  · simp; omega

theorem add?_eq_some_iff {a b n : Nat} : add? a b = some n ↔ a + b < count ∧ n = a + b := by
  unfold add?
  split
  · simp_all [eq_comm]
  · simp; omega

end RadixPool.Word
