/-!
# 64-bit words

Sizes, positions and subscripts are natural numbers below `2 ^ 64`. Arithmetic on them either wraps
around, as in addressing, or stops at the largest word, or is refused when the result is no word.
-/

namespace Managed.Word

/-- The number of words. -/
def card : Nat := Nat.pow 2 64

/-- The largest word. -/
def max : Nat := card - 1

/-- Addition modulo `2 ^ 64`. -/
def add (a b : Nat) : Nat := (a + b) % card

/-- Multiplication modulo `2 ^ 64`. -/
def mul (a b : Nat) : Nat := (a * b) % card

/-- The product, if it is a word. -/
def mul? (a b : Nat) : Option Nat :=
  if a * b < card then some (a * b) else none

/-- The sum, or the largest word if the sum is none. -/
def addSat (a b : Nat) : Nat :=
  min (a + b) max

end Managed.Word
