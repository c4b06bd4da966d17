import Managed.Text.Numeral

/-!
# Nearest binary numbers

Numerals stand for binary floating-point numbers of double precision. All finite ones are multiples
of `2 ^ -1074`, so such a number is given as an integer: its value in that unit.
-/

namespace Managed.Text

/-- The quotient rounded to the nearest integer; a half goes to the even neighbour. -/
def roundDiv (num den : Nat) : Nat :=
  let q := num / den
  let r := num % den
  if 2 * r < den then q
  else if 2 * r = den then q + q % 2
  else q + 1

/-- The bits of a number's significand. -/
def precision : Nat := 53

/-- The quotient rounded to the nearest multiple of a power of two that leaves it at most 53
significant bits. -/
def roundToPrecision (num den : Nat) : Nat :=
  let unit := Nat.pow 2 ((num / den).log2 + 1 - precision)
  roundDiv num (den * unit) * unit

/-- The units in one. -/
def one : Nat := Nat.pow 2 1074

/-- The first magnitude, in units, that is too large. -/
def overflow : Nat := Nat.pow 2 1024 * one

/-- The magnitude of a numeral in units, rounded to the nearest number, unless it gets too large. A
number from `10 ^ 309` on is too large, and one below `10 ^ -324` is nearest to zero. -/
def nearestMagnitude? (n : Numeral) : Option Nat :=
  let digits := n.digits.dropWhile (· == '0')
  let order := n.scale + digits.length
  if digits.isEmpty then some 0
  else if 309 < order then none
  else if order ≤ -324 then some 0
  else
    let num := decimal digits * Nat.pow 10 n.scale.toNat * one
    let rounded := roundToPrecision num (Nat.pow 10 (-n.scale).toNat)
    if rounded < overflow then some rounded else none

/-- The finite number nearest to a numeral, in units. -/
def nearest? (n : Numeral) : Option Int :=
  (nearestMagnitude? n).map fun m => if n.negative then -m else m

end Managed.Text
