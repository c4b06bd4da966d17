import Managed.Text.Blank
import Managed.Text.Numeral

/-!
# Whole numbers

A text is a whole number if it is a numeral, possibly with white space around it, whose exact value
is an integer. A zero fraction and an exponent are allowed. Values are limited to 63 bits and a
sign, and exponents to 32-bit integers.
-/

namespace Managed.WholeNumber

/-- The greatest magnitude of a whole number. -/
def maxMagnitude : Nat := Nat.pow 2 63 - 1

/-- The magnitude of a numeral, if it is whole and small enough. Where the scale is negative, the
last digits have to be zeros. Where it is positive, a number other than zero gets too large from the
nineteenth power of ten on. -/
def magnitude? (n : Text.Numeral) : Option Nat :=
  let cut := (-n.scale).toNat
  let (kept, dropped) := n.digits.splitAt (n.digits.length - cut)
  if dropped.any (· != '0') then none
  else
    let value := Text.decimal kept
    if value = 0 then some 0
    else if 18 < n.scale then none
    else
      let value := value * Nat.pow 10 n.scale.toNat
      if value ≤ maxMagnitude then some value else none

/-- The first exponent that is too large. -/
def exponentBound : Nat := Nat.pow 2 31

def parse? (text : String) : Option Int := do
  let n ← Text.Numeral.read? (Text.trim text.toList)
  if n.exponent < -(exponentBound : Int) ∨ (exponentBound : Int) ≤ n.exponent then none
  else
    let value ← magnitude? n
    return if n.negative then -value else value

end Managed.WholeNumber
