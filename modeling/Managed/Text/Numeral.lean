/-!
# Decimal numerals

A numeral has an optional sign, digits with at most one point among them, and an optional exponent
after `e` or `E`. It has at least one digit, which may stand before or after the point.
-/

namespace Managed.Text

structure Numeral where
  negative : Bool
  /-- The digits before the point. -/
  whole : List Char
  /-- The digits after the point. -/
  fraction : List Char
  exponent : Int
deriving DecidableEq, Repr

/-- The number that a list of digits denotes. -/
def decimal (digits : List Char) : Nat :=
  digits.foldl (fun n c => 10 * n + (c.toNat - '0'.toNat)) 0

/-- Whether a minus sign stands in front, and what follows the sign. -/
def splitSign : List Char → Bool × List Char
  | '-' :: rest => (true, rest)
  | '+' :: rest => (false, rest)
  | text => (false, text)

/-- A whole number written with an optional sign and at least one digit. -/
def signedInteger? (text : List Char) : Option Int :=
  let (negative, digits) := splitSign text
  if digits.isEmpty || !digits.all Char.isDigit then none
  else if negative then some (-(decimal digits : Int))
  else some (decimal digits)

namespace Numeral

def read? (text : List Char) : Option Numeral := do
  let (negative, body) := splitSign text
  let (mantissa, rest) := body.span fun c => c != 'e' && c != 'E'
  let exponent ← match rest with
    | [] => some 0
    | _ :: digits => signedInteger? digits
  let (whole, rest) := mantissa.span (· != '.')
  let fraction := rest.drop 1
  if whole.isEmpty && fraction.isEmpty then none
  else if !(whole ++ fraction).all Char.isDigit then none
  else some { negative, whole, fraction, exponent }

/-- All digits, without the point. -/
def digits (n : Numeral) : List Char :=
  n.whole ++ n.fraction

/-- The power of ten by which the number formed by all digits is multiplied. -/
def scale (n : Numeral) : Int :=
  n.exponent - n.fraction.length

end Numeral

end Managed.Text
