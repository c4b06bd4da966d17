import Managed.Text.Nearest
import Managed.Toml.Key
import Managed.Toml.Value

/-!
# Numbers

Integers are decimal, or hexadecimal, octal or binary after a mark. Bars may stand between digits.
-/

namespace Managed.Toml

open Reader

/-- Digits with single bars between them. -/
def digitRun (isDigit : Char → Bool) : Reader (List Char) := do
  let first ← satisfying isDigit
  let rest ← many ((satisfying isDigit) <|> (do char '_'; satisfying isDigit))
  return first :: rest

/-- Whether a minus sign stands in front. -/
def sign : Reader Bool := do
  let s ← option (satisfying fun c => c == '+' || c == '-')
  return s == some '-'

/-- The digits of a whole number; a zero stands alone. -/
def wholeDigits : Reader (List Char) :=
  (do char '0'; return ['0']) <|> digitRun Char.isDigit

/-- The first natural number that is too large for an integer. -/
def integerBound : Nat := Nat.pow 2 63

def isInteger (n : Int) : Bool :=
  -(integerBound : Int) ≤ n && n < integerBound

def integerOf (n : Int) : Reader Value :=
  if isInteger n then pure (.integer n) else failure

def basedInteger (mark : String) (base : Nat) (isDigit : Char → Bool) : Reader Value := do
  word mark
  integerOf (digitsValue base (← digitRun isDigit))

def integer : Reader Value :=
  basedInteger "0x" 16 isHexDigit <|>
    basedInteger "0o" 8 (fun c => '0' ≤ c && c ≤ '7') <|>
    basedInteger "0b" 2 (fun c => c == '0' || c == '1') <|>
    (do
      let negative ← sign
      let n := Text.decimal (← wholeDigits)
      integerOf (if negative then -n else n))

def exponent : Reader Int := do
  let _ ← satisfying fun c => c == 'e' || c == 'E'
  let negative ← sign
  let n := Text.decimal (← digitRun Char.isDigit)
  return if negative then -n else n

/-- A floating-point number. One that is too large is refused, unless it is negative. -/
def float : Reader Value := do
  let negative ← sign
  let special : Reader Value := do
    word "inf" <|> word "nan"
    return .float
  let ordinary : Reader Value := do
    let whole ← wholeDigits
    let fraction ← option (do char '.'; digitRun Char.isDigit)
    let power ← if fraction.isSome then option exponent else some <$> exponent
    let numeral : Text.Numeral :=
      { negative, whole, fraction := fraction.getD [], exponent := power.getD 0 }
    if (Text.nearest? numeral).isNone && !negative then failure
    return .float
  special <|> ordinary

end Managed.Toml
