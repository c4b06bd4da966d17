import Managed.Text.Numeral
import Managed.Toml.Reader
import Managed.Toml.Value

/-!
# Points in time

Dates follow the calendar; a minute may have a leap second.
-/

namespace Managed.Toml

open Reader

/-- A number of the given length, within bounds. -/
def numberWithin (length least greatest : Nat) : Reader Nat := do
  let n := Text.decimal (← exactly Char.isDigit length)
  if least ≤ n && n ≤ greatest then return n else failure

def isLeapYear (year : Nat) : Bool :=
  year % 4 == 0 && (year % 100 != 0 || year % 400 == 0)

def daysIn (year month : Nat) : Nat :=
  if month == 2 then if isLeapYear year then 29 else 28
  else if [4, 6, 9, 11].contains month then 30
  else 31

def date : Reader Unit := do
  let year ← numberWithin 4 0 9999
  char '-'
  let month ← numberWithin 2 1 12
  char '-'
  let _ ← numberWithin 2 1 (daysIn year month)

def clock : Reader Unit := do
  let _ ← numberWithin 2 0 23
  char ':'
  let _ ← numberWithin 2 0 59

def time : Reader Unit := do
  clock
  char ':'
  let _ ← numberWithin 2 0 60
  let _ ← option (do
    char '.'
    let _ ← satisfying Char.isDigit
    run Char.isDigit)

def zone : Reader Unit :=
  (do let _ ← satisfying fun c => c == 'Z' || c == 'z') <|>
    (do
      let _ ← satisfying fun c => c == '+' || c == '-'
      clock)

/-- A date, a time, or both with or without an offset. -/
def moment : Reader Value := do
  let dated : Reader Unit := do
    date
    let _ ← option (do
      let _ ← satisfying fun c => c == 'T' || c == 't' || c == ' '
      time
      let _ ← option zone)
  dated <|> time
  return .moment

end Managed.Toml
