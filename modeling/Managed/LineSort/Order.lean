import Managed.LineSort.Options
import Managed.Text.Blank
import Managed.Text.Case
import Managed.Text.Nearest
import Managed.Text.Order

/-!
# Orders of lines

Lines are ordered by their bytes, by the bytes of their lower case, or by the numbers they hold.
-/

namespace Managed.LineSort

inductive LineOrder where
  | natural
  | numeric
  | caseless
deriving DecidableEq, Repr

/-- The number in a line, white space around it aside: the finite number nearest to its numeral. -/
def number? (line : String) : Option Int := do
  Text.nearest? (← Text.Numeral.read? (Text.trim line.toList))

/-- How two lines compare, if they do. -/
def LineOrder.compare? : LineOrder → String → String → Option Ordering
  | natural, a, b => some (Text.byteOrder a b)
  | caseless, a, b => some (Text.byteOrder (Text.lowercase a) (Text.lowercase b))
  | numeric, a, b => do return compare (← number? a) (← number? b)

def Options.order (o : Options) : LineOrder :=
  if o.has .numeric then .numeric
  else if o.has .caseless then .caseless
  else .natural

end Managed.LineSort
