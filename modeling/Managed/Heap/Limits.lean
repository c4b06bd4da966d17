/-!
# Limits of a heap
-/

namespace Managed

structure HeapLimits where
  /-- Collections an object survives in a generation before it is promoted. -/
  nurseryThreshold : UInt32 := 2
  /-- The most objects that may live at one time. -/
  maxObjects : Nat := 16777216
  /-- Allocations after which a collection is due. -/
  nurseryBudget : Nat := 65536
deriving DecidableEq, Repr, Inhabited

end Managed
