import Managed.SlotArray.Basic
import Managed.Sorting.Merge
import Managed.Sorting.Quick

/-!
# Sorting an array

Only an array without holes before its last item can be sorted. While it is sorted its storage is
detached from it: whoever looks at the array then, such as a comparator, sees it empty.
-/

namespace Managed

/-- Storage taken from an array. -/
structure Detached (α : Type) where
  storage : Array (Option α)
  size : Nat
  items : Nat
  last : Nat
deriving Repr

namespace SlotArray

variable {α : Type}

/-- The number of items, if they fill the first slots. -/
def densePrefix (a : SlotArray α) : Except Fault Nat :=
  match (a.storage.extract 0 a.items).findIdx? Option.isNone with
  | some hole => .error (.sparse (hole + 1))
  | none => .ok a.items

/-- Takes the storage away. The dimensions stay. -/
def detach (a : SlotArray α) : Except Fault (Detached α × SlotArray α) := do
  let _ ← a.densePrefix
  return ({ storage := a.storage, size := a.size, items := a.items, last := a.last },
    { shape := a.shape })

def attach (a : SlotArray α) (d : Detached α) : SlotArray α :=
  { storage := d.storage, size := d.size, items := d.items, last := d.last, shape := a.shape }

end SlotArray

namespace Detached

variable {ε σ α : Type}

/-- Compares slots by their items. A hole, which a dense run does not have, counts as equal to any
slot. -/
def onSlots (compare : Sorting.Comparator ε σ α) : Sorting.Comparator ε σ (Option α)
  | some a, some b => compare a b
  | _, _ => pure .eq

/-- Sorts the items, with equal ones in their order if `stable`. -/
def sort (stable : Bool) (compare : Sorting.Comparator ε σ α) : EStateM ε (Detached α × σ) Unit :=
  fun (d, s) =>
    let count := min d.items d.storage.size
    let arrange := if stable then Sorting.mergeSort (onSlots compare) count
      else Sorting.quickSort (onSlots compare) count
    match Sorting.within 0 count (by omega) arrange (d.storage.toVector, s) with
    | .ok u (v, s) => .ok u ({ d with storage := v.toArray }, s)
    | .error e (v, s) => .error e ({ d with storage := v.toArray }, s)

end Detached

end Managed
