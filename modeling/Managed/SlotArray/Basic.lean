import Managed.Fault
import Managed.Shape

/-!
# Arrays of slots

An array has a logical size and a block of storage that may be larger, so that growing a little need
not move anything. A slot holds an item or is a hole. Positions count from 1. The array keeps the
number of its items and the position of the last one. An array with more than one dimension also has
a shape.

Slots beyond the logical size are always holes, so growing within the storage only moves the size.
-/

namespace Managed

structure ArrayLimits where
  /-- The most slots an array may have. -/
  maxElements : Nat := 100000000
  /-- The size from which storage grows in proportion to the array. -/
  growthThreshold : Nat := 2000
  /-- How many slots a smaller array gets to spare. -/
  smallGrowthIncrement : Nat := 16
deriving DecidableEq, Repr, Inhabited

namespace ArrayLimits

/-- The storage given to an array that has to grow to `size` slots. -/
def grownCapacity (limits : ArrayLimits) (size : Nat) : Nat :=
  let slack := if size < limits.growthThreshold then limits.smallGrowthIncrement else size / 2
  min (Word.addSat size slack) limits.maxElements

def check (limits : ArrayLimits) (size : Nat) : Except Fault Unit :=
  if limits.maxElements < size then .error (.capacityExceeded size limits.maxElements) else .ok ()

end ArrayLimits

structure SlotArray (α : Type) where
  storage : Array (Option α) := #[]
  size : Nat := 0
  items : Nat := 0
  /-- The position of the last item, 0 if there is none. -/
  last : Nat := 0
  /-- The dimensions, if there is more than one. -/
  shape : Option Shape := none
deriving Repr, Inhabited

namespace SlotArray

variable {α : Type}

/-! ## Slots of a block -/

/-- Whether the slot at a position holds an item. -/
def occupied (block : Array (Option α)) (position : Nat) : Bool :=
  (block[position - 1]?).join.isSome

/-- The greatest occupied position that is at most `position`. -/
def lastOccupied (block : Array (Option α)) : Nat → Option Nat
  | 0 => none
  | p + 1 => if occupied block (p + 1) then some (p + 1) else lastOccupied block p

/-- The least occupied position from `position` to `stop`. -/
def firstOccupied (block : Array (Option α)) (stop position : Nat) : Option Nat :=
  if position ≤ stop then
    if occupied block position then some position else firstOccupied block stop (position + 1)
  else none
termination_by stop + 1 - position

/-! ## Reading -/

def capacity (a : SlotArray α) : Nat :=
  a.storage.size

/-- The slots within the logical size. -/
def slots (a : SlotArray α) : Array (Option α) :=
  a.storage.extract 0 a.size

def isEmpty (a : SlotArray α) : Bool :=
  a.items == 0

/-- The item at a position; `none` for a hole and for a position outside the array. -/
def get? (a : SlotArray α) (position : Nat) : Option α :=
  if position = 0 ∨ a.size < position then none else (a.storage[position - 1]?).join

/-- The items with their positions, in ascending order. -/
def entries (a : SlotArray α) : List (Nat × α) :=
  (a.slots.toList.zipIdx 1).filterMap fun (slot, p) => slot.map fun x => (p, x)

def allItems (a : SlotArray α) : List α :=
  a.entries.map Prod.snd

def allIndexes (a : SlotArray α) : List Nat :=
  a.entries.map Prod.fst

def last? (a : SlotArray α) : Option Nat :=
  if a.last = 0 then none else some a.last

/-- The next position after `position` that holds an item. -/
def next? (a : SlotArray α) (position : Nat) : Option Nat :=
  firstOccupied a.storage a.last (position + 1)

def first? (a : SlotArray α) : Option Nat :=
  a.next? 0

/-- The last position before `position` that holds an item. -/
def previous? (a : SlotArray α) (position : Nat) : Option Nat :=
  lastOccupied a.storage (min position (a.size + 1) - 1)

/-- The position of the first item with a property. -/
def positionWhere? (a : SlotArray α) (p : α → Bool) : Option Nat :=
  (a.entries.find? fun (_, x) => p x).map Prod.fst

/-! ## Dimensions -/

def dimensionCount (a : SlotArray α) : Nat :=
  match a.shape with
  | some s => s.rank
  | none => 1

def dimensionSizes (a : SlotArray α) : List Nat :=
  match a.shape with
  | some s => s.sizes
  | none => [a.size]

/-- The size of the `n`-th dimension, 0 if there is no such dimension. -/
def dimension (a : SlotArray α) (n : Nat) : Nat :=
  if n = 0 then 0 else a.dimensionSizes.getD (n - 1) 0

/-- The subscripts of a position. -/
def subscriptsOf (a : SlotArray α) (position : Nat) : List Nat :=
  match a.shape with
  | some s => s.subscripts (position - 1)
  | none => [position]

/-! ## Making and changing -/

/-- Counts the items and finds the last one again. -/
def recount (a : SlotArray α) : SlotArray α :=
  { a with
    items := a.slots.countP Option.isSome
    last := (lastOccupied a.storage a.size).getD 0 }

def ofSize (size : Nat) (limits : ArrayLimits) : Except Fault (SlotArray α) := do
  limits.check size
  return { size, storage := Array.replicate size none }

/-- An array with the given dimensions. A count that is no word is taken for the largest word. -/
def ofDimensions (sizes : List Nat) (limits : ArrayLimits) : Except Fault (SlotArray α) :=
  match sizes with
  | [] => .ok {}
  | [size] => ofSize size limits
  | _ => do
    let shape : Shape := ⟨sizes⟩
    let total := shape.count?.getD Word.max
    limits.check total
    return { size := total, storage := Array.replicate total none, shape }

def ofSlots (slots : Array (Option α)) (limits : ArrayLimits) : Except Fault (SlotArray α) := do
  limits.check slots.size
  return recount { size := slots.size, storage := slots }

/-- Fills or clears the slot at a position of the array. -/
def put (a : SlotArray α) (position : Nat) (value : Option α) : SlotArray α :=
  let held := occupied a.storage position
  let storage := a.storage.setIfInBounds (position - 1) value
  { a with
    items := a.items + value.isSome.toNat - held.toNat
    last :=
      if value.isSome then Nat.max a.last position
      else if position = a.last then
        (lastOccupied storage (min position (a.size + 1) - 1)).getD 0
      else a.last
    storage }

/-- Makes the slot at a position a hole and gives the item it held. -/
def clear (a : SlotArray α) (position : Nat) : Option α × SlotArray α :=
  match a.get? position with
  | some x => (some x, a.put position none)
  | none => (none, a)

def fill (a : SlotArray α) (value : α) : SlotArray α :=
  { a with
    storage := Array.replicate a.size (some value) ++ a.storage.extract a.size
    items := a.size
    last := a.size }

def clearAll (a : SlotArray α) : SlotArray α :=
  { a with
    storage := Array.replicate a.size none ++ a.storage.extract a.size
    items := 0
    last := 0 }

end SlotArray

end Managed
