import Managed.SlotArray.Sequence
import Managed.Space.Index

/-!
# Items of managed arrays

Making arrays, storing items in them and finding and removing items.
-/

namespace Managed.Space

/-! ## Making arrays -/

def newArray (size : Nat) : SpaceM Ref := do
  alloc (.array (← ask fun s => SlotArray.ofSize size s.limits))

def newShapedArray (sizes : List Nat) : SpaceM Ref := do
  alloc (.array (← ask fun s => SlotArray.ofDimensions sizes s.limits))

def arrayOf (slots : List (Option Ref)) : SpaceM Ref := do
  alloc (.array (← ask fun s => SlotArray.ofSlots slots.toArray s.limits))

def arrayOfItems (items : List Ref) : SpaceM Ref :=
  arrayOf (items.map some)

def arrayOfStrings (texts : List String) : SpaceM Ref := do
  arrayOfItems (← texts.mapM newString)

/-! ## Single items -/

def itemAt (s : Space) (array : Ref) (index : ArrayIndex) : Except Fault (Option Ref) := do
  let subscripts ← s.resolveIndex index
  let a ← s.array array
  return (← a.positionOf subscripts .read).bind a.get?

def hasItemAt (s : Space) (array : Ref) (index : ArrayIndex) : Except Fault Bool := do
  let subscripts ← s.resolveIndex index
  let a ← s.array array
  return ((← a.positionOf subscripts .lookup).bind a.get?).isSome

/-- Stores an item; the array grows to hold it. -/
def store (array value : Ref) (index : ArrayIndex) : SpaceM Unit := do
  let subscripts ← ask (·.resolveIndex index)
  changeArray array (ArrayM.store subscripts value)
  barrier array value

/-- Removes the item at an index and gives it. -/
def removeAt (array : Ref) (index : ArrayIndex) : SpaceM (Option Ref) := do
  let subscripts ← ask (·.resolveIndex index)
  changeArray array fun _ => ArrayM.remove subscripts

def append (array value : Ref) : SpaceM Nat := do
  let position ← changeArray array (ArrayM.append value)
  barrier array value
  return position

/-- Appends all items of another array, and then calls the barriers. -/
def appendAll (array other : Ref) : SpaceM Unit := do
  let items := (← ask (·.array other)).allItems
  changeArray array (ArrayM.appendAll items)
  items.forM (barrier array)

def insert (array : Ref) (value : Option Ref) (target : InsertAt) : SpaceM Nat := do
  let position ← changeArray array (ArrayM.insert value target)
  value.forM (barrier array)
  return position

/-- Inserts a slot after a position, or in front of all others. -/
def insertAfter (array : Ref) (value : Option Ref) (position : Option Nat) : SpaceM Nat :=
  insert array value (position.elim .first .after)

def delete (array : Ref) (position : Nat) : SpaceM (Option Ref) :=
  changeArray array fun _ => ArrayM.delete position

/-! ## Finding items by value -/

/-- The position of the first of the given items whose value equals that of `value`. -/
def positionAmong (s : Space) (value : Ref) : List (Nat × Ref) → Except Fault (Option Nat)
  | [] => .ok none
  | (p, item) :: rest => do
    if ← s.equalValue item value then return some p
    s.positionAmong value rest

def indexOf (s : Space) (array value : Ref) : Except Fault (Option Nat) := do
  s.positionAmong value (← s.array array).entries

def hasItem (s : Space) (array value : Ref) : Except Fault Bool :=
  return (← s.indexOf array value).isSome

/-- Removes the first item with the value of `value` and gives it. -/
def removeItem (array value : Ref) : SpaceM (Option Ref) := do
  match ← ask (·.indexOf array value) with
  | some p => changeArray array fun _ => ArrayM.clear p
  | none => return none

/-! ## Queries -/

def dimension (s : Space) (array : Ref) (n : Nat) : Except Fault Nat := do
  if n = 0 then throw (.invalidSubscript 1 (toString n))
  return (← s.array array).dimension n

def firstItem (s : Space) (array : Ref) : Except Fault (Option Ref) := do
  let a ← s.array array
  return a.first?.bind a.get?

def lastItem (s : Space) (array : Ref) : Except Fault (Option Ref) := do
  let a ← s.array array
  return a.last?.bind a.get?

end Managed.Space
