import Managed.Space.Items

/-!
# Managed relations and suppliers
-/

namespace Managed.Space

/-! ## Relations -/

def newRelation : SpaceM Ref :=
  alloc (.relation {})

/-- Puts an item under an index. -/
def relate (relation item index : Ref) : SpaceM Unit := do
  let itemKey ← ask (·.valueKey item)
  let key ← ask (·.valueKey index)
  let _ ← changeRelation relation (·.put item itemKey index key)
  barrier relation item
  barrier relation index

def relatedItem (s : Space) (relation index : Ref) : Except Fault (Option Ref) := do
  let key ← s.valueKey index
  return (← s.relation relation).itemAt? key

def relatedItems (relation index : Ref) : SpaceM Ref := do
  let key ← ask (·.valueKey index)
  arrayOfItems ((← ask (·.relation relation)).itemsAt key)

def hasIndex (s : Space) (relation index : Ref) : Except Fault Bool := do
  let key ← s.valueKey index
  return (← s.relation relation).hasIndex key

def isRelated (s : Space) (relation item index : Ref) : Except Fault Bool := do
  let itemKey ← s.valueKey item
  let key ← s.valueKey index
  return (← s.relation relation).hasItem itemKey key

/-- Removes the first item under an index and gives it. -/
def unrelate (relation index : Ref) : SpaceM (Option Ref) := do
  let key ← ask (·.valueKey index)
  changeRelation relation (·.remove key)

def unrelateItem (relation item index : Ref) : SpaceM (Option Ref) := do
  let itemKey ← ask (·.valueKey item)
  let key ← ask (·.valueKey index)
  changeRelation relation (·.removeItem itemKey key)

def relatedIndex (s : Space) (relation item : Ref) : Except Fault (Option Ref) := do
  let key ← s.valueKey item
  return (← s.relation relation).indexOf? key

def relatedIndexes (relation item : Ref) : SpaceM Ref := do
  let key ← ask (·.valueKey item)
  arrayOfItems ((← ask (·.relation relation)).indexesOf key)

/-- How many items a relation has, in all or under one index. -/
def relatedCount (s : Space) (relation : Ref) (index : Option Ref) : Except Fault Nat := do
  let r ← s.relation relation
  match index with
  | some index => return r.countAt (← s.valueKey index)
  | none => return r.len

def allRelatedItems (relation : Ref) : SpaceM Ref := do
  arrayOfItems (← ask (·.relation relation)).allItems

def allRelatedIndexes (relation : Ref) : SpaceM Ref := do
  arrayOfItems (← ask (·.relation relation)).allIndexes

/-- A supplier of the items of a relation, of all or of those under one index. -/
def relationSupplier (relation : Ref) (index : Option Ref) : SpaceM Ref := do
  let pairs ← ask fun s => do
    match index with
    | some index =>
      let key ← s.valueKey index
      return (← s.relation relation).pairsAt key
    | none => return (← s.relation relation).pairs
  alloc (.supplier (.ofLists (pairs.map Prod.snd) (pairs.map Prod.fst)))

/-! ## Suppliers -/

def available (s : Space) (supplier : Ref) : Except Fault Bool :=
  return (← s.supplier supplier).available

def suppliedItem (s : Space) (supplier : Ref) : Except Fault Ref := do
  (← s.supplier supplier).item

def suppliedIndex (s : Space) (supplier : Ref) : Except Fault Ref := do
  (← s.supplier supplier).index

/-- Passes the current item of a supplier. -/
def advance (supplier : Ref) : SpaceM Unit := fun s =>
  match s.supplier supplier >>= Supplier.next with
  | .ok next => .ok () (s.setObject supplier (.supplier next))
  | .error e => .error e s

def remainingItems (supplier : Ref) : SpaceM Ref := do
  arrayOfItems (← ask (·.supplier supplier)).remainingItems

def remainingIndexes (supplier : Ref) : SpaceM Ref := do
  arrayOfItems (← ask (·.supplier supplier)).remainingIndexes

end Managed.Space
