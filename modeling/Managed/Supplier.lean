import Managed.Fault

/-!
# Suppliers

A supplier walks once over a snapshot of items and their indexes, two lists of the same length. What it
has passed it no longer holds.
-/

namespace Managed

structure Supplier where
  items : List Ref := []
  indexes : List Ref := []
  /-- How many items have been passed. -/
  position : Nat := 0
deriving DecidableEq, Repr, Inhabited

namespace Supplier

def ofLists (items indexes : List Ref) : Supplier :=
  { items, indexes }

def available (s : Supplier) : Bool :=
  s.position < s.items.length

/-- The handle of a list that the supplier shows now. -/
def current (s : Supplier) (refs : List Ref) : Except Fault Ref :=
  match refs[s.position]? with
  | some r => .ok r
  | none => .error .supplierExhausted

def item (s : Supplier) : Except Fault Ref :=
  s.current s.items

def index (s : Supplier) : Except Fault Ref :=
  s.current s.indexes

/-- Passes the current item. -/
def next (s : Supplier) : Except Fault Supplier :=
  if s.available then .ok { s with position := s.position + 1 } else .error .supplierExhausted

def remainingItems (s : Supplier) : List Ref :=
  s.items.drop s.position

def remainingIndexes (s : Supplier) : List Ref :=
  s.indexes.drop s.position

end Supplier

instance : Traced Supplier where
  refs s := s.remainingItems ++ s.remainingIndexes

end Managed
