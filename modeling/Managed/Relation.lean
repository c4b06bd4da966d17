import Managed.Heap.Ref

/-!
# Relations

A relation maps an index to any number of items. Both sides count by value: two strings with the
same text are the same index, and so are they the same item. The values are given as keys, so a
relation never looks at objects.

Entries with the same index key form a bucket. Buckets stand in the order in which they were made,
and entries in the order in which they were put. No bucket is ever empty.
-/

namespace Managed

/-- What an object counts as: its text if it is a string, and itself otherwise. -/
inductive RelationKey where
  | text (value : String)
  | identity (ref : Ref)
deriving DecidableEq, Repr

structure RelationEntry where
  index : Ref
  item : Ref
  itemKey : RelationKey
deriving DecidableEq, Repr

structure Bucket where
  key : RelationKey
  entries : List RelationEntry
deriving DecidableEq, Repr

structure Relation where
  buckets : List Bucket := []
  /-- The number of entries. -/
  len : Nat := 0
deriving DecidableEq, Repr, Inhabited

namespace Relation

/-! ## Queries -/

def isEmpty (r : Relation) : Bool :=
  r.len == 0

/-- All entries, bucket by bucket. -/
def entries (r : Relation) : List RelationEntry :=
  r.buckets.flatMap Bucket.entries

def bucket? (r : Relation) (key : RelationKey) : Option Bucket :=
  r.buckets.find? (·.key = key)

/-- The entries with an index key. -/
def entriesAt (r : Relation) (key : RelationKey) : List RelationEntry :=
  ((r.bucket? key).map Bucket.entries).getD []

/-- The first item with an index key. -/
def itemAt? (r : Relation) (key : RelationKey) : Option Ref :=
  (r.entriesAt key).head?.map RelationEntry.item

def itemsAt (r : Relation) (key : RelationKey) : List Ref :=
  (r.entriesAt key).map RelationEntry.item

def countAt (r : Relation) (key : RelationKey) : Nat :=
  (r.entriesAt key).length

def hasIndex (r : Relation) (key : RelationKey) : Bool :=
  (r.bucket? key).isSome

def hasItem (r : Relation) (itemKey key : RelationKey) : Bool :=
  (r.entriesAt key).any (·.itemKey = itemKey)

/-- The indexes of an item. -/
def indexesOf (r : Relation) (itemKey : RelationKey) : List Ref :=
  (r.entries.filter (·.itemKey = itemKey)).map RelationEntry.index

/-- The first index of an item. -/
def indexOf? (r : Relation) (itemKey : RelationKey) : Option Ref :=
  (r.entries.find? (·.itemKey = itemKey)).map RelationEntry.index

def pairOf (e : RelationEntry) : Ref × Ref :=
  (e.index, e.item)

/-- All pairs of an index and an item. -/
def pairs (r : Relation) : List (Ref × Ref) :=
  r.entries.map pairOf

def pairsAt (r : Relation) (key : RelationKey) : List (Ref × Ref) :=
  (r.entriesAt key).map pairOf

def allItems (r : Relation) : List Ref :=
  r.entries.map RelationEntry.item

def allIndexes (r : Relation) : List Ref :=
  r.entries.map RelationEntry.index

/-! ## Changes -/

/-- Replaces the entries with an index key; a bucket that would be empty goes away. -/
def setEntries (buckets : List Bucket) (key : RelationKey) (entries : List RelationEntry) :
    List Bucket :=
  if entries.isEmpty then buckets.eraseP (·.key = key)
  else buckets.map fun b => if b.key = key then { b with entries } else b

/-- Puts an item under an index. The answer is whether the pair is new; if it is not, the new
objects take the place of the old ones. -/
def put (r : Relation) (item : Ref) (itemKey : RelationKey) (index : Ref) (key : RelationKey) :
    Bool × Relation :=
  let entry : RelationEntry := { index, item, itemKey }
  if r.hasItem itemKey key then
    let entries := (r.entriesAt key).map fun e => if e.itemKey = itemKey then entry else e
    (false, { r with buckets := setEntries r.buckets key entries })
  else if r.hasIndex key then
    (true,
      { buckets := setEntries r.buckets key (r.entriesAt key ++ [entry]), len := r.len + 1 })
  else
    (true, { buckets := r.buckets ++ [{ key, entries := [entry] }], len := r.len + 1 })

/-- Removes the first entry with an index key that has a property, and gives its item. -/
def removeWhere (r : Relation) (key : RelationKey) (p : RelationEntry → Bool) :
    Option Ref × Relation :=
  match (r.entriesAt key).find? p with
  | none => (none, r)
  | some e =>
    (some e.item,
      { buckets := setEntries r.buckets key ((r.entriesAt key).eraseP p), len := r.len - 1 })

/-- Removes the first item with an index key. -/
def remove (r : Relation) (key : RelationKey) : Option Ref × Relation :=
  r.removeWhere key fun _ => true

def removeItem (r : Relation) (itemKey key : RelationKey) : Option Ref × Relation :=
  r.removeWhere key (·.itemKey = itemKey)

/-- Removes all items with an index key. -/
def removeAll (r : Relation) (key : RelationKey) : List Ref × Relation :=
  (r.itemsAt key, { buckets := r.buckets.eraseP (·.key = key), len := r.len - r.countAt key })

/-- Removes all items. -/
def clear (r : Relation) : Relation :=
  { r with buckets := [], len := 0 }

end Relation

instance : Traced Relation where
  refs r := r.entries.flatMap fun e => [e.index, e.item]

end Managed
