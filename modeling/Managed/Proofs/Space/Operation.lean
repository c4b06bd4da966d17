import Managed.Proofs.Heap.Generations
import Managed.Space.Relate
import Managed.Space.Sort
import Managed.Space.Whole

/-!
# The operations of an object space

What can be asked of a space and done with it, as data, so that one can speak about all runs of a
space. Answers are gathered in one type. A run keeps a record of the handles given out, of the slots
freed and of the roots set and removed; no operation looks at that record.
-/

namespace Managed

/-- What an operation answers. -/
inductive Answer where
  | done
  | ref (r : Ref)
  | found (r : Option Ref)
  | position (p : Option Nat)
  | number (n : Nat)
  | numbers (ns : List Nat)
  | truth (b : Bool)
  | text (t : String)
  | order (o : Ordering)
  | key (k : RelationKey)
  | kind (c : ObjectClass)
  | object (o : Object)
  | generation (g : Generation)
  | report (r : CollectionReport)
  | tally (t : Tally)
deriving Repr

/-- The handles that an answer gives. -/
def Answer.refs : Answer → List Ref
  | ref r | key (.identity r) => [r]
  | found r => r.toList
  | object o => Traced.refs o
  | done | position _ | number _ | numbers _ | truth _ | text _ | order _ | key (.text _) | kind _
  | generation _ | report _ | tally _ => []

/-- Questions, which leave a space as it is. -/
inductive Query where
  | contains (r : Ref)
  | object (r : Ref)
  | kind (r : Ref)
  | stringValue (r : Ref)
  | array (r : Ref)
  | relation (r : Ref)
  | supplier (r : Ref)
  | equalValue (a b : Ref)
  | compareNatural (a b : Ref)
  | valueKey (r : Ref)
  | itemAt (array : Ref) (index : ArrayIndex)
  | hasItemAt (array : Ref) (index : ArrayIndex)
  | indexOf (array value : Ref)
  | hasItem (array value : Ref)
  | items (array : Ref)
  | size (array : Ref)
  | isEmpty (array : Ref)
  | dimension (array : Ref) (n : Nat)
  | dimensionCount (array : Ref)
  | dimensions (array : Ref)
  | first (array : Ref)
  | last (array : Ref)
  | next (array : Ref) (position : Nat)
  | previous (array : Ref) (position : Nat)
  | firstItem (array : Ref)
  | lastItem (array : Ref)
  | render (array : Ref) (policy separator : Option String)
  | relatedItem (relation index : Ref)
  | hasIndex (relation index : Ref)
  | isRelated (relation item index : Ref)
  | relatedIndex (relation item : Ref)
  | relatedCount (relation : Ref) (index : Option Ref)
  | available (supplier : Ref)
  | suppliedItem (supplier : Ref)
  | suppliedIndex (supplier : Ref)
  -- questions about the state of the heap
  | generation (r : Ref)
  | live
  | spaceEmpty
  | collectionDue
  | tally
deriving Repr

/-- The handles that an index is given by. -/
def ArrayIndex.refs : ArrayIndex → List Ref
  | .numbers _ => []
  | .objects arguments => arguments.filterMap id

namespace Query

def answer (s : Space) : Query → Except Fault Answer
  | contains r => return .truth (s.heap.contains r)
  | object r => return .object (← s.get r)
  | kind r => return .kind (← s.get r).kind
  | stringValue r => return .text (← s.stringValue r)
  | array r => return .object (.array (← s.array r))
  | relation r => return .object (.relation (← s.relation r))
  | supplier r => return .object (.supplier (← s.supplier r))
  | equalValue a b => return .truth (← s.equalValue a b)
  | compareNatural a b => return .order (← s.compareNatural a b)
  | valueKey r => return .key (← s.valueKey r)
  | itemAt r index => return .found (← s.itemAt r index)
  | hasItemAt r index => return .truth (← s.hasItemAt r index)
  | indexOf r value => return .position (← s.indexOf r value)
  | hasItem r value => return .truth (← s.hasItem r value)
  | items r => return .number (← s.array r).items
  | size r => return .number (← s.array r).size
  | isEmpty r => return .truth (← s.array r).isEmpty
  | dimension r n => return .number (← s.dimension r n)
  | dimensionCount r => return .number (← s.array r).dimensionCount
  | dimensions r => return .numbers (← s.array r).dimensionSizes
  | first r => return .position (← s.array r).first?
  | last r => return .position (← s.array r).last?
  | next r position => return .position ((← s.array r).next? position)
  | previous r position => return .position ((← s.array r).previous? position)
  | firstItem r => return .found (← s.firstItem r)
  | lastItem r => return .found (← s.lastItem r)
  | render r policy separator => return .text (← s.render r policy separator)
  | relatedItem r index => return .found (← s.relatedItem r index)
  | hasIndex r index => return .truth (← s.hasIndex r index)
  | isRelated r item index => return .truth (← s.isRelated r item index)
  | relatedIndex r item => return .found (← s.relatedIndex r item)
  | relatedCount r index => return .number (← s.relatedCount r index)
  | available r => return .truth (← s.available r)
  | suppliedItem r => return .ref (← s.suppliedItem r)
  | suppliedIndex r => return .ref (← s.suppliedIndex r)
  | generation r =>
    match s.heap.generation r with
    | .ok g => .ok (.generation g)
    | .error e => .error (.heap e)
  | live => return .number s.heap.live
  | spaceEmpty => return .truth s.heap.isEmpty
  | collectionDue => return .truth s.heap.collectionDue
  | tally => return .tally s.heap.tally

/-- The handles that a question is about. -/
def refs : Query → List Ref
  | contains r | object r | kind r | stringValue r | array r | relation r | supplier r | valueKey r
  | items r | size r | isEmpty r | dimension r _ | dimensionCount r | dimensions r | first r | last r
  | next r _ | previous r _ | firstItem r | lastItem r | render r _ _ | available r | suppliedItem r
  | suppliedIndex r | generation r => [r]
  | equalValue a b | compareNatural a b | indexOf a b | hasItem a b | relatedItem a b | hasIndex a b
  | relatedIndex a b => [a, b]
  | itemAt r index | hasItemAt r index => r :: index.refs
  | isRelated r item index => [r, item, index]
  | relatedCount r index => r :: index.toList
  | live | spaceEmpty | collectionDue | tally => []

end Query

/-- The operations of a space. A comparator brings the memory it starts with. -/
inductive Operation : Type 1 where
  | query (q : Query)
  -- new objects
  | alloc (o : Object)
  | newString (text : String)
  | newArray (size : Nat)
  | newShapedArray (sizes : List Nat)
  | arrayOf (slots : List (Option Ref))
  | arrayOfStrings (texts : List String)
  | newRelation
  | allItems (array : Ref)
  | allIndexes (array : Ref)
  | arraySupplier (array : Ref)
  | copy (array : Ref)
  | join (a b : Ref)
  | slice (array : Ref) (start : Nat) (count : Option Nat)
  | relatedItems (relation index : Ref)
  | relatedIndexes (relation item : Ref)
  | allRelatedItems (relation : Ref)
  | allRelatedIndexes (relation : Ref)
  | relationSupplier (relation : Ref) (index : Option Ref)
  | remainingItems (supplier : Ref)
  | remainingIndexes (supplier : Ref)
  -- changes of objects
  | store (array value : Ref) (index : ArrayIndex)
  | removeAt (array : Ref) (index : ArrayIndex)
  | append (array value : Ref)
  | appendAll (array other : Ref)
  | insert (array : Ref) (value : Option Ref) (target : InsertAt)
  | insertAfter (array : Ref) (value : Option Ref) (position : Option Nat)
  | delete (array : Ref) (position : Nat)
  | removeItem (array value : Ref)
  | fill (array value : Ref)
  | clearAll (array : Ref)
  | sort (array : Ref) (stable : Bool)
  | sortWith {σ : Type} (array : Ref) (stable : Bool) (comparator : ObjectComparator σ) (memory : σ)
  | relate (relation item index : Ref)
  | unrelate (relation index : Ref)
  | unrelateItem (relation item index : Ref)
  | advance (supplier : Ref)
  -- roots and collections
  | root (r : Ref)
  | unroot (r : Ref)
  | tenure (r : Ref)
  | collect (kind : CollectionKind)

namespace Operation

open Space in
def run : Operation → SpaceM Answer
  | query q => ask q.answer
  | alloc o => .ref <$> Space.alloc o
  | newString text => .ref <$> Space.newString text
  | newArray size => .ref <$> Space.newArray size
  | newShapedArray sizes => .ref <$> Space.newShapedArray sizes
  | arrayOf slots => .ref <$> Space.arrayOf slots
  | arrayOfStrings texts => .ref <$> Space.arrayOfStrings texts
  | newRelation => .ref <$> Space.newRelation
  | allItems array => .ref <$> Space.allItems array
  | allIndexes array => .ref <$> Space.allIndexes array
  | arraySupplier array => .ref <$> Space.arraySupplier array
  | copy array => .ref <$> Space.copy array
  | join a b => .ref <$> Space.join a b
  | slice array start count => .ref <$> Space.slice array start count
  | relatedItems relation index => .ref <$> Space.relatedItems relation index
  | relatedIndexes relation item => .ref <$> Space.relatedIndexes relation item
  | allRelatedItems relation => .ref <$> Space.allRelatedItems relation
  | allRelatedIndexes relation => .ref <$> Space.allRelatedIndexes relation
  | relationSupplier relation index => .ref <$> Space.relationSupplier relation index
  | remainingItems supplier => .ref <$> Space.remainingItems supplier
  | remainingIndexes supplier => .ref <$> Space.remainingIndexes supplier
  | store array value index => (fun _ => .done) <$> Space.store array value index
  | removeAt array index => .found <$> Space.removeAt array index
  | append array value => .number <$> Space.append array value
  | appendAll array other => (fun _ => .done) <$> Space.appendAll array other
  | insert array value target => .number <$> Space.insert array value target
  | insertAfter array value position => .number <$> Space.insertAfter array value position
  | delete array position => .found <$> Space.delete array position
  | removeItem array value => .found <$> Space.removeItem array value
  | fill array value => (fun _ => .done) <$> Space.fill array value
  | clearAll array => (fun _ => .done) <$> Space.clearAll array
  | sort array stable => (fun _ => .done) <$> Space.sort array stable
  | sortWith array stable comparator memory => fun s =>
    match Space.sortWith array stable comparator (s, memory) with
    | .ok _ (s, _) => .ok .done s
    | .error e (s, _) => .error e s
  | relate relation item index => (fun _ => .done) <$> Space.relate relation item index
  | unrelate relation index => .found <$> Space.unrelate relation index
  | unrelateItem relation item index => .found <$> Space.unrelateItem relation item index
  | advance supplier => (fun _ => .done) <$> Space.advance supplier
  | root r => (fun _ => .done) <$> Space.root r
  | unroot r => .truth <$> Space.unroot r
  | tenure r => (fun _ => .done) <$> Space.tenure r
  | collect .minor => .report <$> Space.collectMinor
  | collect .major => .report <$> Space.collectMajor

/-- The handles that an operation is given, those held by a new object among them. -/
def refs : Operation → List Ref
  | query q => q.refs
  | alloc o => Traced.refs o
  | arrayOf slots => slots.filterMap id
  | newString _ | newArray _ | newShapedArray _ | arrayOfStrings _ | newRelation | collect _ => []
  | allItems r | allIndexes r | arraySupplier r | copy r | slice r _ _ | allRelatedItems r
  | allRelatedIndexes r | remainingItems r | remainingIndexes r | delete r _ | clearAll r | sort r _
  | sortWith r _ _ _ | advance r | root r | unroot r | tenure r => [r]
  | join a b | relatedItems a b | relatedIndexes a b | append a b | appendAll a b | removeItem a b
  | fill a b | unrelate a b => [a, b]
  | relationSupplier r index => r :: index.toList
  | store array value index => array :: value :: index.refs
  | removeAt array index => array :: index.refs
  | insert array value _ | insertAfter array value _ => array :: value.toList
  | relate r item index | unrelateItem r item index => [r, item, index]

end Operation

/-! ## Runs -/

/-- The space that an operation leaves behind, whether it succeeds or fails. -/
def Space.left {β : Type} : EStateM.Result Fault Space β → Space
  | .ok _ s => s
  | .error _ s => s

/-- A space with a record of what has happened to it. -/
structure Track where
  space : Space
  /-- The handles of all objects that there have been after any operation. -/
  issued : List Ref := []
  /-- How often the object of each slot has been freed. -/
  freed : Nat → Nat := fun _ => 0
  /-- How often a handle has been made a root. -/
  rooted : Ref → Nat := fun _ => 0
  /-- How often a handle has been removed from the roots with success. -/
  unrooted : Ref → Nat := fun _ => 0

namespace Track

def start (limits : SpaceLimits) : Track :=
  { space := .ofLimits limits }

def step (t : Track) (op : Operation) : Track :=
  let result := op.run t.space
  let space := Space.left result
  { space
    issued := t.issued ++ space.heap.liveRefs
    freed := fun i => t.freed i + (t.space.heap.frees space.heap i).toNat
    rooted := fun r => t.rooted r +
      match op with
      | .root x => if x = r then 1 else 0
      | _ => 0
    unrooted := fun r => t.unrooted r +
      match op, result with
      | .unroot x, .ok (.truth true) _ => if x = r then 1 else 0
      | _, _ => 0 }

def run (t : Track) (ops : List Operation) : Track :=
  ops.foldl step t

end Track

end Managed
