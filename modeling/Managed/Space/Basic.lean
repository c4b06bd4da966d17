import Managed.Heap.Collection
import Managed.Object
import Managed.SlotArray.Work
import Managed.Text.Order

/-!
# Object spaces

An object space is a heap of objects with its roots and the limits on arrays. Containers hold
handles, so whatever looks at an item's value goes through the space. Every store of a handle in an
object is followed by a write barrier.

Operations that change a space run in `SpaceM`. It keeps the space on failure: what an operation did
before it failed remains done.
-/

namespace Managed

structure SpaceLimits where
  heap : HeapLimits := {}
  arrays : ArrayLimits := {}
deriving DecidableEq, Repr, Inhabited

structure Space where
  heap : Heap Object := {}
  roots : RootSet := {}
  limits : ArrayLimits := {}
deriving Repr, Inhabited

abbrev SpaceM : Type → Type :=
  EStateM Fault Space

namespace Space

def ofLimits (limits : SpaceLimits) : Space :=
  { heap := { limits := limits.heap }, limits := limits.arrays }

/-! ## Looking at objects -/

def get (s : Space) (r : Ref) : Except Fault Object :=
  match s.heap.get r with
  | .ok o => .ok o
  | .error e => .error (.heap e)

def stringValue (s : Space) (r : Ref) : Except Fault String :=
  return (← s.get r).stringValue

def array (s : Space) (r : Ref) : Except Fault (SlotArray Ref) := do
  match ← s.get r with
  | .array a => return a
  | o => throw (.wrongClass .array o.kind)

def relation (s : Space) (r : Ref) : Except Fault Relation := do
  match ← s.get r with
  | .relation r => return r
  | o => throw (.wrongClass .relation o.kind)

def supplier (s : Space) (r : Ref) : Except Fault Supplier := do
  match ← s.get r with
  | .supplier s => return s
  | o => throw (.wrongClass .supplier o.kind)

/-- Whether two objects have the same value: they are one object, or strings with the same text. -/
def equalValue (s : Space) (a b : Ref) : Except Fault Bool := do
  if a = b then return true
  match ← s.get a, ← s.get b with
  | .string x, .string y => return x == y
  | _, _ => return false

/-- The natural order of strings. Other objects do not compare. -/
def compareNatural (s : Space) (a b : Ref) : Except Fault Ordering := do
  match ← s.get a, ← s.get b with
  | .string x, .string y => return Text.byteOrder x y
  | .string _, o => throw (.notComparable o.kind)
  | o, _ => throw (.notComparable o.kind)

/-- What an object counts as in a relation. -/
def valueKey (s : Space) (r : Ref) : Except Fault RelationKey := do
  match ← s.get r with
  | .string text => return .text text
  | _ => return .identity r

/-! ## Running operations -/

/-- Runs a query. -/
def ask {β : Type} (query : Space → Except Fault β) : SpaceM β := fun s =>
  match query s with
  | .ok b => .ok b s
  | .error e => .error e s

/-- Replaces the object that `r` names. -/
def setObject (s : Space) (r : Ref) (o : Object) : Space :=
  match s.heap.set r o with
  | .ok heap => { s with heap }
  | .error _ => s

/-- A new object. Being young it needs no write barrier for the handles it comes with. -/
def alloc (o : Object) : SpaceM Ref := fun s =>
  match s.heap.alloc o with
  | .ok (r, heap) => .ok r { s with heap }
  | .error e => .error (.heap e) s

def newString (text : String) : SpaceM Ref :=
  alloc (.string text)

/-- Called after `value` has been stored in `owner`. -/
def barrier (owner value : Ref) : SpaceM Unit := fun s =>
  .ok () { s with heap := s.heap.writeBarrier owner value }

/-- Works on an array within the limits of the space. The array stays as the work leaves it, also if
that fails. -/
def changeArray {β : Type} (r : Ref) (work : ArrayLimits → ArrayM Ref β) : SpaceM β := fun s =>
  match s.array r with
  | .error e => .error e s
  | .ok a =>
    match work s.limits a with
    | .ok b c => .ok b (s.setObject r (.array c))
    | .error e c => .error e (s.setObject r (.array c))

def changeRelation {β : Type} (r : Ref) (change : Relation → β × Relation) : SpaceM β := fun s =>
  match s.relation r with
  | .ok old =>
    let (b, new) := change old
    .ok b (s.setObject r (.relation new))
  | .error e => .error e s

/-! ## Roots and collections -/

def root (r : Ref) : SpaceM Unit := fun s =>
  .ok () { s with roots := s.roots.addGlobal r }

/-- Removes a root once; the answer is whether there was one. -/
def unroot (r : Ref) : SpaceM Bool := fun s =>
  match s.roots.removeGlobal? r with
  | some roots => .ok true { s with roots }
  | none => .ok false s

def collectMinor : SpaceM CollectionReport := fun s =>
  let (report, heap) := s.heap.minorCollect s.roots
  .ok report { s with heap }

def collectMajor : SpaceM CollectionReport := fun s =>
  let (report, heap) := s.heap.majorCollect s.roots
  .ok report { s with heap }

def tenure (r : Ref) : SpaceM Unit := fun s =>
  match s.heap.tenure r with
  | .ok heap => .ok () { s with heap }
  | .error e => .error (.heap e) s

end Space

end Managed
