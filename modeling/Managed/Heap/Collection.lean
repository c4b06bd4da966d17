import Managed.Heap.Marking
import Managed.Heap.Roots

/-!
# Collections

A collection marks what it reaches, sweeps the generations it covers and puts the remembered set in
order again. A sweep frees the objects that bear no mark and ages the others. A minor collection
starts from the roots and from what the remembered objects hold; a major one starts from the roots
alone.
-/

namespace Managed

structure CollectionReport where
  kind : CollectionKind
  marked : Nat
  freed : Nat
  promoted : Nat
deriving DecidableEq, Repr

namespace Slot

variable {α : Type}

/-- Whether a sweep frees the object in this slot. -/
def dies (kind : CollectionKind) (s : Slot α) : Bool :=
  s.entry.any fun e => kind.covers e.header.generation && !e.header.marked

/-- Whether a sweep makes the object in this slot an old one. -/
def matures (threshold : UInt32) (s : Slot α) : Bool :=
  s.entry.any fun e => e.header.marked && e.header.generation.isYoung &&
    (e.header.survive threshold).generation == .old

/-- The slot after a sweep. Freeing its object changes the serial, so that handles to the object
stop resolving. -/
def sweep (kind : CollectionKind) (threshold : UInt32) (s : Slot α) : Slot α :=
  if s.dies kind then vacant (s.serial + 1)
  else s.map fun e =>
    if kind.covers e.header.generation then { e with header := e.header.survive threshold } else e

end Slot

namespace Heap

variable {α : Type}

/-- The slots whose objects a sweep frees, in ascending order. -/
def dying (kind : CollectionKind) (h : Heap α) : List Nat :=
  h.slots.toList.zipIdx.filterMap fun (s, i) => if s.dies kind then some i else none

/-- The objects that a sweep makes old, in ascending order of their slots. -/
def maturing (h : Heap α) : List Ref :=
  h.slots.toList.zipIdx.filterMap fun (s, i) =>
    if s.matures h.limits.nurseryThreshold then s.occupant.map fun o => ⟨i, o.serial⟩ else none

/-- Frees the unmarked objects that the collection covers and ages the marked ones. Slots are freed
in ascending order, so the highest one is used again first. -/
def sweep (kind : CollectionKind) (h : Heap α) : Heap α :=
  let dying := h.dying kind
  { h with
    slots := h.slots.map (Slot.sweep kind h.limits.nurseryThreshold)
    free := dying.reverse ++ h.free
    live := h.live - dying.length }

/-- Empties the remembered set. -/
def forgetAll (h : Heap α) : Heap α :=
  let owners := h.remembered.refs
  owners.foldl (fun h owner => h.modifyHeader owner Header.forget)
    { h with remembered := h.remembered.taken }

/-- Enters a finished collection in the books. -/
def tallied (h : Heap α) (report : CollectionReport) : Heap α :=
  { h with
    allocated := 0
    tally :=
      { minor := h.tally.minor + if report.kind = .minor then 1 else 0
        major := h.tally.major + if report.kind = .major then 1 else 0
        freed := h.tally.freed + report.freed
        promoted := h.tally.promoted + report.promoted } }

variable [Traced α]

/-- Marks from the given handles and sweeps. The report is the collection's; the second component
lists the objects that became old. -/
def markAndSweep (kind : CollectionKind) (h : Heap α) (start : List Ref) :
    CollectionReport × List Ref × Heap α :=
  let h := h.markFrom kind start
  let promoted := h.maturing
  ({ kind, marked := h.marked, freed := (h.dying kind).length, promoted := promoted.length },
    promoted, h.sweep kind)

/-- Remembers those of the given objects that are old and hold a young one. -/
def rememberHolders (h : Heap α) (owners : List Ref) : Heap α :=
  owners.foldl rememberHolder h

/-- Frees the young objects that cannot be reached. Remembered objects stay remembered while they
hold young ones; objects that just became old may join them. -/
def minorCollect (h : Heap α) (roots : RootSet) : CollectionReport × Heap α :=
  let owners := h.remembered.refs.toList
  let start := roots.toList ++ owners.flatMap h.children
  let (report, promoted, h) := h.forgetAll.markAndSweep .minor start
  (report, (h.rememberHolders (owners ++ promoted)).tallied report)

/-- Frees all objects that cannot be reached, and finds the remembered objects anew. -/
def majorCollect (h : Heap α) (roots : RootSet) : CollectionReport × Heap α :=
  let (report, _, h) := h.forgetAll.markAndSweep .major roots.toList
  (report, (h.rememberHolders h.liveRefs).tallied report)

end Heap

end Managed
