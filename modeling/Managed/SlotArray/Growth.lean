import Managed.SlotArray.Work

/-!
# Growing and shrinking

Storage never shrinks. It grows when an array no longer fits in it, and then by more than is needed,
up to the limit on elements.

The operations are work in place. Under the same name `SlotArray` has their outcomes.
-/

namespace Managed

namespace SlotArray

variable {α : Type}

/-- Moves the slots to a new block of the given capacity. Blocks of every size are taken to be there
for the asking. -/
def reallocate (a : SlotArray α) (capacity : Nat) : SlotArray α :=
  { a with storage := a.slots ++ Array.replicate (capacity - a.size) none }

def requireLinear (a : SlotArray α) (operation : LinearOperation) : Except Fault Unit :=
  if a.shape.isSome then .error (.multiDimensional operation) else .ok ()

/-- The dimensions from which an array grows: an array of one dimension has its size, if that is not
zero. -/
def growingSizes (a : SlotArray α) : List Nat :=
  match a.shape with
  | some s => s.sizes
  | none => if a.size = 0 then [] else [a.size]

/-- Moves the slots to a block of the shape `t`, so that each keeps its subscripts in `s`. -/
def moveTo (a : SlotArray α) (s t : Shape) (total : Nat) : SlotArray α :=
  let block := Array.replicate total none
  let block :=
    if a.size = 0 then block
    else (Shape.runs a.size s t).foldl (fun block run => run.copy a.slots block) block
  recount
    { a with
      storage := block
      size := total
      shape := if 1 < t.rank then some t else none }

end SlotArray

namespace ArrayM

open SlotArray

variable {α : Type}

/-- Makes room for `size` slots without changing the logical size. -/
def ensureSpace (size : Nat) (limits : ArrayLimits) : ArrayM α Unit := do
  if size ≤ (← get).capacity then return
  ask fun _ => limits.check size
  modify (·.reallocate (limits.grownCapacity size))

/-- Adds holes at the end. -/
def extend (extension : Nat) (limits : ArrayLimits) : ArrayM α Unit := do
  ask (·.requireLinear .extend)
  let size := Word.addSat (← get).size extension
  ask fun _ => limits.check size
  modify fun a => if size ≤ a.capacity then a else a.reallocate (limits.grownCapacity size)
  modify ({ · with size })

/-- Drops slots at the end, after they have been cleared one by one. -/
def shrink (amount : Nat) : ArrayM α Unit := do
  ask (·.requireLinear .shrink)
  let a ← get
  let size := a.size - amount
  (List.range' (size + 1) (a.size - size)).forM fun position => do
    let _ ← clear position
  modify ({ · with size })

/-- Grows the dimensions until they hold the given subscripts. Surplus subscripts add dimensions in
front, in which all old slots have the subscript 1. -/
def cover (subscripts : List Nat) (limits : ArrayLimits) : ArrayM α Unit := do
  let old := (← get).growingSizes
  if subscripts.length < old.length then throw (.tooFewSubscripts old.length)
  else
    let added := subscripts.length - old.length
    let padded := List.replicate added 1 ++ old
    let sizes := List.zipWith Nat.max padded subscripts
    if sizes = padded ∧ added = 0 then return
    let shape : Shape := ⟨sizes⟩
    let total := shape.count?.getD Word.max
    ask fun _ => limits.check total
    modify (·.moveTo ⟨padded⟩ shape total)

end ArrayM

namespace SlotArray

def ensureSpace (a : SlotArray α) (size : Nat) (limits : ArrayLimits) :
    Except Fault (SlotArray α) :=
  Prod.snd <$> (ArrayM.ensureSpace size limits).outcome a

def extend (a : SlotArray α) (extension : Nat) (limits : ArrayLimits) :
    Except Fault (SlotArray α) :=
  Prod.snd <$> (ArrayM.extend extension limits).outcome a

def shrink (a : SlotArray α) (amount : Nat) : Except Fault (SlotArray α) :=
  Prod.snd <$> (ArrayM.shrink amount).outcome a

def cover (a : SlotArray α) (subscripts : List Nat) (limits : ArrayLimits) :
    Except Fault (SlotArray α) :=
  Prod.snd <$> (ArrayM.cover subscripts limits).outcome a

end SlotArray

end Managed
