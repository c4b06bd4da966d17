import Managed.SlotArray.Growth

/-!
# Arrays as sequences

Operations that treat an array of one dimension as a list of slots.
-/

namespace Managed

/-- Where a new slot goes. -/
inductive InsertAt where
  | first
  | after (position : Nat)
  /-- Right after the last item. -/
  | last
deriving DecidableEq, Repr

namespace SlotArray

variable {α : Type}

/-- Refuses positions outside the array. -/
def checkPosition (a : SlotArray α) (position : Nat) : Except Fault Unit :=
  if position = 0 then .error (.invalidSubscript 1 (toString position))
  else if a.size < position then .error (.subscriptOutOfRange 1 position a.size)
  else .ok ()

/-- The position a new slot gets. -/
def insertPosition (a : SlotArray α) : InsertAt → Except Fault Nat
  | .first => .ok 1
  | .last => .ok (a.last + 1)
  | .after p => do
    a.checkPosition p
    return p + 1

/-- Moves the slots from a position to `size` up by one, which leaves a hole. -/
def shiftUp (a : SlotArray α) (position size : Nat) : SlotArray α :=
  let storage := a.storage.extract 0 (position - 1) ++ #[none] ++
    a.storage.extract (position - 1) size ++ a.storage.extract (size + 1)
  { a with storage, last := if position ≤ a.last then a.last + 1 else a.last }

/-- Moves the slots after a position down by one, over the slot at that position. -/
def shiftDown (a : SlotArray α) (position : Nat) : SlotArray α :=
  let storage := a.storage.extract 0 (position - 1) ++ a.storage.extract position a.size ++
    #[none] ++ a.storage.extract a.size
  { a with storage, size := a.size - 1, last := if position < a.last then a.last - 1 else a.last }

end SlotArray

namespace ArrayM

variable {α : Type}

/-- Adds holes at the end until there is a slot at a position. -/
def growTo (position : Nat) (limits : ArrayLimits) : ArrayM α Unit := do
  let size := (← get).size
  if size < position then extend (position - size) limits

/-- Puts an item right after the last one and answers its position. -/
def append (value : α) (limits : ArrayLimits) : ArrayM α Nat := do
  ask (·.requireLinear .append)
  let position := (← get).last + 1
  growTo position limits
  modify (·.put position (some value))
  return position

/-- Makes space for items at once and appends them one by one. -/
def appendAll (items : List α) (limits : ArrayLimits) : ArrayM α Unit := do
  ensureSpace (Word.addSat (← get).last items.length) limits
  items.forM fun item => do
    let _ ← append item limits

/-- Makes a hole at a position; the slots from there on move up by one. -/
def openGap (position : Nat) (limits : ArrayLimits) : ArrayM α Unit := do
  let size := (← get).size
  extend (Nat.max 1 (position - size)) limits
  if position ≤ size then modify (·.shiftUp position size)

/-- Inserts a slot and answers its position. -/
def insert (value : Option α) (target : InsertAt) (limits : ArrayLimits) : ArrayM α Nat := do
  ask (·.requireLinear .insert)
  let position ← ask (·.insertPosition target)
  openGap position limits
  modify (·.put position value)
  return position

/-- Removes the slot at a position; the slots after it move down by one. -/
def delete (position : Nat) : ArrayM α (Option α) := do
  ask (·.requireLinear .delete)
  ask (·.checkPosition position)
  let removed ← clear position
  modify (·.shiftDown position)
  return removed

end ArrayM

namespace SlotArray

variable {α : Type}

def growTo (a : SlotArray α) (position : Nat) (limits : ArrayLimits) : Except Fault (SlotArray α) :=
  Prod.snd <$> (ArrayM.growTo position limits).outcome a

def append (a : SlotArray α) (value : α) (limits : ArrayLimits) : Except Fault (Nat × SlotArray α) :=
  (ArrayM.append value limits).outcome a

def openGap (a : SlotArray α) (position : Nat) (limits : ArrayLimits) : Except Fault (SlotArray α) :=
  Prod.snd <$> (ArrayM.openGap position limits).outcome a

def insert (a : SlotArray α) (value : Option α) (target : InsertAt) (limits : ArrayLimits) :
    Except Fault (Nat × SlotArray α) :=
  (ArrayM.insert value target limits).outcome a

def delete (a : SlotArray α) (position : Nat) : Except Fault (Option α × SlotArray α) :=
  (ArrayM.delete position).outcome a

/-- The slots from `start` on, at most `count` of them if a count is given. -/
def sliceFrom (a : SlotArray α) (start : Nat) (count : Option Nat) (limits : ArrayLimits) :
    Except Fault (SlotArray α) := do
  a.requireLinear .slice
  if start = 0 then throw (.invalidSubscript 1 (toString start))
  if a.size < start then return {}
  let available := a.size - start + 1
  let count := (count.map (Nat.min · available)).getD available
  ofSlots (a.storage.extract (start - 1) (start - 1 + count)) limits

/-- The slots of two arrays, one after the other. -/
def join (a b : SlotArray α) (limits : ArrayLimits) : Except Fault (SlotArray α) := do
  limits.check (Word.addSat a.size b.size)
  ofSlots (a.slots ++ b.slots) limits

end SlotArray

end Managed
