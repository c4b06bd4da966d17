import Managed.SlotArray.Growth

/-!
# Subscripts

A list of subscripts names a position of an array, or a place beyond it. What happens in the second
case depends on the access: a store makes the array grow, and other accesses either fail or find
nothing.
-/

namespace Managed

/-- A subscript as given: a whole number, or nothing if it was left out. -/
abbrev Subscript : Type := Option Int

/-- How subscripts outside an array are treated. -/
structure IndexAccess where
  /-- The array grows to hold them. -/
  extend : Bool := false
  /-- A subscript that exceeds its dimension is an error. -/
  raiseOutOfRange : Bool := false
  /-- Too many subscripts are an error. -/
  raiseTooMany : Bool := false
deriving DecidableEq, Repr

namespace IndexAccess

def lookup : IndexAccess := {}

def read : IndexAccess := { raiseTooMany := true }

def write : IndexAccess := { extend := true, raiseTooMany := true }

end IndexAccess

/-- What a list of subscripts names. -/
inductive Location where
  | position (p : Nat)
  /-- A position beyond the end of an array of one dimension. -/
  | beyond (p : Nat)
  /-- Subscripts that the dimensions do not hold yet. -/
  | outside (subscripts : List Nat)
  | nowhere
deriving DecidableEq, Repr

namespace SlotArray

variable {α : Type}

/-- Checks subscripts from the left, the first of them being the `i`-th argument. -/
def wholeFrom (i : Nat) : List Subscript → Except Fault (List Nat)
  | [] => .ok []
  | none :: _ => .error (.missingArgument i)
  | some value :: rest => do
    if value ≤ 0 then throw (.invalidSubscript i (toString value))
    return value.toNat :: (← wholeFrom (i + 1) rest)

/-- The subscripts as positive numbers. There has to be at least one. -/
def wholeSubscripts (subscripts : List Subscript) : Except Fault (List Nat) :=
  if subscripts.isEmpty then .error (.missingArgument 1) else wholeFrom 1 subscripts

/-- Where a single subscript leads in an array of one dimension. -/
def locateLinear (a : SlotArray α) (position : Nat) (access : IndexAccess) :
    Except Fault Location :=
  if position ≤ a.size then .ok (.position position)
  else if access.extend then .ok (.beyond position)
  else if access.raiseOutOfRange then .error (.subscriptOutOfRange 1 position a.size)
  else .ok .nowhere

/-- Where more subscripts lead than there are dimensions. -/
def locateSurplus (subscripts : List Nat) (rank : Nat) (access : IndexAccess) :
    Except Fault Location :=
  if access.extend then .ok (.outside subscripts)
  else if access.raiseTooMany then .error (.tooManySubscripts rank)
  else .ok .nowhere

/-- Where as many subscripts lead as there are dimensions. -/
def locateShaped (shape : Shape) (subscripts : List Nat) (access : IndexAccess) :
    Except Fault Location :=
  match shape.firstBeyond? subscripts with
  | none => .ok (.position (Word.add (shape.offset subscripts) 1))
  | some i =>
    if access.extend then .ok (.outside subscripts)
    else if access.raiseOutOfRange then
      .error (.subscriptOutOfRange (i + 1) (subscripts.getD i 0) (shape.sizes.getD i 0))
    else .ok .nowhere

def locate (a : SlotArray α) (subscripts : List Subscript) (access : IndexAccess) :
    Except Fault Location := do
  let whole ← wholeSubscripts subscripts
  match a.shape, whole with
  | none, [position] => a.locateLinear position access
  | none, _ => locateSurplus whole 1 access
  | some shape, _ =>
    if shape.rank < whole.length then locateSurplus whole shape.rank access
    else if whole.length < shape.rank then throw (.tooFewSubscripts shape.rank)
    else locateShaped shape whole access

/-- The position that subscripts name, if they name one. -/
def positionOf (a : SlotArray α) (subscripts : List Subscript) (access : IndexAccess) :
    Except Fault (Option Nat) := do
  match ← a.locate subscripts access with
  | .position p => return some p
  | _ => return none

end SlotArray

/-- The position that subscripts name. The array first grows to hold it if the access asks for
that. -/
def ArrayM.validateIndex {α : Type} (subscripts : List Subscript) (access : IndexAccess)
    (limits : ArrayLimits) : ArrayM α (Option Nat) := do
  match ← ask (·.locate subscripts access) with
  | .position p => return some p
  | .beyond p =>
    extend (p - (← get).size) limits
    return some p
  | .outside whole =>
    cover whole limits
    ask (·.positionOf subscripts access)
  | .nowhere => return none

/-- Puts an item where subscripts lead; the array grows to hold it. -/
def ArrayM.store {α : Type} (subscripts : List Subscript) (value : α) (limits : ArrayLimits) :
    ArrayM α Unit := do
  match ← validateIndex subscripts .write limits with
  | some p => modify (·.put p (some value))
  | none => throw (.tooManySubscripts (← get).dimensionCount)

/-- Clears the slot that subscripts lead to and gives the item it held. -/
def ArrayM.remove {α : Type} (subscripts : List Subscript) : ArrayM α (Option α) := do
  match ← ask (·.positionOf subscripts .read) with
  | some p => clear p
  | none => return none

def SlotArray.validateIndex {α : Type} (a : SlotArray α) (subscripts : List Subscript)
    (access : IndexAccess) (limits : ArrayLimits) : Except Fault (Option Nat × SlotArray α) :=
  (ArrayM.validateIndex subscripts access limits).outcome a

end Managed
