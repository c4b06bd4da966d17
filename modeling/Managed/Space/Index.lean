import Managed.SlotArray.Subscript
import Managed.Space.Basic
import Managed.WholeNumber

/-!
# Indexes of managed arrays

An index is given as numbers or as objects. Objects stand for the whole numbers that their string
values are; a single array stands for the list of its slots.
-/

namespace Managed

inductive ArrayIndex where
  | numbers (subscripts : List Subscript)
  | objects (arguments : List (Option Ref))
deriving DecidableEq, Repr

namespace ArrayIndex

/-- The greatest subscript. -/
def maxSubscript : Nat := Nat.pow 2 63 - 1

/-- The index with the given subscripts; those that are too large become the greatest one. -/
def ofPositions (positions : List Nat) : ArrayIndex :=
  .numbers (positions.map fun p => some (min p maxSubscript : Nat))

def ofPosition (position : Nat) : ArrayIndex :=
  ofPositions [position]

end ArrayIndex

namespace Space

/-- The subscript that an argument stands for. -/
def subscriptValue (s : Space) (position : Nat) : Option Ref → Except Fault Subscript
  | none => .ok none
  | some r => do
    let text ← s.stringValue r
    match WholeNumber.parse? text with
    | some n => return some n
    | none => throw (.invalidSubscript position text)

/-- The arguments that stand for the subscripts. -/
def indexArguments (s : Space) : List (Option Ref) → Except Fault (List (Option Ref))
  | [some r] => do
    match ← s.get r with
    | .array a => return a.slots.toList
    | _ => return [some r]
  | arguments => .ok arguments

def resolveIndex (s : Space) : ArrayIndex → Except Fault (List Subscript)
  | .numbers subscripts => .ok subscripts
  | .objects arguments => do
    let arguments ← s.indexArguments arguments
    (arguments.zipIdx 1).mapM fun (argument, position) => s.subscriptValue position argument

end Space

end Managed
