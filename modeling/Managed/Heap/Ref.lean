/-!
# Handles

A handle names one object for as long as that object lives. It holds the index of a slot and the
serial the slot had when the object was placed there. A slot's serial goes up when its object is
freed, so a handle to a freed object stops resolving instead of naming the next occupant.
-/

namespace Managed

structure Ref where
  index : Nat
  serial : UInt32
deriving DecidableEq, Repr, Inhabited

/-- The written form of a handle, `#index.serial`. -/
def Ref.text (r : Ref) : String :=
  "#" ++ toString r.index ++ "." ++ toString r.serial.toNat

/-- Values that hold handles. `refs` lists every handle held, in the order it is held. -/
class Traced (α : Type) where
  refs : α → List Ref

end Managed
