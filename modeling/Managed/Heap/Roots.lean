import Managed.Heap.Ref

/-!
# Root sets

The handles from which a collection starts: those on the stack and the global ones. A global root
may be added several times and then has to be removed as often.
-/

namespace Managed

structure RootSet where
  stack : Array Ref := #[]
  globals : Array Ref := #[]
deriving Repr, Inhabited

namespace RootSet

def pushStack (roots : RootSet) (r : Ref) : RootSet :=
  { roots with stack := roots.stack.push r }

def clearStack (roots : RootSet) : RootSet :=
  { roots with stack := #[] }

def addGlobal (roots : RootSet) (r : Ref) : RootSet :=
  { roots with globals := roots.globals.push r }

/-- Removes the first global root equal to `r`; the last global root takes its place. Gives `none`
if there is no such root. -/
def removeGlobal? (roots : RootSet) (r : Ref) : Option RootSet :=
  (roots.globals.idxOf? r).map fun i =>
    { roots with globals := (roots.globals.swapIfInBounds i (roots.globals.size - 1)).pop }

/-- All roots, those of the stack first. -/
def toList (roots : RootSet) : List Ref :=
  roots.stack.toList ++ roots.globals.toList

end RootSet

end Managed
