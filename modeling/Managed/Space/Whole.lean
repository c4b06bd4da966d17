import Managed.Space.Items

/-!
# Managed arrays as a whole

Operations on all items of an array: listing, copying, joining and rendering them.
-/

namespace Managed

/-- What stands between items when an array is rendered. -/
inductive JoinPolicy where
  | line
  | char
deriving DecidableEq, Repr

namespace JoinPolicy

/-- The policy that an option names by its first letter. -/
def parse (option : String) : Except Fault JoinPolicy :=
  match option.toList.head?.map Char.toUpper with
  | some 'L' => .ok line
  | some 'C' => .ok char
  | _ => .error (.invalidOption option)

def separator : JoinPolicy → String
  | line => "\n"
  | char => ""

end JoinPolicy

namespace Space

/-- The object that stands for a list of subscripts: a string for one of them, an array of strings
for more. -/
def indexObject : List Nat → SpaceM Ref
  | [position] => newString (toString position)
  | subscripts => arrayOfStrings (subscripts.map toString)

/-- New index objects for all items of an array. -/
def indexObjects (array : Ref) : SpaceM (List Ref) := do
  let a ← ask (·.array array)
  (a.allIndexes.map a.subscriptsOf).mapM indexObject

def allItems (array : Ref) : SpaceM Ref := do
  arrayOfItems (← ask (·.array array)).allItems

def allIndexes (array : Ref) : SpaceM Ref := do
  arrayOfItems (← indexObjects array)

/-- A supplier of all items of an array with their indexes. -/
def arraySupplier (array : Ref) : SpaceM Ref := do
  let items := (← ask (·.array array)).allItems
  let indexes ← indexObjects array
  alloc (.supplier (.ofLists items indexes))

def fill (array value : Ref) : SpaceM Unit := do
  changeArray array fun _ => modify (·.fill value)
  barrier array value

def clearAll (array : Ref) : SpaceM Unit :=
  changeArray array fun _ => modify (·.clearAll)

def copy (array : Ref) : SpaceM Ref := do
  alloc (.array (← ask (·.array array)))

def join (a b : Ref) : SpaceM Ref := do
  alloc (.array (← ask fun s => do (← s.array a).join (← s.array b) s.limits))

def slice (array : Ref) (start : Nat) (count : Option Nat) : SpaceM Ref := do
  alloc (.array (← ask fun s => do (← s.array array).sliceFrom start count s.limits))

/-- The string values of all items with a separator between them. -/
def render (s : Space) (array : Ref) (policy separator : Option String) : Except Fault String := do
  let policy ← match policy with
    | some option => JoinPolicy.parse option
    | none => pure .line
  let texts ← (← s.array array).allItems.mapM s.stringValue
  return String.intercalate (separator.getD policy.separator) texts

end Space

end Managed
