import Managed.SlotArray.Detached
import Managed.Space.Basic
import Managed.WholeNumber

/-!
# Sorting managed arrays

The items of an array are sorted by the natural order of strings, or by a comparator that answers
with an object whose string value is a whole number: negative, zero or positive. While an array is
sorted it looks empty to the comparator.
-/

namespace Managed

/-- Compares two objects of a space. The answer may depend on, and change, a memory; it may be
missing. It is an assumption of all that follows that a comparator only reads the space: what it does to
the memory is the only trace it leaves. -/
abbrev ObjectComparator (σ : Type) : Type :=
  Space → Ref → Ref → σ → Option Object × σ

namespace Space

variable {σ : Type}

/-- The verdict that a comparator's answer stands for. -/
def verdict : Option Object → Except Fault Ordering
  | none => .error .comparatorSilent
  | some o =>
    match WholeNumber.parse? o.stringValue with
    | some n => .ok (compare n 0)
    | none => .error (.comparatorNotNumeric o.stringValue)

/-- Sorts the items of an array, with equal ones in their order if `stable`. -/
def sortBy (array : Ref) (stable : Bool) (compare : Space → Sorting.Comparator Fault σ Ref) :
    EStateM Fault (Space × σ) Unit := fun (s, memory) =>
  match s.array array >>= SlotArray.detach with
  | .error e => .error e (s, memory)
  | .ok (detached, emptied) =>
    let s := s.setObject array (.array emptied)
    match Detached.sort stable (compare s) (detached, memory) with
    | .ok u (d, memory) => .ok u (s.setObject array (.array (emptied.attach d)), memory)
    | .error e (d, memory) => .error e (s.setObject array (.array (emptied.attach d)), memory)

/-- Sorts by the natural order of strings. -/
def sort (array : Ref) (stable : Bool) : SpaceM Unit := fun s =>
  let natural (s : Space) : Sorting.Comparator Fault Unit Ref := fun a b memory =>
    match s.compareNatural a b with
    | .ok o => .ok o memory
    | .error e => .error e memory
  match sortBy array stable natural (s, ()) with
  | .ok u (s, _) => .ok u s
  | .error e (s, _) => .error e s

/-- Sorts by the answers of a comparator. -/
def sortWith (array : Ref) (stable : Bool) (comparator : ObjectComparator σ) :
    EStateM Fault (Space × σ) Unit :=
  sortBy array stable fun s a b memory =>
    let (answer, memory) := comparator s a b memory
    match verdict answer with
    | .ok o => .ok o memory
    | .error e => .error e memory

/-- Sorts by the answers of a comparator that needs no memory. -/
def sortByAnswer (array : Ref) (stable : Bool) (answer : Space → Ref → Ref → Option Object) :
    SpaceM Unit := fun s =>
  match sortWith array stable (fun s a b memory => (answer s a b, memory)) (s, ()) with
  | .ok u (s, _) => .ok u s
  | .error e (s, _) => .error e s

end Space

end Managed
