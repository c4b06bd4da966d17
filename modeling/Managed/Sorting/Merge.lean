import Managed.Sorting.Basic

/-!
# Merge sort

Short runs are sorted by insertion. A longer run is sorted by halves, which are merged unless they
already stand in order. On equal items the left one goes first, so equal items keep their order.
-/

namespace Managed.Sorting

variable {ε σ α : Type} {n : Nat}

/-- Moves the item at `j` down past every item greater than it. -/
def sink (compare : Comparator ε σ α) (j : Nat) (hj : j < n) : SortM ε σ α n Unit :=
  match j with
  | 0 => pure ()
  | j + 1 => do
    let v ← items
    let verdict ← lift (compare v[j] v[j + 1])
    if verdict = .gt then
      exchange j (j + 1) (by omega) hj
      sink compare j (by omega)

/-- Inserts the items from `i` on, one after the other, among those before them. -/
def insertFrom (compare : Comparator ε σ α) (i : Nat) : SortM ε σ α n Unit :=
  if hi : i < n then do
    sink compare i hi
    insertFrom compare (i + 1)
  else
    pure ()
termination_by n - i

def insertionSort (compare : Comparator ε σ α) : SortM ε σ α n Unit :=
  insertFrom compare 1

/-- Merges two lists. An item of the right list goes first only if it is less. -/
def merge (compare : Comparator ε σ α) :
    (l r : List α) → EStateM ε σ { m : List α // m.length = l.length + r.length }
  | [], r => return ⟨r, (Nat.zero_add _).symm⟩
  | a :: l, [] => return ⟨a :: l, rfl⟩
  | a :: l, b :: r => do
    let verdict ← compare b a
    if verdict = .lt then
      let ⟨m, hm⟩ ← merge compare (a :: l) r
      return ⟨b :: m, by simp only [List.length_cons] at hm ⊢; omega⟩
    else
      let ⟨m, hm⟩ ← merge compare l (b :: r)
      return ⟨a :: m, by simp only [List.length_cons] at hm ⊢; omega⟩
termination_by l r => l.length + r.length

/-- Merges the `mid` items in front with the others. -/
def mergeHalves (compare : Comparator ε σ α) (mid : Nat) : SortM ε σ α n Unit := do
  let v ← items
  let ⟨m, hm⟩ ← lift (merge compare (v.toList.take mid) (v.toList.drop mid))
  replace ⟨m.toArray, by
    simp only [List.length_take, List.length_drop, Vector.length_toList] at hm
    simp only [List.size_toArray]
    omega⟩

/-- The longest run that is sorted by insertion. -/
def insertionCutoff : Nat := 7

def mergeSort (compare : Comparator ε σ α) (n : Nat) : SortM ε σ α n Unit :=
  if hn : n ≤ insertionCutoff then
    insertionSort compare
  else do
    have hn : 7 < n := Nat.lt_of_not_le hn
    within 0 (n / 2) (by omega) (mergeSort compare (n / 2))
    within (n / 2) (n - n / 2) (by omega) (mergeSort compare (n - n / 2))
    let v ← items
    let verdict ← lift (compare v[n / 2 - 1] v[n / 2])
    if verdict = .gt then
      mergeHalves compare (n / 2)
termination_by n
decreasing_by all_goals omega

end Managed.Sorting
