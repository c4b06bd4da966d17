import Managed.Sorting.Basic

/-!
# Quicksort

The first item is the pivot. Two scans run towards each other, exchange what stands on the wrong
side and meet where the pivot belongs. The shorter side is sorted first.
-/

namespace Managed.Sorting

variable {ε σ α : Type} {n : Nat}

/-- The first position from `i` on whose item is not less than the pivot, or the last position. -/
def scanUp (compare : Comparator ε σ α) (pivot : α) (v : Vector α n) (i : Nat) (hi : i < n) :
    EStateM ε σ { k : Nat // i ≤ k ∧ k < n } := do
  let verdict ← compare v[i] pivot
  if h : verdict = .lt ∧ i + 1 < n then
    let ⟨k, hk⟩ ← scanUp compare pivot v (i + 1) h.2
    return ⟨k, by omega⟩
  else
    return ⟨i, by omega⟩
termination_by n - i

/-- The last position up to `j` whose item the pivot is not less than, or the first position. -/
def scanDown (compare : Comparator ε σ α) (pivot : α) (v : Vector α n) (j : Nat) (hj : j < n) :
    EStateM ε σ { k : Nat // k ≤ j } := do
  let verdict ← compare pivot v[j]
  if h : verdict = .lt ∧ 0 < j then
    let ⟨k, hk⟩ ← scanDown compare pivot v (j - 1) (by omega)
    return ⟨k, by omega⟩
  else
    return ⟨j, by omega⟩
termination_by j

/-- Arranges what lies strictly between `i` and `j` around the pivot, puts the pivot in its place
and answers that place. -/
def partitionBetween (compare : Comparator ε σ α) (pivot : α) (i j : Nat)
    (hij : i < j) (hj : j ≤ n) (hi : i + 1 < n) : SortM ε σ α n { k : Nat // k < n } := do
  let v ← items
  let ⟨up, hup⟩ ← lift (scanUp compare pivot v (i + 1) hi)
  let ⟨down, hdown⟩ ← lift (scanDown compare pivot v (j - 1) (by omega))
  if h : up < down then
    exchange up down (by omega) (by omega)
    partitionBetween compare pivot up down h (by omega) (by omega)
  else
    exchange 0 down (by omega) (by omega)
    return ⟨down, by omega⟩
termination_by j - i

/-- Arranges all items around the first one and answers the place that one got. -/
def partition (compare : Comparator ε σ α) (hn : 1 < n) : SortM ε σ α n { k : Nat // k < n } := do
  let v ← items
  partitionBetween compare v[0] 0 n (by omega) (by omega) (by omega)

def quickSort (compare : Comparator ε σ α) (n : Nat) : SortM ε σ α n Unit :=
  if hn : 1 < n then do
    let ⟨k, hk⟩ ← partition compare hn
    if k < n - 1 - k then
      within 0 k (by omega) (quickSort compare k)
      within (k + 1) (n - 1 - k) (by omega) (quickSort compare (n - 1 - k))
    else
      within (k + 1) (n - 1 - k) (by omega) (quickSort compare (n - 1 - k))
      within 0 k (by omega) (quickSort compare k)
  else
    pure ()
termination_by n

end Managed.Sorting
