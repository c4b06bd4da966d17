import Managed.Sorting.Merge

/-!
# Sorts over plain arrays

Here the sorts run over plain arrays, with positions that nothing holds within them. Merge sort has a
buffer as long as the run, which the sorts of both halves share. Each step that reads, writes or cuts an
array checks its positions first, and each loop is given a number of rounds. A position outside and a
round too many are faults of their own (`Halt`).

These are the sorts as an array without bounds in its type would have them. That neither fault comes
about is proved where they are compared with the sorts over vectors.
-/

namespace Managed.Sorting

variable {ε σ α β γ : Type} {n : Nat}

/-- A run of items, a buffer beside it and the memory of a comparator. -/
structure Bench (σ α : Type) where
  items : Array α
  buffer : Array α
  memory : σ

/-- Why a sort over plain arrays stops. -/
inductive Halt (ε : Type) where
  | refused (fault : ε)
  /-- A position is outside the run or the buffer. -/
  | outside
  /-- A loop has made all of its rounds. -/
  | endless

abbrev PlainM (ε σ α : Type) : Type → Type :=
  EStateM (Halt ε) (Bench σ α)

namespace Plain

/-! ## Steps -/

def consult (compare : Comparator ε σ α) (a b : α) : PlainM ε σ α Ordering := fun t =>
  match compare a b t.memory with
  | .ok o memory => .ok o { t with memory }
  | .error e memory => .error (.refused e) { t with memory }

/-- The number of items. -/
def count : PlainM ε σ α Nat := fun t =>
  .ok t.items.size t

/-- The length of the buffer. -/
def room : PlainM ε σ α Nat := fun t =>
  .ok t.buffer.size t

def fetch (i : Nat) : PlainM ε σ α α := fun t =>
  match t.items[i]? with
  | some a => .ok a t
  | none => .error .outside t

def trade (i j : Nat) : PlainM ε σ α Unit := fun t =>
  if h : i < t.items.size ∧ j < t.items.size then
    .ok () { t with items := t.items.swap i j h.1 h.2 }
  else .error .outside t

/-- Writes to the buffer. -/
def jot (k : Nat) (a : α) : PlainM ε σ α Unit := fun t =>
  if k < t.buffer.size then .ok () { t with buffer := t.buffer.setIfInBounds k a }
  else .error .outside t

/-- Puts the buffer in place of the items. -/
def copyBack : PlainM ε σ α Unit := fun t =>
  if t.items.size = t.buffer.size then .ok () { t with items := t.buffer } else .error .outside t

/-- The position before another one. -/
def before : Nat → PlainM ε σ α Nat
  | 0 => throw .outside
  | j + 1 => return j

/-- The array with another part from `start` to `stop`. -/
def paste (whole : Array α) (start stop : Nat) (inner : Array α) : Array α :=
  whole.extract 0 start ++ inner ++ whole.extract stop

/-- Runs on the items from `start` to `stop`. -/
def part (start stop : Nat) (act : PlainM ε σ α β) : PlainM ε σ α β := fun t =>
  if start ≤ stop ∧ stop ≤ t.items.size then
    match act { t with items := t.items.extract start stop } with
    | .ok b u => .ok b { u with items := paste t.items start stop u.items }
    | .error e u => .error e { u with items := paste t.items start stop u.items }
  else .error .outside t

/-- Runs on a part of the items and the same part of the buffer. -/
def partOfBoth (start : Nat) (stop : Array α → Nat) (act : PlainM ε σ α β) : PlainM ε σ α β :=
  fun t =>
    if start ≤ stop t.items ∧ stop t.items ≤ t.items.size ∧ start ≤ stop t.buffer ∧
        stop t.buffer ≤ t.buffer.size then
      match act { t with
        items := t.items.extract start (stop t.items)
        buffer := t.buffer.extract start (stop t.buffer) } with
      | .ok b u =>
        .ok b { u with
          items := paste t.items start (stop t.items) u.items
          buffer := paste t.buffer start (stop t.buffer) u.buffer }
      | .error e u =>
        .error e { u with
          items := paste t.items start (stop t.items) u.items
          buffer := paste t.buffer start (stop t.buffer) u.buffer }
    else .error .outside t

/-! ## Merge sort -/

def sink (compare : Comparator ε σ α) : Nat → PlainM ε σ α Unit
  | 0 => return
  | j + 1 => do
    let a ← fetch j
    let b ← fetch (j + 1)
    let verdict ← consult compare a b
    if verdict = .gt then
      trade j (j + 1)
      sink compare j

def insertionSort (compare : Comparator ε σ α) : PlainM ε σ α Unit := do
  let len ← count
  (List.range' 1 (len - 1)).forM (sink compare)

/-- Whether the next item comes from the right half. -/
def takesRight (compare : Comparator ε σ α) (mid len i j : Nat) : PlainM ε σ α Bool :=
  if i = mid then return true
  else if j = len then return false
  else do
    let b ← fetch j
    let a ← fetch i
    let verdict ← consult compare b a
    return verdict = .lt

/-- Fills places of the buffer from both halves. -/
def mergeInto (compare : Comparator ε σ α) (mid len : Nat) : List Nat → Nat → Nat → PlainM ε σ α Unit
  | [], _, _ => return
  | k :: places, i, j => do
    if ← takesRight compare mid len i j then
      jot k (← fetch j)
      mergeInto compare mid len places i (j + 1)
    else
      jot k (← fetch i)
      mergeInto compare mid len places (i + 1) j

def mergeSort (compare : Comparator ε σ α) : Nat → PlainM ε σ α Unit
  | 0 => throw .endless
  | rounds + 1 => do
    let len ← count
    if len ≤ insertionCutoff then insertionSort compare
    else
      let mid := len / 2
      partOfBoth 0 (fun _ => mid) (mergeSort compare rounds)
      partOfBoth mid Array.size (mergeSort compare rounds)
      let a ← fetch (← before mid)
      let b ← fetch mid
      let verdict ← consult compare a b
      if verdict = .gt then
        mergeInto compare mid len (List.range (← room)) 0 mid
        copyBack

/-! ## Quicksort -/

def scanUp (compare : Comparator ε σ α) (pivot : α) (last : Nat) : Nat → Nat → PlainM ε σ α Nat
  | 0, _ => throw .endless
  | rounds + 1, i => do
    let a ← fetch (i + 1)
    let verdict ← consult compare a pivot
    if verdict ≠ .lt ∨ i + 1 = last then return i + 1
    else scanUp compare pivot last rounds (i + 1)

def scanDown (compare : Comparator ε σ α) (pivot : α) : Nat → Nat → PlainM ε σ α Nat
  | 0, _ => throw .endless
  | rounds + 1, j => do
    let j ← before j
    let a ← fetch j
    let verdict ← consult compare pivot a
    if verdict ≠ .lt ∨ j = 0 then return j
    else scanDown compare pivot rounds j

/-- Both scans, until they meet. -/
def meet (compare : Comparator ε σ α) (pivot : α) (last : Nat) : Nat → Nat → Nat → PlainM ε σ α Nat
  | 0, _, _ => throw .endless
  | rounds + 1, i, j => do
    let i ← scanUp compare pivot last (last + 1) i
    let j ← scanDown compare pivot (last + 1) j
    if j ≤ i then
      trade 0 j
      return j
    else
      trade i j
      meet compare pivot last rounds i j

def partition (compare : Comparator ε σ α) : PlainM ε σ α Nat := do
  let last ← before (← count)
  let pivot ← fetch 0
  meet compare pivot last (last + 1) 0 (last + 1)

def quickSort (compare : Comparator ε σ α) : Nat → PlainM ε σ α Unit
  | 0 => throw .endless
  | rounds + 1 => do
    let len ← count
    if 1 < len then
      let k ← partition compare
      if k < len - (k + 1) then
        part 0 k (quickSort compare rounds)
        part (k + 1) len (quickSort compare rounds)
      else
        part (k + 1) len (quickSort compare rounds)
        part 0 k (quickSort compare rounds)

end Plain

end Managed.Sorting
