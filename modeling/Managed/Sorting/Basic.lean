/-!
# Sorting with a comparator that may fail

A comparator has a memory and may refuse to answer. A sort therefore runs in a monad whose state is
the run of items together with the comparator's memory, and which keeps that state on failure: when
a comparator refuses, the items stay as they were arranged at that moment.
-/

namespace Managed.Sorting

/-- Compares two items. The answer may depend on, and change, a memory of type `σ`. -/
abbrev Comparator (ε σ α : Type) : Type :=
  α → α → EStateM ε σ Ordering

/-- A computation that rearranges `n` items. -/
abbrev SortM (ε σ α : Type) (n : Nat) : Type → Type :=
  EStateM ε (Vector α n × σ)

variable {ε σ α β : Type} {n : Nat}

/-- Runs a computation that leaves the items alone. -/
def lift (act : EStateM ε σ β) : SortM ε σ α n β := fun (v, s) =>
  match act s with
  | .ok b s => .ok b (v, s)
  | .error e s => .error e (v, s)

/-- The items as they are arranged now. -/
def items : SortM ε σ α n (Vector α n) := fun (v, s) =>
  .ok v (v, s)

def exchange (i j : Nat) (hi : i < n) (hj : j < n) : SortM ε σ α n Unit := fun (v, s) =>
  .ok () (v.swap i j, s)

def replace (w : Vector α n) : SortM ε σ α n Unit := fun (_, s) =>
  .ok () (w, s)

/-- The `len` items from `start` on. -/
def slice (v : Vector α n) (start len : Nat) (h : start + len ≤ n) : Vector α len :=
  (v.extract start (start + len)).cast (by omega)

/-- Puts `len` items back in place, from `start` on. -/
def splice {len : Nat} (v : Vector α n) (start : Nat) (h : start + len ≤ n) (w : Vector α len) :
    Vector α n :=
  ((v.extract 0 start ++ w) ++ v.extract (start + len) n).cast (by omega)

/-- Rearranges only the `len` items from `start` on. -/
def within (start len : Nat) (h : start + len ≤ n) (act : SortM ε σ α len β) : SortM ε σ α n β :=
  fun (v, s) =>
    match act (slice v start len h, s) with
    | .ok b (w, s) => .ok b (splice v start h w, s)
    | .error e (w, s) => .error e (splice v start h w, s)

end Managed.Sorting
