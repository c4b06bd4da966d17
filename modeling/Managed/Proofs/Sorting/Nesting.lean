import Managed.Proofs.Sorting.Calls

/-!
# How deep quicksort nests

Quicksort sorts the shorter side of a partition by a call of itself and goes on with the longer side in
the same call. The shorter side has less than half of the items, so a call that is nested in `k` others
has at most `n / 2 ^ k` of them, however badly the partitions turn out.

`Nested.quickSort` is quicksort with a number of calls that may be nested in one another; it stops if
one more is needed. With one call more than the binary logarithm of `n` it never does, and takes the
course of quicksort, whatever the comparator answers (`quickSort_nests_logarithmically`).
-/

namespace Managed.Sorting

variable {ε σ τ α β : Type} {n : Nat}

/-- Why a sort with a limited number of nested calls stops. -/
inductive Stop (ε : Type) where
  | refused (fault : ε)
  /-- Another call would have to be nested. -/
  | tooDeep
deriving DecidableEq

/-- A result of a sort that has not run out of calls. -/
def refusing : EStateM.Result ε τ β → EStateM.Result (Stop ε) τ β
  | .ok b t => .ok b t
  | .error e t => .error (.refused e) t

namespace Nested

/-- The comparator for a sort that may also stop for another reason. -/
def posed (compare : Comparator ε σ α) : Comparator (Stop ε) σ α :=
  fun a b s => refusing (compare a b s)

/-- One call of quicksort: as long as there is something to sort, the shorter side is left to a nested
call and the longer one is gone on with. -/
def loop (nested : (m : Nat) → SortM ε σ α m Unit) (compare : Comparator ε σ α) (n : Nat) :
    SortM ε σ α n Unit :=
  if hn : 1 < n then do
    let place ← partition compare hn
    let k := place.val
    have hk : k < n := place.property
    if k < n - 1 - k then
      within 0 k (by omega) (nested k)
      within (k + 1) (n - 1 - k) (by omega) (loop nested compare (n - 1 - k))
    else
      within (k + 1) (n - 1 - k) (by omega) (nested (n - 1 - k))
      within 0 k (by omega) (loop nested compare k)
  else
    pure ()
termination_by n

/-- Quicksort with at most `calls` calls that are nested in one another, the outermost one counted. -/
def quickSort (compare : Comparator ε σ α) : (calls n : Nat) → SortM (Stop ε) σ α n Unit
  | 0, _ => throw .tooDeep
  | calls + 1, n => loop (quickSort compare calls) (posed compare) n

/-! ## The same course -/

/-- A comparator corresponds to the one that is posed, and its faults to its refusals. -/
def unstopped (ε σ : Type) : Likeness ε (Stop ε) σ σ where
  state := Eq
  fault e stop := stop = .refused e

theorem comparators_posed (compare : Comparator ε σ α) :
    (unstopped ε σ).Comparators Eq compare (posed compare) := by
  rintro a b _ _ rfl rfl s _ rfl
  unfold posed
  cases compare a b s with
  | ok o s' => exact ⟨rfl, rfl⟩
  | error e s' => exact ⟨rfl, rfl⟩

/-- A call takes the course of quicksort if the calls nested in it do. These sort less than half of the
items. -/
theorem alike_loop (compare : Comparator ε σ α) {nested : (m : Nat) → SortM (Stop ε) σ α m Unit}
    (n : Nat) (hnested : ∀ m, 1 < n → 2 * m < n →
      ((unstopped ε σ).onItems Eq m).Alike (fun _ _ => True) (Sorting.quickSort compare m)
        (nested m)) :
    ((unstopped ε σ).onItems Eq n).Alike (fun _ _ => True) (Sorting.quickSort compare n)
      (loop nested (posed compare) n) := by
  induction n using Nat.strongRecOn with
  | ind n ih =>
    unfold Sorting.quickSort loop
    by_cases hn : 1 < n
    · rw [dif_pos hn, dif_pos hn]
      apply (Likeness.alike_partition (comparators_posed compare) hn).bind
      rintro ⟨k, hk⟩ _ rfl
      -- the side that the loop goes on with needs no more of the nested calls than the whole
      have hlonger : ∀ m < n, ((unstopped ε σ).onItems Eq m).Alike (fun _ _ => True)
          (Sorting.quickSort compare m) (loop nested (posed compare) m) := fun m hm =>
        ih m hm fun l _ hl => hnested l hn (by omega)
      dsimp only
      split
      · exact ((hnested k hn (by omega)).within _).bind fun _ _ _ =>
          (hlonger (n - 1 - k) (by omega)).within _
      · exact ((hnested (n - 1 - k) hn (by omega)).within _).bind fun _ _ _ =>
          (hlonger k hk).within _
    · rw [dif_neg hn, dif_neg hn]
      exact Likeness.alike_pure trivial

theorem log2_lt_of_two_mul_lt {m n : Nat} (hn : 1 < n) (h : 2 * m < n) :
    Nat.log2 m < Nat.log2 n := by
  have hpow : 2 ^ (Nat.log2 m + 1) ≤ n := by
    by_cases hm : m = 0
    · subst hm
      exact hn
    · have hle := Nat.log2_self_le hm
      rw [Nat.pow_succ]
      omega
  exact (Nat.le_log2 (by omega)).mpr hpow

theorem alike_quickSort (compare : Comparator ε σ α) {calls n : Nat} (h : Nat.log2 n < calls) :
    ((unstopped ε σ).onItems Eq n).Alike (fun _ _ => True) (Sorting.quickSort compare n)
      (quickSort compare calls n) := by
  induction calls generalizing n with
  | zero => exact absurd h (Nat.not_lt_zero _)
  | succ calls ih =>
    refine alike_loop compare n fun m hn hm => ih ?_
    have hless := log2_lt_of_two_mul_lt hn hm
    omega

theorem quickSort_eq_refusing (compare : Comparator ε σ α) {calls : Nat} (h : Nat.log2 n < calls)
    (v : Vector α n) (s : σ) :
    quickSort compare calls n (v, s) = refusing (Sorting.quickSort compare n (v, s)) := by
  rcases (alike_quickSort compare h (v, s) (v, s) ⟨fun _ _ => rfl, rfl⟩).cases with
    ⟨_, _, ⟨w, t⟩, ⟨w', t'⟩, hx, hx', _, hw, rfl⟩ | ⟨e, _, ⟨w, t⟩, ⟨w', t'⟩, hx, hx', rfl, hw, rfl⟩
  · obtain rfl : w = w' := Vector.ext hw
    rw [hx, hx']
    rfl
  · obtain rfl : w = w' := Vector.ext hw
    rw [hx, hx']
    rfl

end Nested

/-- Quicksort of `n` items never has more calls nested in one another than the binary logarithm of `n`
and one. With that number it comes to the same result, leaves the same items and makes the same calls
of the comparator as without a limit, whatever the comparator does. -/
theorem quickSort_nests_logarithmically (compare : Comparator ε σ α) (n : Nat) (v : Vector α n)
    (s : σ) :
    Nested.quickSort compare (Nat.log2 n + 1) n (v, s) = refusing (quickSort compare n (v, s)) ∧
    ∃ calls, quickSort (logged compare) n (v, s, []) = withCalls calls (quickSort compare n (v, s)) ∧
      Nested.quickSort (logged compare) (Nat.log2 n + 1) n (v, s, []) =
        refusing (withCalls calls (quickSort compare n (v, s))) := by
  have hcalls := Nat.lt_succ_self (Nat.log2 n)
  obtain ⟨calls, hrecord, _⟩ := exists_calls_quickSort compare v s
  refine ⟨Nested.quickSort_eq_refusing compare hcalls v s, calls, hrecord, ?_⟩
  rw [← hrecord]
  exact Nested.quickSort_eq_refusing (logged compare) hcalls v (s, [])

/-- Two items need both of the calls that they may have. -/
example :
    let greater : Comparator Unit Unit Nat := fun _ _ => pure .gt
    let outcome (calls : Nat) : Option (Stop Unit) :=
      match Nested.quickSort greater calls 2 (#v[2, 1], ()) with
      | .ok _ _ => none
      | .error stop _ => some stop
    outcome 2 = none ∧ outcome 1 = some .tooDeep := by
  decide +kernel

end Managed.Sorting
