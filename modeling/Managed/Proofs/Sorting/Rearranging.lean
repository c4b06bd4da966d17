import Managed.Sorting.Merge
import Managed.Sorting.Quick

/-!
# Sorts rearrange

A sort exchanges items or puts back a merged run. It neither loses nor makes up an item, whatever the
comparator answers. The same holds when the comparator refuses to go on: what lies in the run at that
moment is a rearrangement of what was there (`rearranges_mergeSort`, `rearranges_quickSort`).
-/

namespace Managed.Sorting

variable {ε σ α β γ : Type} {n : Nat}

/-- The items that lie in the run when a computation has succeeded or failed. -/
def leftIn : EStateM.Result ε (Vector α n × σ) β → Vector α n
  | .ok _ (v, _) => v
  | .error _ (v, _) => v

/-! ## One step of a run -/

section

variable {act : EStateM ε σ β} {next : β → EStateM ε σ γ} {s s' : σ}

theorem bind_ok {b : β} (h : act s = .ok b s') : (act >>= next) s = next b s' := by
  change EStateM.bind act next s = _
  rw [EStateM.bind, h]

theorem bind_error {e : ε} (h : act s = .error e s') : (act >>= next) s = .error e s' := by
  change EStateM.bind act next s = _
  rw [EStateM.bind, h]

theorem lift_ok {v : Vector α n} {b : β} (h : act s = .ok b s') :
    lift act (v, s) = .ok b (v, s') := by
  simp only [lift, h]

theorem lift_error {v : Vector α n} {e : ε} (h : act s = .error e s') :
    lift act (v, s) = .error e (v, s') := by
  simp only [lift, h]

end

/-! ## Exchanges -/

/-- A computation that changes the order of the items at most. -/
def Rearranges (act : SortM ε σ α n β) : Prop :=
  ∀ v s, (leftIn (act (v, s))).toList.Perm v.toList

theorem rearranges_pure (b : β) : Rearranges (pure b : SortM ε σ α n β) :=
  fun _ _ => .rfl

theorem Rearranges.bind {act : SortM ε σ α n β} {next : β → SortM ε σ α n γ}
    (hact : Rearranges act) (hnext : ∀ b, Rearranges (next b)) : Rearranges (act >>= next) := by
  intro v s
  have hv := hact v s
  cases hx : act (v, s) with
  | ok b w =>
    rw [hx] at hv
    rw [bind_ok hx]
    exact (hnext b w.1 w.2).trans hv
  | error e w =>
    rw [hx] at hv
    rw [bind_error hx]
    exact hv

theorem rearranges_items : Rearranges (items : SortM ε σ α n (Vector α n)) :=
  fun _ _ => .rfl

theorem rearranges_lift (act : EStateM ε σ β) : Rearranges (lift act : SortM ε σ α n β) := by
  intro v s
  simp only [lift]
  cases act s with
  | ok b s' => exact .rfl
  | error e s' => exact .rfl

theorem rearranges_exchange (i j : Nat) (hi : i < n) (hj : j < n) :
    Rearranges (exchange i j hi hj : SortM ε σ α n Unit) :=
  fun v _ => Array.perm_iff_toList_perm.mp (Array.swap_perm (by simpa using hi) (by simpa using hj))

/-! ## Parts of a run -/

theorem toList_slice (v : Vector α n) (start len : Nat) (h : start + len ≤ n) :
    (slice v start len h).toList = (v.toList.drop start).take len := by
  simp [slice, Vector.toList]

theorem toList_splice {len : Nat} (v : Vector α n) (start : Nat) (h : start + len ≤ n)
    (w : Vector α len) :
    (splice v start h w).toList =
      v.toList.take start ++ w.toList ++ v.toList.drop (start + len) := by
  simp only [splice, Vector.toList, Vector.toArray_cast, Vector.toArray_append,
    Vector.toArray_extract, Array.toList_append, Array.toList_extract, List.extract_eq_take_drop]
  rw [List.take_of_length_le (i := n - _) (by simp)]
  rfl

/-- Putting back another order of a part of the run. -/
theorem perm_splice {len : Nat} (v : Vector α n) (start : Nat) (h : start + len ≤ n)
    {w : Vector α len} (hw : w.toList.Perm (slice v start len h).toList) :
    (splice v start h w).toList.Perm v.toList := by
  have hparts : v.toList =
      v.toList.take start ++ (v.toList.drop start).take len ++ v.toList.drop (start + len) := by
    rw [List.append_assoc, ← List.drop_drop, List.take_append_drop, List.take_append_drop]
  rw [toList_slice] at hw
  rw [toList_splice]
  exact ((hw.append_left _).append_right _).trans (.of_eq hparts.symm)

/-- Items outside the part stay where they are. -/
theorem leftIn_within {start len : Nat} (h : start + len ≤ n) {act : SortM ε σ α len β}
    (hact : Rearranges act) (v : Vector α n) (s : σ) :
    ∃ w, w.toList.Perm (slice v start len h).toList ∧
      leftIn (within start len h act (v, s)) = splice v start h w := by
  refine ⟨leftIn (act (slice v start len h, s)), hact _ s, ?_⟩
  simp only [within]
  cases act (slice v start len h, s) with
  | ok b w => rfl
  | error e w => rfl

theorem Rearranges.within {start len : Nat} (h : start + len ≤ n) {act : SortM ε σ α len β}
    (hact : Rearranges act) : Rearranges (within start len h act : SortM ε σ α n β) := by
  intro v s
  obtain ⟨w, hw, heq⟩ := leftIn_within h hact v s
  rw [heq]
  exact perm_splice v start h hw

/-! ## Merge sort -/

theorem rearranges_sink (compare : Comparator ε σ α) (j : Nat) (hj : j < n) :
    Rearranges (sink compare j hj) := by
  induction j with
  | zero => exact rearranges_pure ()
  | succ j ih =>
    refine rearranges_items.bind fun v => (rearranges_lift _).bind fun verdict => ?_
    split
    · exact (rearranges_exchange _ _ _ _).bind fun _ => ih (by omega)
    · exact rearranges_pure ()

theorem rearranges_insertFrom (compare : Comparator ε σ α) (i : Nat) :
    Rearranges (insertFrom compare i : SortM ε σ α n Unit) := by
  induction hk : n - i generalizing i with
  | zero =>
    unfold insertFrom
    rw [dif_neg (by omega)]
    exact rearranges_pure ()
  | succ k ih =>
    unfold insertFrom
    rw [dif_pos (by omega)]
    exact (rearranges_sink compare i _).bind fun _ => ih (i + 1) (by omega)

/-- What a computation answers when it succeeds. -/
def Returns (act : EStateM ε σ β) (P : β → Prop) : Prop :=
  ∀ s b s', act s = .ok b s' → P b

theorem returns_pure {b : β} {P : β → Prop} (hb : P b) : Returns (pure b : EStateM ε σ β) P := by
  rintro s _ _ ⟨⟩
  exact hb

theorem Returns.bind {act : EStateM ε σ β} {next : β → EStateM ε σ γ} {P : β → Prop}
    {Q : γ → Prop} (hact : Returns act P) (hnext : ∀ b, P b → Returns (next b) Q) :
    Returns (act >>= next) Q := by
  intro s c s' h
  cases hx : act s with
  | ok b s₁ =>
    rw [bind_ok hx] at h
    exact hnext b (hact s b s₁ hx) s₁ c s' h
  | error e s₁ =>
    rw [bind_error hx] at h
    cases h

theorem returns_merge (compare : Comparator ε σ α) (l r : List α) :
    Returns (merge compare l r) fun m => m.1.Perm (l ++ r) := by
  induction l, r using merge.induct with
  | case1 r =>
    rw [merge]
    exact returns_pure .rfl
  | case2 a l =>
    rw [merge]
    exact returns_pure (.of_eq (List.append_nil _).symm)
  | case3 a l b r ihr ihl =>
    rw [merge]
    refine Returns.bind (P := fun _ => True) (fun _ _ _ _ => trivial) fun verdict _ => ?_
    split
    · refine ihr.bind fun m hm => returns_pure ?_
      -- the item from the right list comes before all of the left one
      exact (hm.cons b).trans List.perm_middle.symm
    · exact ihl.bind fun m hm => returns_pure (hm.cons a)

theorem rearranges_mergeHalves (compare : Comparator ε σ α) (mid : Nat) :
    Rearranges (mergeHalves compare mid : SortM ε σ α n Unit) := by
  intro v s
  have hmerge := returns_merge compare (v.toList.take mid) (v.toList.drop mid) s
  simp only [mergeHalves, bind, EStateM.bind, items, lift]
  cases hres : merge compare (v.toList.take mid) (v.toList.drop mid) s with
  | ok m s' =>
    have hm := hmerge m s' hres
    rw [List.take_append_drop] at hm
    exact hm
  | error e s' => exact .rfl

theorem rearranges_mergeSort (compare : Comparator ε σ α) (n : Nat) :
    Rearranges (mergeSort compare n) := by
  induction n using Nat.strongRecOn with
  | ind n ih =>
    unfold mergeSort
    split
    · exact rearranges_insertFrom compare 1
    · next hn =>
      have hlong : 7 < n := Nat.lt_of_not_le hn
      refine ((ih (n / 2) (by omega)).within (by omega)).bind fun _ => ?_
      refine ((ih (n - n / 2) (by omega)).within (by omega)).bind fun _ => ?_
      refine rearranges_items.bind fun v => (rearranges_lift _).bind fun verdict => ?_
      split
      · exact rearranges_mergeHalves compare _
      · exact rearranges_pure ()

/-! ## Quicksort -/

theorem rearranges_partitionBetween (compare : Comparator ε σ α) (pivot : α) (i j : Nat)
    (hij : i < j) (hj : j ≤ n) (hi : i + 1 < n) :
    Rearranges (partitionBetween compare pivot i j hij hj hi) := by
  induction hk : j - i using Nat.strongRecOn generalizing i j with
  | ind k ih =>
    unfold partitionBetween
    refine rearranges_items.bind fun v => (rearranges_lift _).bind fun up => ?_
    refine (rearranges_lift _).bind fun down => ?_
    obtain ⟨up, hup⟩ := up
    obtain ⟨down, hdown⟩ := down
    dsimp only
    split
    · refine (rearranges_exchange _ _ _ _).bind fun _ => ?_
      exact ih (down - up) (by omega) up down _ _ _ rfl
    · exact (rearranges_exchange _ _ _ _).bind fun _ => rearranges_pure _

theorem rearranges_quickSort (compare : Comparator ε σ α) (n : Nat) :
    Rearranges (quickSort compare n) := by
  induction n using Nat.strongRecOn with
  | ind n ih =>
    unfold quickSort
    split
    · next hn =>
      have hpart : Rearranges (partition compare hn) :=
        rearranges_items.bind fun v => rearranges_partitionBetween compare _ 0 n _ _ _
      refine hpart.bind fun place => ?_
      obtain ⟨k, hk⟩ := place
      have hlow := (ih k hk).within (by omega : 0 + k ≤ n)
      have hhigh := (ih (n - 1 - k) (by omega)).within (by omega : k + 1 + (n - 1 - k) ≤ n)
      dsimp only
      split
      · exact hlow.bind fun _ => hhigh
      · exact hhigh.bind fun _ => hlow
    · exact rearranges_pure ()

end Managed.Sorting
