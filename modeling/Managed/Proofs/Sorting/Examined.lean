import Managed.Proofs.Sorting.Ordered

/-!
# Comparators that answer for some items

A comparator may rank certain items only and refuse to compare others. A sort of two or more items
then succeeds if and only if all of them have a rank (`Ranks.arrange_isOk_iff`), and leaves them in the
order of their ranks (`Ranks.pairwise_of_arrange`). If it fails, then with a fault that the comparator
reports for two of the items (`refused_of_arrange`).

That no item is overlooked is not plain from the sorts: scans stop early, an item sinks no further than
it has to, and halves that are in order are not merged. But whatever the comparator answers, each item
of two or more takes part in a call (`leaves_mergeSort`, `leaves_quickSort`). `Leaves` says what holds if
a computation succeeds from the given items on.
-/

namespace Managed.Sorting

variable {ε σ α β γ κ : Type} {n : Nat}

/-! ## Computations that may succeed -/

/-- If the computation succeeds from the items `v` on, its answer and the items it leaves satisfy
`Q`. -/
def Leaves (act : SortM ε σ α n β) (v : Vector α n) (Q : β → Vector α n → Prop) : Prop :=
  ∀ s b w s', act (v, s) = .ok b (w, s') → Q b w

section

variable {v : Vector α n} {P : β → Prop} {Q : β → Vector α n → Prop} {R : γ → Vector α n → Prop}

theorem leaves_pure {b : β} (hb : Q b v) : Leaves (pure b : SortM ε σ α n β) v Q := by
  rintro s _ _ _ ⟨⟩
  exact hb

theorem Leaves.bind {act : SortM ε σ α n β} {next : β → SortM ε σ α n γ} (hact : Leaves act v Q)
    (hnext : ∀ b w, Q b w → Leaves (next b) w R) : Leaves (act >>= next) v R := by
  intro s c u t h
  cases hx : act (v, s) with
  | error e p =>
    rw [bind_error hx] at h
    cases h
  | ok b p =>
    obtain ⟨w, s'⟩ := p
    rw [bind_ok hx] at h
    exact hnext b w (hact s b w s' hx) s' c u t h

theorem leaves_items_bind {next : Vector α n → SortM ε σ α n γ} (hnext : Leaves (next v) v R) :
    Leaves (items >>= next) v R :=
  hnext

theorem Returns.leaves_lift_bind {act : EStateM ε σ β} {next : β → SortM ε σ α n γ}
    (hact : Returns act P) (hnext : ∀ b, P b → Leaves (next b) v R) :
    Leaves (lift act >>= next) v R := by
  intro s c u t h
  cases hx : act s with
  | error e s' =>
    rw [bind_error (lift_error hx)] at h
    cases h
  | ok b s' =>
    rw [bind_ok (lift_ok hx)] at h
    exact hnext b (hact s b s' hx) s' c u t h

theorem leaves_exchange_bind {i j : Nat} (hi : i < n) (hj : j < n) {next : Unit → SortM ε σ α n γ}
    (hnext : Leaves (next ()) (v.swap i j) R) : Leaves (exchange i j hi hj >>= next) v R :=
  hnext

theorem Leaves.within {start len : Nat} (h : start + len ≤ n) {act : SortM ε σ α len β}
    {S : β → Vector α len → Prop} (hact : Leaves act (slice v start len h) S) :
    Leaves (within start len h act) v fun b w => ∃ u, S b u ∧ w = splice v start h u := by
  intro s b w s' hrun
  unfold Sorting.within at hrun
  cases hx : act (slice v start len h, s) with
  | error e p =>
    simp only [hx] at hrun
    cases hrun
  | ok c p =>
    simp only [hx] at hrun
    cases hrun
    exact ⟨p.1, hact s _ p.1 p.2 hx, rfl⟩

theorem Rearranges.leaves {act : SortM ε σ α n β} (hact : Rearranges act) (v : Vector α n) :
    Leaves act v fun _ w => w.toList.Perm v.toList := by
  intro s b w s' hrun
  have hperm := hact v s
  rw [hrun] at hperm
  exact hperm

end

/-! ## Good items -/

/-- A comparator that answers for good items only. -/
def Demands (compare : Comparator ε σ α) (good : α → Prop) : Prop :=
  ∀ a b, Returns (compare a b) fun _ => good a ∧ good b

/-- The items at certain positions are good. -/
def GoodAt (good : α → Prop) (spots : Nat → Prop) (v : Vector α n) : Prop :=
  ∀ k (_ : k < n), spots k → good v[k]

variable {good : α → Prop}

theorem GoodAt.mono {P Q : Nat → Prop} {v : Vector α n} (h : GoodAt good P v)
    (hQ : ∀ k < n, Q k → P k) : GoodAt good Q v :=
  fun k hk hq => h k hk (hQ k hk hq)

theorem GoodAt.swap {P : Nat → Prop} {v : Vector α n} (h : GoodAt good P v) {i j : Nat} (hi : i < n)
    (hj : j < n) (hPi : P i) (hPj : P j) : GoodAt good P (v.swap i j) := by
  intro k hk hP
  rw [Vector.getElem_swap]
  split
  · exact h j hj hPj
  · split
    · exact h i hi hPi
    · exact h k hk hP

theorem goodAt_iff {v : Vector α n} : GoodAt good (fun _ => True) v ↔ ∀ x ∈ v.toList, good x := by
  constructor
  · intro h x hx
    obtain ⟨k, hk, rfl⟩ := Vector.getElem_of_mem (Vector.mem_toList_iff.mp hx)
    exact h k hk trivial
  · intro h k hk _
    exact h v[k] (Vector.mem_toList_iff.mpr (Vector.getElem_mem hk))

theorem Rearranges.leaves_good {act : SortM ε σ α n β} (hact : Rearranges act) {v : Vector α n}
    (hv : GoodAt good (fun _ => True) v) : Leaves act v fun _ w => GoodAt good (fun _ => True) w := by
  rw [goodAt_iff] at hv
  intro s b w s' hrun
  rw [goodAt_iff]
  intro x hx
  exact hv x ((hact.leaves v s b w s' hrun).mem_iff.mp hx)

section

variable {compare : Comparator ε σ α} (hc : Demands compare good)
include hc

/-! ## Merge sort -/

omit hc in
/-- An item sinks among good items. -/
theorem leaves_sink {m : Nat} {v : Vector α n} (hv : GoodAt good (· ≤ m) v) {j : Nat} (hj : j < n)
    (hjm : j ≤ m) : Leaves (sink compare j hj) v fun _ w => GoodAt good (· ≤ m) w := by
  induction j generalizing v with
  | zero => exact leaves_pure hv
  | succ j ih =>
    refine leaves_items_bind ?_
    refine Returns.leaves_lift_bind (P := fun _ => True) (fun _ _ _ _ => trivial) fun verdict _ => ?_
    split
    · refine leaves_exchange_bind _ _ ?_
      exact ih (hv.swap (by omega) hj (by omega) hjm) (by omega) (by omega)
    · exact leaves_pure hv

/-- An item that sinks is compared with the one before it. In front of that one there are good items,
if any. -/
theorem leaves_sink_next {i : Nat} {v : Vector α n} (hi : i + 1 < n)
    (hv : 0 < i → GoodAt good (· ≤ i) v) :
    Leaves (sink compare (i + 1) hi) v fun _ w => GoodAt good (· ≤ i + 1) w := by
  refine leaves_items_bind ?_
  refine (hc _ _).leaves_lift_bind fun verdict ⟨hlast, hnew⟩ => ?_
  have hgood : GoodAt good (· ≤ i + 1) v := by
    intro k hk hki
    by_cases hnext : k = i + 1
    · subst hnext
      exact hnew
    · by_cases hsame : k = i
      · subst hsame
        exact hlast
      · exact hv (by omega) k hk (by omega)
  split
  · refine leaves_exchange_bind _ _ ?_
    exact leaves_sink (hgood.swap (by omega) hi (by omega) (Nat.le_refl _)) (by omega) (by omega)
  · exact leaves_pure hgood

theorem leaves_insertFrom {i : Nat} {v : Vector α n} (hv : 0 < i → GoodAt good (· ≤ i) v)
    (hn : 1 < n) :
    Leaves (insertFrom compare (i + 1)) v fun _ w => GoodAt good (fun _ => True) w := by
  induction hk : n - (i + 1) generalizing i v with
  | zero =>
    unfold insertFrom
    rw [dif_neg (by omega)]
    exact leaves_pure ((hv (by omega)).mono fun k hk _ => by omega)
  | succ rest ih =>
    unfold insertFrom
    rw [dif_pos (by omega)]
    exact (leaves_sink_next hc (by omega) hv).bind fun _ w hw => ih (fun _ => hw) (by omega)

theorem leaves_mergeSort (n : Nat) (hn : 1 < n) (v : Vector α n) :
    Leaves (mergeSort compare n) v fun _ w => GoodAt good (fun _ => True) w := by
  induction n using Nat.strongRecOn with
  | ind n ih =>
    unfold mergeSort
    split
    · exact leaves_insertFrom hc (fun h => absurd h (Nat.lt_irrefl 0)) hn
    · next hlong =>
      have hlong : 7 < n := Nat.lt_of_not_le hlong
      refine ((ih (n / 2) (by omega) (by omega) _).within (by omega)).bind ?_
      rintro _ _ ⟨front, hfront, rfl⟩
      refine ((ih (n - n / 2) (by omega) (by omega) _).within (by omega)).bind ?_
      rintro _ _ ⟨back, hback, rfl⟩
      -- both halves have two items or more, so all items are good before they are merged
      have hgood : GoodAt good (fun _ => True)
          (splice (splice v 0 (by omega) front) (n / 2) (by omega) back) := by
        intro k hk _
        rw [Likeness.getElem_splice]
        split
        · next hin => exact hback _ hin.2 trivial
        · rw [Likeness.getElem_splice, dif_pos (by omega)]
          exact hfront _ _ trivial
      refine leaves_items_bind ?_
      refine (hc _ _).leaves_lift_bind fun verdict _ => ?_
      split
      · exact (rearranges_mergeHalves compare _).leaves_good hgood
      · exact leaves_pure hgood

/-! ## Quicksort -/

theorem returns_scanUp (pivot : α) (v : Vector α n) (i : Nat) (hi : i < n) :
    Returns (scanUp compare pivot v i hi) fun up =>
      good pivot ∧ GoodAt good (fun k => i ≤ k ∧ k ≤ up.1) v := by
  induction hk : n - i using Nat.strongRecOn generalizing i with
  | ind rest ih =>
    unfold scanUp
    refine (hc _ _).bind fun verdict ⟨hhere, hpivot⟩ => ?_
    split
    · next hon =>
      refine (ih (n - (i + 1)) (by omega) (i + 1) hon.2 rfl).bind ?_
      rintro ⟨up, hup⟩ ⟨_, hrest⟩
      refine returns_pure ⟨hpivot, fun k hkn hk => ?_⟩
      by_cases hki : k = i
      · subst hki
        exact hhere
      · exact hrest k hkn ⟨by omega, hk.2⟩
    · refine returns_pure ⟨hpivot, fun k hkn hk => ?_⟩
      obtain rfl : k = i := Nat.le_antisymm hk.2 hk.1
      exact hhere

theorem returns_scanDown (pivot : α) (v : Vector α n) (j : Nat) (hj : j < n) :
    Returns (scanDown compare pivot v j hj) fun down =>
      GoodAt good (fun k => down.1 ≤ k ∧ k ≤ j) v := by
  induction j using Nat.strongRecOn with
  | ind j ih =>
    unfold scanDown
    refine (hc _ _).bind fun verdict ⟨_, hhere⟩ => ?_
    split
    · next hon =>
      refine (ih (j - 1) (by omega) (by omega)).bind ?_
      rintro ⟨down, hdown⟩ hrest
      refine returns_pure fun k hkn hk => ?_
      by_cases hkj : k = j
      · subst hkj
        exact hhere
      · exact hrest k hkn ⟨hk.1, by omega⟩
    · refine returns_pure fun k hkn hk => ?_
      obtain rfl : k = j := Nat.le_antisymm hk.2 hk.1
      exact hhere

/-- The scans leave good items behind them, up to where they meet. -/
theorem leaves_partitionBetween {pivot : α} {v : Vector α n} {i j : Nat} (hij : i < j) (hj : j ≤ n)
    (hi : i + 1 < n) (hn : 0 < n) (hpivot : v[0] = pivot)
    (hv : GoodAt good (fun k => 1 ≤ k ∧ k ≤ i ∨ j ≤ k) v) :
    Leaves (partitionBetween compare pivot i j hij hj hi) v
      fun _ w => GoodAt good (fun _ => True) w := by
  induction hk : j - i using Nat.strongRecOn generalizing i j v with
  | ind rest ih =>
    unfold partitionBetween
    refine leaves_items_bind ?_
    refine (returns_scanUp hc pivot v (i + 1) hi).leaves_lift_bind ?_
    rintro ⟨up, hup⟩ ⟨hgood, hlow⟩
    refine (returns_scanDown hc pivot v (j - 1) (by omega)).leaves_lift_bind ?_
    rintro ⟨down, hdown⟩ hhigh
    dsimp only at hlow hhigh
    have hscanned : GoodAt good (fun k => 1 ≤ k ∧ k ≤ up ∨ down ≤ k) v := by
      intro k hkn hk
      by_cases hold : 1 ≤ k ∧ k ≤ i ∨ j ≤ k
      · exact hv k hkn hold
      · by_cases hku : k ≤ up
        · by_cases hone : 1 ≤ k
          · exact hlow k hkn ⟨by omega, hku⟩
          · exact hhigh k hkn ⟨by omega, by omega⟩
        · exact hhigh k hkn ⟨by omega, by omega⟩
    dsimp only
    split
    · next hmeet =>
      refine leaves_exchange_bind _ _ ?_
      refine ih (down - up) (by omega) hmeet _ _ ?_ ?_ rfl
      · rw [Vector.getElem_swap, if_neg (by omega), if_neg (by omega)]
        exact hpivot
      · exact hscanned.swap (by omega) (by omega) (by omega) (by omega)
    · next hmeet =>
      have hall : GoodAt good (fun _ => True) v := by
        intro k hkn _
        by_cases hzero : k = 0
        · subst hzero
          rw [hpivot]
          exact hgood
        · exact hscanned k hkn (by omega)
      refine leaves_exchange_bind _ _ ?_
      exact leaves_pure (hall.swap _ _ trivial trivial)

theorem leaves_quickSort (n : Nat) (hn : 1 < n) (v : Vector α n) :
    Leaves (quickSort compare n) v fun _ w => GoodAt good (fun _ => True) w := by
  unfold quickSort
  rw [dif_pos hn]
  have hpart : Leaves (partition compare hn) v fun _ w => GoodAt good (fun _ => True) w := by
    refine leaves_items_bind ?_
    exact leaves_partitionBetween hc _ _ _ (by omega) rfl fun k hkn hk => by omega
  refine hpart.bind ?_
  rintro ⟨k, hk⟩ w hw
  have hlow := (rearranges_quickSort compare k).within (by omega : 0 + k ≤ n)
  have hhigh := (rearranges_quickSort compare (n - 1 - k)).within (by omega : k + 1 + (n - 1 - k) ≤ n)
  dsimp only
  split
  · exact (hlow.bind fun _ => hhigh).leaves_good hw
  · exact (hhigh.bind fun _ => hlow).leaves_good hw

end

/-! ## Either sort -/

/-- A sort that keeps equal items in their order if `stable`. -/
def arrange (stable : Bool) (compare : Comparator ε σ α) (n : Nat) : SortM ε σ α n Unit :=
  if stable then mergeSort compare n else quickSort compare n

theorem rearranges_arrange (stable : Bool) (compare : Comparator ε σ α) (n : Nat) :
    Rearranges (arrange stable compare n) := by
  unfold arrange
  split
  · exact rearranges_mergeSort compare n
  · exact rearranges_quickSort compare n

/-- Fewer than two items are never compared. -/
theorem arrange_of_lt_two (stable : Bool) (compare : Comparator ε σ α) (hn : n < 2) (v : Vector α n)
    (s : σ) : arrange stable compare n (v, s) = .ok () (v, s) := by
  unfold arrange
  split
  · have hshort : n ≤ insertionCutoff := Nat.le_trans (Nat.le_of_lt hn) (by decide)
    rw [mergeSort, dif_pos hshort, insertionSort, insertFrom, dif_neg (by omega)]
    rfl
  · rw [quickSort, dif_neg (by omega)]
    rfl

/-- Two or more items that are sorted have all been found good. -/
theorem Demands.good_of_arrange {compare : Comparator ε σ α} (hc : Demands compare good)
    {stable : Bool} (hn : 1 < n) {v w : Vector α n} {s s' : σ}
    (hrun : arrange stable compare n (v, s) = .ok () (w, s')) : ∀ x ∈ v.toList, good x := by
  have hleaves : Leaves (arrange stable compare n) v fun _ w => GoodAt good (fun _ => True) w := by
    unfold arrange
    split
    · exact leaves_mergeSort hc n hn v
    · exact leaves_quickSort hc n hn v
  have hperm := (rearranges_arrange stable compare n).leaves v s () w s' hrun
  intro x hx
  exact goodAt_iff.mp (hleaves s () w s' hrun) x (hperm.mem_iff.mpr hx)

theorem Likeness.alike_arrange {ε' σ' α' : Type} {L : Likeness ε ε' σ σ'} {item : α → α' → Prop}
    {compare : Comparator ε σ α} {compare' : Comparator ε' σ' α'}
    (hc : L.Comparators item compare compare') (stable : Bool) (n : Nat) :
    (L.onItems item n).Alike (fun _ _ => True) (arrange stable compare n)
      (arrange stable compare' n) := by
  unfold arrange
  split
  · exact alike_mergeSort hc n
  · exact alike_quickSort hc n

/-- A sort fails with a fault that the comparator reports for two of its items. -/
theorem refused_of_arrange {stable : Bool} {compare : Comparator ε σ α} {v w : Vector α n} {s s' : σ}
    {e : ε} (hrun : arrange stable compare n (v, s) = .error e (w, s')) :
    ∃ a ∈ v.toList, ∃ b ∈ v.toList, ∃ t t', compare a b t = .error e t' := by
  let reported : Likeness ε ε σ σ :=
    { state := Eq
      fault := fun e _ => ∃ a ∈ v.toList, ∃ b ∈ v.toList, ∃ t t', compare a b t = .error e t' }
  have hc : reported.Comparators (fun a a' => a = a' ∧ a ∈ v.toList) compare compare := by
    rintro a b _ _ ⟨rfl, ha⟩ ⟨rfl, hb⟩ t _ rfl
    cases hx : compare a b t with
    | ok o t' => exact ⟨rfl, rfl⟩
    | error e t' => exact ⟨⟨a, ha, b, hb, t, t', hx⟩, rfl⟩
  have hstart : (reported.onItems (fun a a' => a = a' ∧ a ∈ v.toList) n).state (v, s) (v, s) :=
    ⟨fun i hi => ⟨rfl, Vector.mem_toList_iff.mpr (Vector.getElem_mem hi)⟩, rfl⟩
  rcases (Likeness.alike_arrange hc stable n (v, s) (v, s) hstart).cases with
    ⟨_, _, _, _, hok, _⟩ | ⟨_, _, _, _, herr, _, hfault, _⟩
  · rw [hrun] at hok
    cases hok
  · rw [hrun] at herr
    cases herr
    exact hfault

/-! ## Ranks -/

/-- The comparator compares by rank and refuses items without one. -/
structure Ranks (compare : Comparator ε σ α) (rank : α → κ → Prop) (cmp : κ → κ → Ordering) :
    Prop where
  answered : ∀ {a b j k}, rank a j → rank b k → ∀ s, ∃ s', compare a b s = .ok (cmp j k) s'
  demands : Demands compare fun a => ∃ k, rank a k

section

variable {compare : Comparator ε σ α} {rank : α → κ → Prop} {cmp : κ → κ → Ordering}
  [Std.TransCmp cmp]

/-- Ranks themselves are sorted. -/
theorem exists_ascending (cmp : κ → κ → Ordering) [Std.TransCmp cmp] (stable : Bool)
    (v : Vector κ n) :
    ∃ w, arrange stable (fun j k => pure (cmp j k) : Comparator ε Unit κ) n (v, ()) = .ok () (w, ()) ∧
      Ascending cmp w.toList := by
  have hc : Decides (fun j k => pure (cmp j k) : Comparator ε Unit κ) cmp := decides_pure cmp
  unfold arrange
  split
  · obtain ⟨_, w, _, hrun, hsorted⟩ := leads_mergeSort hc n v ()
    exact ⟨w, hrun, hsorted.ascending⟩
  · obtain ⟨_, w, _, hrun, hasc, _⟩ := leads_quickSort hc n v ()
    exact ⟨w, hrun, hasc⟩

/-- Items that have ranks are sorted by them. -/
theorem Ranks.exists_arrange (hr : Ranks compare rank cmp) (stable : Bool) {v : Vector α n}
    (hv : ∀ x ∈ v.toList, ∃ k, rank x k) (s : σ) :
    ∃ w s', arrange stable compare n (v, s) = .ok () (w, s') ∧
      w.toList.Pairwise fun x y => ∃ j k, rank x j ∧ rank y k ∧ (cmp j k).isLE = true := by
  have hranked : ∀ i : Fin n, ∃ k, rank v[i] k := fun i =>
    hv v[i] (Vector.mem_toList_iff.mpr (Vector.getElem_mem i.2))
  choose ranks hranks using hranked
  let ranked : Likeness ε ε σ Unit := { state := fun _ _ => True, fault := fun _ _ => True }
  have hc : ranked.Comparators rank compare fun j k => pure (cmp j k) := by
    intro a b j k ha hb t _ _
    obtain ⟨t', hx⟩ := hr.answered ha hb t
    rw [hx]
    exact ⟨rfl, trivial⟩
  have hstart : (ranked.onItems rank n).state (v, s) (Vector.ofFn ranks, ()) := by
    refine ⟨fun i hi => ?_, trivial⟩
    rw [Vector.getElem_ofFn]
    exact hranks ⟨i, hi⟩
  -- the sort of the ranks, which succeeds, shows the way
  obtain ⟨w', hrun', hasc⟩ := exists_ascending (ε := ε) cmp stable (Vector.ofFn ranks)
  rcases (Likeness.alike_arrange hc stable n _ _ hstart).cases with
    ⟨_, _, ⟨w, s'⟩, ⟨_, _⟩, hok, hok', _, hitems, _⟩ | ⟨_, _, _, _, _, herr', _⟩
  · rw [hrun'] at hok'
    cases hok'
    refine ⟨w, s', hok, List.pairwise_iff_getElem.mpr fun i k hi hk hik => ?_⟩
    rw [Vector.length_toList] at hi hk
    refine ⟨w'[i], w'[k], ?_, ?_, ?_⟩
    · exact hitems i hi
    · exact hitems k hk
    · have hle := List.pairwise_iff_getElem.mp hasc i k (by simpa using hi) (by simpa using hk) hik
      simpa using hle
  · rw [hrun'] at herr'
    cases herr'

theorem Ranks.arrange_isOk_iff (hr : Ranks compare rank cmp) (stable : Bool) (v : Vector α n)
    (s : σ) :
    (∃ w s', arrange stable compare n (v, s) = .ok () (w, s')) ↔
      n < 2 ∨ ∀ x ∈ v.toList, ∃ k, rank x k := by
  constructor
  · rintro ⟨w, s', hrun⟩
    by_cases hn : n < 2
    · exact Or.inl hn
    · exact Or.inr (hr.demands.good_of_arrange (by omega) hrun)
  · rintro (hn | hv)
    · exact ⟨v, s, arrange_of_lt_two stable compare hn v s⟩
    · obtain ⟨w, s', hrun, _⟩ := hr.exists_arrange stable hv s
      exact ⟨w, s', hrun⟩

theorem Ranks.pairwise_of_arrange (hr : Ranks compare rank cmp) {stable : Bool} {v w : Vector α n}
    {s s' : σ} (hrun : arrange stable compare n (v, s) = .ok () (w, s')) :
    w.toList.Pairwise fun x y => ∃ j k, rank x j ∧ rank y k ∧ (cmp j k).isLE = true := by
  rcases (hr.arrange_isOk_iff stable v s).mp ⟨w, s', hrun⟩ with hn | hv
  · refine List.pairwise_iff_getElem.mpr fun i k hi hk hik => ?_
    rw [Vector.length_toList] at hk
    omega
  · obtain ⟨_, _, hrun', hsorted⟩ := hr.exists_arrange stable hv s
    rw [hrun] at hrun'
    cases hrun'
    exact hsorted

end

end Managed.Sorting
