import Managed.Proofs.Sorting.Related

/-!
# Sorts sort

If a comparator never refuses and its verdicts are those of a total preorder, both sorts succeed and
leave the items in order; merge sort keeps those that compare equal in the order in which they were
(`leads_mergeSort`, `leads_quickSort`). What the comparator remembers of its calls plays no part.

The proofs follow the loops of the sorts. `Leads` says that a computation succeeds from the given items
on, and what it leaves.
-/

namespace Managed.Sorting

variable {ε σ α β γ : Type} {n : Nat}

/-! ## Computations that succeed -/

/-- A computation that succeeds, with an answer that satisfies `P`. -/
def Yields (act : EStateM ε σ β) (P : β → Prop) : Prop :=
  ∀ s, ∃ b s', act s = .ok b s' ∧ P b

/-- From the items `v` on the computation succeeds, and its answer and the items it leaves satisfy
`Q`. -/
def Leads (act : SortM ε σ α n β) (v : Vector α n) (Q : β → Vector α n → Prop) : Prop :=
  ∀ s, ∃ b w s', act (v, s) = .ok b (w, s') ∧ Q b w

theorem yields_pure {b : β} {P : β → Prop} (hb : P b) : Yields (pure b : EStateM ε σ β) P :=
  fun s => ⟨b, s, rfl, hb⟩

theorem Yields.bind {act : EStateM ε σ β} {next : β → EStateM ε σ γ} {P : β → Prop} {Q : γ → Prop}
    (hact : Yields act P) (hnext : ∀ b, P b → Yields (next b) Q) : Yields (act >>= next) Q := by
  intro s
  obtain ⟨b, s', hok, hb⟩ := hact s
  obtain ⟨c, t, hok', hc⟩ := hnext b hb s'
  refine ⟨c, t, ?_, hc⟩
  rw [bind_ok hok]
  exact hok'

theorem Yields.and_returns {act : EStateM ε σ β} {P Q : β → Prop} (hact : Yields act P)
    (hret : Returns act Q) : Yields act fun b => P b ∧ Q b := by
  intro s
  obtain ⟨b, s', hok, hb⟩ := hact s
  exact ⟨b, s', hok, hb, hret s b s' hok⟩

section

variable {v : Vector α n} {P : β → Prop} {Q : β → Vector α n → Prop} {R : γ → Vector α n → Prop}

theorem leads_pure {b : β} (hb : Q b v) : Leads (pure b : SortM ε σ α n β) v Q :=
  fun s => ⟨b, v, s, rfl, hb⟩

theorem Leads.bind {act : SortM ε σ α n β} {next : β → SortM ε σ α n γ} (hact : Leads act v Q)
    (hnext : ∀ b w, Q b w → Leads (next b) w R) : Leads (act >>= next) v R := by
  intro s
  obtain ⟨b, w, s', hok, hb⟩ := hact s
  obtain ⟨c, u, t, hok', hc⟩ := hnext b w hb s'
  refine ⟨c, u, t, ?_, hc⟩
  rw [bind_ok hok]
  exact hok'

theorem leads_items_bind {next : Vector α n → SortM ε σ α n γ} (hnext : Leads (next v) v R) :
    Leads (items >>= next) v R :=
  hnext

theorem Yields.leads_lift_bind {act : EStateM ε σ β} {next : β → SortM ε σ α n γ}
    (hact : Yields act P) (hnext : ∀ b, P b → Leads (next b) v R) :
    Leads (lift act >>= next) v R := by
  intro s
  obtain ⟨b, s', hok, hb⟩ := hact s
  obtain ⟨c, u, t, hok', hc⟩ := hnext b hb s'
  refine ⟨c, u, t, ?_, hc⟩
  rw [bind_ok (lift_ok hok)]
  exact hok'

theorem leads_exchange_bind {i j : Nat} (hi : i < n) (hj : j < n) {next : Unit → SortM ε σ α n γ}
    (hnext : Leads (next ()) (v.swap i j) R) : Leads (exchange i j hi hj >>= next) v R :=
  hnext

theorem Leads.within {start len : Nat} (h : start + len ≤ n) {act : SortM ε σ α len β}
    {S : β → Vector α len → Prop} (hact : Leads act (slice v start len h) S) :
    Leads (within start len h act) v fun b w => ∃ u, S b u ∧ w = splice v start h u := by
  intro s
  obtain ⟨b, u, s', hok, hb⟩ := hact s
  refine ⟨b, splice v start h u, s', ?_, u, hb, rfl⟩
  rw [Sorting.within, hok]

theorem Leads.and_perm {act : SortM ε σ α n β} (hact : Leads act v Q) (hperm : Rearranges act) :
    Leads act v fun b w => Q b w ∧ w.toList.Perm v.toList := by
  intro s
  obtain ⟨b, w, s', hok, hb⟩ := hact s
  have hw := hperm v s
  rw [hok] at hw
  exact ⟨b, w, s', hok, hb, hw⟩

end

/-! ## Order -/

/-- A comparator that never refuses and says what `cmp` says. -/
def Decides (compare : Comparator ε σ α) (cmp : α → α → Ordering) : Prop :=
  ∀ a b, Yields (compare a b) (· = cmp a b)

theorem decides_pure (cmp : α → α → Ordering) :
    Decides (fun a b => pure (cmp a b) : Comparator ε σ α) cmp :=
  fun _ _ => yields_pure rfl

/-- The list goes up. -/
def Ascending (cmp : α → α → Ordering) (l : List α) : Prop :=
  l.Pairwise fun a b => (cmp a b).isLE = true

/-- The items that compare equal to `x`, in their order. -/
def ties (cmp : α → α → Ordering) (x : α) (l : List α) : List α :=
  l.filter fun y => cmp x y == .eq

/-- The list `m` is `l` in ascending order, with equal items in the order they have in `l`. -/
structure StablySorted (cmp : α → α → Ordering) (l m : List α) : Prop where
  perm : m.Perm l
  ascending : Ascending cmp m
  ties : ∀ x, ties cmp x m = ties cmp x l

theorem ascending_append {cmp : α → α → Ordering} {l r : List α} (hl : Ascending cmp l)
    (hr : Ascending cmp r) (hlr : ∀ a ∈ l, ∀ b ∈ r, (cmp a b).isLE = true) :
    Ascending cmp (l ++ r) :=
  List.pairwise_append.mpr ⟨hl, hr, hlr⟩

theorem ascending_toList {cmp : α → α → Ordering} {v : Vector α n}
    (h : ∀ i k (_ : i < k) (_ : k < n), (cmp v[i] v[k]).isLE = true) : Ascending cmp v.toList := by
  refine List.pairwise_iff_getElem.mpr fun i k hi hk hik => ?_
  simp only [Vector.getElem_toList]
  exact h i k hik (by simpa using hk)

theorem ties_append (cmp : α → α → Ordering) (x : α) (l r : List α) :
    ties cmp x (l ++ r) = ties cmp x l ++ ties cmp x r :=
  List.filter_append ..

theorem ties_cons (cmp : α → α → Ordering) (x a : α) (l : List α) :
    ties cmp x (a :: l) = ties cmp x [a] ++ ties cmp x l :=
  ties_append cmp x [a] l

section

variable {cmp : α → α → Ordering} [Std.TransCmp cmp] {a b x : α} {l r : List α}

theorem isLE_of_gt (h : cmp a b = .gt) : (cmp b a).isLE = true := by
  rw [Std.OrientedCmp.gt_iff_lt.mp h]
  rfl

theorem isLE_of_not_lt (h : cmp a b ≠ .lt) : (cmp b a).isLE = true := by
  rw [Ordering.isLE_iff_ne_gt]
  exact fun hgt => h (Std.OrientedCmp.gt_iff_lt.mp hgt)

/-- Items that are greater than `b` are not equal to what `b` is equal to. -/
theorem ties_eq_nil (hx : cmp x b = .eq) (hb : ∀ y ∈ l, cmp b y = .lt) : ties cmp x l = [] := by
  refine List.filter_eq_nil_iff.mpr fun y hy heq => ?_
  have hlt := Std.TransCmp.lt_of_eq_of_lt hx (hb y hy)
  rw [beq_iff_eq.mp heq] at hlt
  cases hlt

/-- An item may change places with items that are greater. -/
theorem ties_middle (hb : ∀ y ∈ l, cmp b y = .lt) :
    ties cmp x (b :: (l ++ r)) = ties cmp x (l ++ b :: r) := by
  rw [ties_cons, ties_append, ties_append, ties_cons (l := r)]
  by_cases hx : cmp x b = .eq
  · rw [ties_eq_nil hx hb]
    rfl
  · have hone : ties cmp x [b] = [] := List.filter_eq_nil_iff.mpr (by simpa using hx)
    rw [hone]
    rfl

end

/-! ## Merge sort -/

section

variable {cmp : α → α → Ordering} [Std.TransCmp cmp] {compare : Comparator ε σ α}
  (hc : Decides compare cmp)
include hc

theorem yields_merge {l r : List α} (hl : Ascending cmp l) (hr : Ascending cmp r) :
    Yields (merge compare l r) fun m =>
      Ascending cmp m.1 ∧ ∀ x, ties cmp x m.1 = ties cmp x (l ++ r) := by
  induction l, r using merge.induct with
  | case1 r =>
    rw [merge]
    exact yields_pure ⟨hr, fun _ => rfl⟩
  | case2 a l =>
    rw [merge]
    exact yields_pure ⟨hl, fun x => by rw [List.append_nil]⟩
  | case3 a l b r ihr ihl =>
    obtain ⟨hal, hl'⟩ := List.pairwise_cons.mp hl
    obtain ⟨hbr, hr'⟩ := List.pairwise_cons.mp hr
    rw [merge]
    apply (hc b a).bind
    rintro _ rfl
    split
    · next hlt =>
      have hbelow : ∀ y ∈ a :: l, cmp b y = .lt := by
        intro y hy
        rcases List.mem_cons.mp hy with rfl | hy
        · exact hlt
        · exact Std.TransCmp.lt_of_lt_of_isLE hlt (hal y hy)
      apply ((ihr hl hr').and_returns (returns_merge compare _ _)).bind
      rintro ⟨m, hm⟩ ⟨⟨hasc, hties⟩, hperm⟩
      refine yields_pure ⟨List.pairwise_cons.mpr ⟨fun y hy => ?_, hasc⟩, fun x => ?_⟩
      · rcases List.mem_append.mp (hperm.mem_iff.mp hy) with hy | hy
        · rw [hbelow y hy]
          rfl
        · exact hbr y hy
      · change ties cmp x (b :: m) = _
        rw [← ties_middle hbelow, ties_cons, hties, ← ties_cons]
    · next hnot =>
      have hab := isLE_of_not_lt hnot
      apply ((ihl hl' hr).and_returns (returns_merge compare _ _)).bind
      rintro ⟨m, hm⟩ ⟨⟨hasc, hties⟩, hperm⟩
      refine yields_pure ⟨List.pairwise_cons.mpr ⟨fun y hy => ?_, hasc⟩, fun x => ?_⟩
      · rcases List.mem_append.mp (hperm.mem_iff.mp hy) with hy | hy
        · exact hal y hy
        · rcases List.mem_cons.mp hy with rfl | hy
          · exact hab
          · exact Std.TransCmp.isLE_trans hab (hbr y hy)
      · change ties cmp x (a :: m) = _
        rw [ties_cons, hties, ← ties_cons, List.cons_append]

omit hc in
/-- Neighbours that do not stand in order are not equal. -/
theorem ties_swap {v : Vector α n} {j : Nat} (hj : j < n) (hnext : j + 1 < n)
    (hgt : cmp v[j] v[j + 1] = .gt) (x : α) : ties cmp x (v.swap j (j + 1)).toList = ties cmp x v.toList := by
  have hlen : v.toList.length = n := Vector.length_toList
  have hsplit : v.toList = v.toList.take j ++ ([v[j]] ++ v[j + 1] :: v.toList.drop (j + 2)) := by
    conv => lhs; rw [← List.take_append_drop j v.toList]
    rw [List.drop_eq_getElem_cons (by omega), List.drop_eq_getElem_cons (by omega)]
    rfl
  have hswap : (v.swap j (j + 1)).toList =
      v.toList.take j ++ v[j + 1] :: ([v[j]] ++ v.toList.drop (j + 2)) := by
    have hfront : (v.toList.take j).length = j := by
      rw [List.length_take]
      omega
    rw [Vector.toList_swap]
    nth_rewrite 1 [hsplit]
    simp only [List.cons_append, List.nil_append, hfront, Nat.le_refl, List.set_append_right,
      Nat.sub_self, List.set_cons_zero, Nat.le_add_right, Nat.add_sub_cancel_left, List.set_cons_succ]
  rw [hswap, ties_append, ties_middle, ← ties_append, ← hsplit]
  intro y hy
  rw [List.mem_singleton.mp hy]
  exact Std.OrientedCmp.gt_iff_lt.mp hgt

/-- All pairs of items up to `m` are in order but those whose second item is at `j`, which is moved
down. -/
theorem leads_sink {m j : Nat} (hj : j < n) {v : Vector α n}
    (hv : ∀ i k (_ : i < k) (_ : k < n), k ≤ m → k ≠ j → (cmp v[i] v[k]).isLE = true) :
    Leads (sink compare j hj) v fun _ w =>
      (∀ i k (_ : i < k) (_ : k < n), k ≤ m → (cmp w[i] w[k]).isLE = true) ∧
        ∀ x, ties cmp x w.toList = ties cmp x v.toList := by
  induction j generalizing v with
  | zero => exact leads_pure ⟨fun i k hik hk hm => hv i k hik hk hm (by omega), fun _ => rfl⟩
  | succ j ih =>
    apply leads_items_bind
    apply (hc _ _).leads_lift_bind
    rintro _ rfl
    split
    · next hgt =>
      apply leads_exchange_bind
      intro s
      have hw : ∀ i k (_ : i < k) (_ : k < n), k ≤ m → k ≠ j →
          (cmp (v.swap j (j + 1))[i] (v.swap j (j + 1))[k]).isLE = true := by
        intro i k hik hk hm hkj
        by_cases hk' : k = j + 1
        · subst hk'
          rw [Vector.getElem_swap_right]
          by_cases hij : i = j
          · subst hij
            rw [Vector.getElem_swap_left]
            exact isLE_of_gt hgt
          · rw [Vector.getElem_swap_of_ne hij (by omega)]
            exact hv i j (by omega) (by omega) (by omega) (by omega)
        · rw [Vector.getElem_swap_of_ne (k := k) hkj hk']
          by_cases hij : i = j
          · subst hij
            rw [Vector.getElem_swap_left]
            exact hv (i + 1) k (by omega) hk hm hk'
          · by_cases hij' : i = j + 1
            · subst hij'
              rw [Vector.getElem_swap_right]
              exact hv j k (by omega) hk hm hk'
            · rw [Vector.getElem_swap_of_ne hij hij']
              exact hv i k hik hk hm hk'
      obtain ⟨_, w, s', hok, hsorted, hties⟩ := ih (v := v.swap j (j + 1)) (by omega) hw s
      exact ⟨(), w, s', hok, hsorted, fun x => (hties x).trans (ties_swap (by omega) hj hgt x)⟩
    · next hle =>
      refine leads_pure ⟨fun i k hik hk hm => ?_, fun _ => rfl⟩
      by_cases hkj : k = j + 1
      · subst hkj
        have hlast := Ordering.isLE_iff_ne_gt.mpr hle
        by_cases hij : i = j
        · subst hij
          exact hlast
        · exact Std.TransCmp.isLE_trans (hv i j (by omega) (by omega) (by omega) (by omega)) hlast
      · exact hv i k hik hk hm hkj

theorem leads_insertFrom {m : Nat} {v : Vector α n}
    (hv : ∀ i k (_ : i < k) (_ : k < n), k < m → (cmp v[i] v[k]).isLE = true) :
    Leads (insertFrom compare m) v fun _ w =>
      Ascending cmp w.toList ∧ ∀ x, ties cmp x w.toList = ties cmp x v.toList := by
  induction hd : n - m generalizing m v with
  | zero =>
    unfold insertFrom
    rw [dif_neg (by omega)]
    exact leads_pure ⟨ascending_toList fun i k hik hk => hv i k hik hk (by omega), fun _ => rfl⟩
  | succ d ih =>
    unfold insertFrom
    rw [dif_pos (by omega)]
    apply (leads_sink hc (m := m) _ fun i k hik hk hm hne => hv i k hik hk (by omega)).bind
    rintro _ w ⟨hw, hties⟩
    intro s
    obtain ⟨_, u, s', hok, hasc, hties'⟩ :=
      ih (m := m + 1) (fun i k hik hk hm => hw i k hik hk (by omega)) (by omega) s
    exact ⟨(), u, s', hok, hasc, fun x => (hties' x).trans (hties x)⟩

theorem leads_mergeHalves {mid : Nat} {v : Vector α n} (hl : Ascending cmp (v.toList.take mid))
    (hr : Ascending cmp (v.toList.drop mid)) :
    Leads (mergeHalves compare mid) v fun _ w =>
      Ascending cmp w.toList ∧ ∀ x, ties cmp x w.toList = ties cmp x v.toList := by
  apply leads_items_bind
  apply (yields_merge hc hl hr).leads_lift_bind
  rintro ⟨m, hm⟩ ⟨hasc, hties⟩ s
  refine ⟨(), _, s, rfl, hasc, fun x => ?_⟩
  have hx := hties x
  rwa [List.take_append_drop] at hx

omit hc in
/-- Two halves that stand in order. -/
theorem ascending_of_halves {l : List α} {mid : Nat} (hpos : 0 < mid) (hmid : mid < l.length)
    (hl : Ascending cmp (l.take mid)) (hr : Ascending cmp (l.drop mid))
    (hle : (cmp l[mid - 1] l[mid]).isLE = true) : Ascending cmp l := by
  obtain ⟨mid, rfl⟩ : ∃ k, mid = k + 1 := ⟨mid - 1, by omega⟩
  simp only [Nat.add_sub_cancel] at hle
  have hlast : ∀ a ∈ l.take (mid + 1), (cmp a l[mid]).isLE = true := by
    rw [← List.take_append_getElem (by omega)] at hl ⊢
    intro a ha
    rcases List.mem_append.mp ha with ha | ha
    · exact (List.pairwise_append.mp hl).2.2 a ha _ List.mem_cons_self
    · rw [List.mem_singleton.mp ha]
      exact Std.ReflCmp.isLE_rfl
  have hfirst : ∀ b ∈ l.drop (mid + 1), (cmp l[mid + 1] b).isLE = true := by
    rw [List.drop_eq_getElem_cons hmid] at hr ⊢
    intro b hb
    rcases List.mem_cons.mp hb with rfl | hb
    · exact Std.ReflCmp.isLE_rfl
    · exact (List.pairwise_cons.mp hr).1 b hb
  rw [← List.take_append_drop (mid + 1) l]
  refine ascending_append hl hr fun a ha b hb => ?_
  exact Std.TransCmp.isLE_trans (hlast a ha) (Std.TransCmp.isLE_trans hle (hfirst b hb))

/-- Merge sort is a stable sort. -/
theorem leads_mergeSort (n : Nat) (v : Vector α n) :
    Leads (mergeSort compare n) v fun _ w => StablySorted cmp v.toList w.toList := by
  suffices h : Leads (mergeSort compare n) v fun _ w =>
      Ascending cmp w.toList ∧ ∀ x, ties cmp x w.toList = ties cmp x v.toList by
    intro s
    obtain ⟨b, w, s', hok, ⟨hasc, hties⟩, hperm⟩ := h.and_perm (rearranges_mergeSort compare n) s
    exact ⟨b, w, s', hok, hperm, hasc, hties⟩
  induction n using Nat.strongRecOn with
  | ind n ih =>
    unfold mergeSort
    split
    · exact leads_insertFrom hc fun i k hik hk hm => by omega
    · next hn =>
      have hlong : 7 < n := Nat.lt_of_not_le hn
      have hlen : v.toList.length = n := Vector.length_toList
      apply ((ih (n / 2) (by omega) (slice v 0 (n / 2) (by omega))).within (by omega)).bind
      rintro _ w₁ ⟨left, ⟨hasc₁, hties₁⟩, hw₁⟩
      have hlen₁ : left.toList.length = n / 2 := Vector.length_toList
      replace hw₁ : w₁.toList = left.toList ++ v.toList.drop (n / 2) := by
        rw [hw₁, toList_splice, List.take_zero, List.nil_append, Nat.zero_add]
      apply ((ih (n - n / 2) (by omega) (slice w₁ (n / 2) (n - n / 2) (by omega))).within
        (by omega)).bind
      rintro _ w ⟨right, ⟨hasc₂, hties₂⟩, hw⟩
      replace hw : w.toList = left.toList ++ right.toList := by
        rw [hw, toList_splice, hw₁, List.take_left' hlen₁, List.drop_of_length_le, List.append_nil]
        rw [List.length_append, List.length_drop]
        omega
      have hlow : Ascending cmp (w.toList.take (n / 2)) := by rwa [hw, List.take_left' hlen₁]
      have hhigh : Ascending cmp (w.toList.drop (n / 2)) := by rwa [hw, List.drop_left' hlen₁]
      have hties : ∀ x, ties cmp x w.toList = ties cmp x v.toList := by
        intro x
        have hx₁ := hties₁ x
        have hx₂ := hties₂ x
        rw [toList_slice, List.drop_zero] at hx₁
        rw [toList_slice, hw₁, List.drop_left' hlen₁, List.take_of_length_le] at hx₂
        · rw [hw, ties_append, hx₁, hx₂, ← ties_append, List.take_append_drop]
        · rw [List.length_drop]
          omega
      apply leads_items_bind
      apply (hc _ _).leads_lift_bind
      rintro _ rfl
      split
      · intro s
        obtain ⟨_, u, s', hok, hasc, hu⟩ := leads_mergeHalves hc hlow hhigh s
        exact ⟨(), u, s', hok, hasc, fun x => (hu x).trans (hties x)⟩
      · next hle =>
        refine leads_pure ⟨ascending_of_halves (by omega) ?_ hlow hhigh ?_, hties⟩
        · rw [Vector.length_toList]
          omega
        · simp only [Vector.getElem_toList]
          exact Ordering.isLE_iff_ne_gt.mpr hle

/-! ## Quicksort -/

omit [Std.TransCmp cmp] in
theorem yields_scanUp (pivot : α) (v : Vector α n) {i : Nat} (hi : i < n) :
    Yields (scanUp compare pivot v i hi) fun k =>
      (∀ m (_ : m < n), i ≤ m → m < k.1 → cmp v[m] pivot = .lt) ∧
        ∀ _ : k.1 + 1 < n, cmp v[k.1] pivot ≠ .lt := by
  induction hd : n - i using Nat.strongRecOn generalizing i with
  | ind d ih =>
    unfold scanUp
    apply (hc _ _).bind
    rintro _ rfl
    split
    · next hlt =>
      apply (ih (n - (i + 1)) (by omega) hlt.2 rfl).bind
      rintro ⟨k, hk⟩ ⟨hbelow, hstop⟩
      refine yields_pure ⟨fun m hm him hmk => ?_, hstop⟩
      by_cases hmi : m = i
      · subst hmi
        exact hlt.1
      · exact hbelow m hm (by omega) hmk
    · next hnot =>
      refine yields_pure ⟨fun m hm him hmi => absurd hmi (Nat.not_lt.mpr him), fun hk hlt => ?_⟩
      exact hnot ⟨hlt, hk⟩

omit [Std.TransCmp cmp] in
theorem yields_scanDown (pivot : α) (v : Vector α n) {j : Nat} (hj : j < n) :
    Yields (scanDown compare pivot v j hj) fun k =>
      (∀ m (_ : m < n), k.1 < m → m ≤ j → cmp pivot v[m] = .lt) ∧
        ∀ _ : k.1 < n, 0 < k.1 → cmp pivot v[k.1] ≠ .lt := by
  induction j using Nat.strongRecOn with
  | ind j ih =>
    unfold scanDown
    apply (hc _ _).bind
    rintro _ rfl
    split
    · next hlt =>
      apply (ih (j - 1) (by omega) (by omega)).bind
      rintro ⟨k, hk⟩ ⟨habove, hstop⟩
      refine yields_pure ⟨fun m hm hkm hmj => ?_, hstop⟩
      by_cases hmj' : m = j
      · subst hmj'
        exact hlt.1
      · exact habove m hm hkm (by omega)
    · next hnot =>
      refine yields_pure ⟨fun m hm hjm hmj => absurd hjm (Nat.not_lt.mpr hmj), fun hk hpos hlt => ?_⟩
      exact hnot ⟨hlt, hpos⟩

section

variable {pivot : α} {v : Vector α n} {up down : Nat} (hlt : up < down) (hdown : down < n)
include hlt

omit [Std.TransCmp cmp] hc in
/-- Where the scan up stopped, the item from where the scan down stopped is put. -/
theorem low_swap (hlow : ∀ m (_ : m < n), m < up → (cmp v[m] pivot).isLE = true)
    (hle : (cmp v[down] pivot).isLE = true) (m : Nat) (hm : m < n) (hmu : m ≤ up) :
    (cmp (v.swap up down)[m] pivot).isLE = true := by
  by_cases hmu' : m = up
  · subst hmu'
    rwa [Vector.getElem_swap_left]
  · rw [Vector.getElem_swap_of_ne hmu' (by omega)]
    exact hlow m hm (by omega)

omit [Std.TransCmp cmp] hc in
theorem high_swap (hhigh : ∀ m (_ : m < n), down < m → (cmp pivot v[m]).isLE = true)
    (hle : (cmp pivot v[up]).isLE = true) (m : Nat) (hm : m < n) (hdm : down ≤ m) :
    (cmp pivot (v.swap up down)[m]).isLE = true := by
  by_cases hdm' : m = down
  · subst hdm'
    rwa [Vector.getElem_swap_right]
  · rw [Vector.getElem_swap_of_ne (by omega) hdm']
    exact hhigh m hm (by omega)

end

/-- Up to `i` there are no items greater than the pivot and from `j` on none less than it. Where the
scans meet, the pivot is put. -/
theorem leads_partitionBetween {pivot : α} {i j : Nat} (hij : i < j) (hj : j ≤ n) (hi : i + 1 < n)
    {v : Vector α n} (hpivot : v[0] = pivot)
    (hlow : ∀ m (_ : m < n), m ≤ i → (cmp v[m] pivot).isLE = true)
    (hhigh : ∀ m (_ : m < n), j ≤ m → (cmp pivot v[m]).isLE = true) :
    Leads (partitionBetween compare pivot i j hij hj hi) v fun k w =>
      (∀ m (_ : m < n), m ≤ k.1 → (cmp w[m] pivot).isLE = true) ∧
        ∀ m (_ : m < n), k.1 ≤ m → (cmp pivot w[m]).isLE = true := by
  induction hd : j - i using Nat.strongRecOn generalizing i j v with
  | ind d ih =>
    unfold partitionBetween
    apply leads_items_bind
    apply (yields_scanUp hc pivot v _).leads_lift_bind
    rintro ⟨up, hup⟩ ⟨hbelow, hstopUp⟩
    apply (yields_scanDown hc pivot v _).leads_lift_bind
    rintro ⟨down, hdown⟩ ⟨habove, hstopDown⟩
    dsimp only at hbelow hstopUp habove hstopDown ⊢
    have hlow' : ∀ m (_ : m < n), m < up → (cmp v[m] pivot).isLE = true := by
      intro m hm hmu
      by_cases hmi : m ≤ i
      · exact hlow m hm hmi
      · rw [hbelow m hm (by omega) hmu]
        rfl
    have hhigh' : ∀ m (_ : m < n), down < m → (cmp pivot v[m]).isLE = true := by
      intro m hm hdm
      by_cases hjm : j ≤ m
      · exact hhigh m hm hjm
      · rw [habove m hm hdm (by omega)]
        rfl
    split
    · next hlt =>
      apply leads_exchange_bind
      refine ih (down - up) (by omega) hlt _ _ ?_ ?_ ?_ rfl
      · rw [Vector.getElem_swap_of_ne (by omega) (by omega), hpivot]
      · exact low_swap hlt (by omega) hlow' (isLE_of_not_lt (hstopDown (by omega) (by omega)))
      · exact high_swap hlt (by omega) hhigh' (isLE_of_not_lt (hstopUp (by omega)))
    · next hnot =>
      apply leads_exchange_bind
      have hplaced : (v.swap 0 down)[down] = pivot := by rw [Vector.getElem_swap_right, hpivot]
      refine leads_pure ⟨fun m hm (hmd : m ≤ down) => ?_, fun m hm (hdm : down ≤ m) => ?_⟩
      · by_cases hmd' : m = down
        · subst hmd'
          rw [hplaced]
          exact Std.ReflCmp.isLE_rfl
        · by_cases hm0 : m = 0
          · subst hm0
            rw [Vector.getElem_swap_left]
            exact isLE_of_not_lt (hstopDown (by omega) (by omega))
          · rw [Vector.getElem_swap_of_ne hm0 hmd']
            exact hlow' m hm (by omega)
      · by_cases hdm' : m = down
        · subst hdm'
          rw [hplaced]
          exact Std.ReflCmp.isLE_rfl
        · rw [Vector.getElem_swap_of_ne (by omega) hdm']
          exact hhigh' m hm (by omega)

/-- A list with an item at `k` that no item before it is greater and none behind it less than. The
parts before it and behind it are in order, if so said. -/
def Framed (cmp : α → α → Ordering) (k : Nat) (low high : Prop) (l : List α) : Prop :=
  ∃ front p back, l = front ++ p :: back ∧ front.length = k ∧
    (∀ a ∈ front, (cmp a p).isLE = true) ∧ (∀ b ∈ back, (cmp p b).isLE = true) ∧
    (low → Ascending cmp front) ∧ (high → Ascending cmp back)

omit hc in
theorem Framed.ascending {k : Nat} {l : List α} (h : Framed cmp k True True l) : Ascending cmp l := by
  obtain ⟨front, p, back, rfl, _, hfront, hback, hlow, hhigh⟩ := h
  refine ascending_append (hlow trivial) (List.pairwise_cons.mpr ⟨hback, hhigh trivial⟩) ?_
  intro a ha b hb
  rcases List.mem_cons.mp hb with rfl | hb
  · exact hfront a ha
  · exact Std.TransCmp.isLE_trans (hfront a ha) (hback b hb)

theorem leads_partition (hn : 1 < n) (v : Vector α n) :
    Leads (partition compare hn) v fun k w => Framed cmp k.1 False False w.toList := by
  have hall : ∀ m (_ : m < n), m ≤ 0 → (cmp v[m] v[0]).isLE = true := by
    intro m hm hm0
    obtain rfl := Nat.le_zero.mp hm0
    exact Std.ReflCmp.isLE_rfl
  intro s
  obtain ⟨⟨k, hk⟩, w, s', hok, hlow, hhigh⟩ :=
    leads_partitionBetween hc (by omega) (Nat.le_refl n) (by omega) rfl hall
      (fun m hm hnm => absurd hm (Nat.not_lt.mpr hnm)) s
  have hlen : w.toList.length = n := Vector.length_toList
  refine ⟨⟨k, hk⟩, w, s', hok, w.toList.take k, w[k], w.toList.drop (k + 1), ?_, ?_, fun a ha => ?_,
    fun b hb => ?_, False.elim, False.elim⟩
  · conv => lhs; rw [← List.take_append_drop k w.toList]
    rw [List.drop_eq_getElem_cons (by omega)]
    rfl
  · rw [List.length_take]
    exact Nat.min_eq_left (by omega)
  · obtain ⟨m, hm, rfl⟩ := List.mem_take_iff_getElem.mp ha
    exact Std.TransCmp.isLE_trans (hlow m (by omega) (by simp only; omega))
      (hhigh k hk (Nat.le_refl k))
  · obtain ⟨m, hm, rfl⟩ := List.mem_drop_iff_getElem.mp hb
    exact Std.TransCmp.isLE_trans (hlow k hk (Nat.le_refl k))
      (hhigh (k + 1 + m) (by omega) (by simp only; omega))

omit [Std.TransCmp cmp] hc in
/-- Sorting the part before the pivot. -/
theorem leads_low {k : Nat} (hk : 0 + k ≤ n) {act : SortM ε σ α k Unit} {low high : Prop}
    {w : Vector α n}
    (hact : ∀ u, Leads act u fun _ u' => Ascending cmp u'.toList ∧ u'.toList.Perm u.toList)
    (hw : Framed cmp k low high w.toList) :
    Leads (within 0 k hk act) w fun _ w' => Framed cmp k True high w'.toList := by
  obtain ⟨front, p, back, heq, hlen, hfront, hback, _, hhigh⟩ := hw
  intro s
  obtain ⟨_, w', s', hok, u, ⟨hasc, hperm⟩, rfl⟩ := (hact (slice w 0 k hk)).within hk s
  refine ⟨(), _, s', hok, u.toList, p, back, ?_, Vector.length_toList, fun a ha => ?_, hback,
    fun _ => hasc, hhigh⟩
  · rw [toList_splice, heq]
    simp [hlen]
  · rw [toList_slice, heq, List.drop_zero, List.take_left' hlen] at hperm
    exact hfront a (hperm.mem_iff.mp ha)

omit [Std.TransCmp cmp] hc in
/-- Sorting the part behind the pivot. -/
theorem leads_high {k : Nat} (hk : k + 1 + (n - 1 - k) ≤ n) {act : SortM ε σ α (n - 1 - k) Unit}
    {low high : Prop} {w : Vector α n}
    (hact : ∀ u, Leads act u fun _ u' => Ascending cmp u'.toList ∧ u'.toList.Perm u.toList)
    (hw : Framed cmp k low high w.toList) :
    Leads (within (k + 1) (n - 1 - k) hk act) w fun _ w' => Framed cmp k low True w'.toList := by
  obtain ⟨front, p, back, heq, hlen, hfront, hback, hlow, _⟩ := hw
  have hback' : back.length = n - 1 - k := by
    have hlen' := congrArg List.length heq
    simp only [Vector.length_toList, List.length_append, List.length_cons] at hlen'
    omega
  have hsplit : w.toList = (front ++ [p]) ++ back := by rw [heq, List.append_assoc]; rfl
  have hlen' : (front ++ [p]).length = k + 1 := by rw [List.length_append, hlen]; rfl
  intro s
  obtain ⟨_, w', s', hok, u, ⟨hasc, hperm⟩, rfl⟩ :=
    (hact (slice w (k + 1) (n - 1 - k) hk)).within hk s
  refine ⟨(), _, s', hok, front, p, u.toList, ?_, hlen, hfront, fun b hb => ?_, hlow, fun _ => hasc⟩
  · rw [toList_splice, hsplit, List.take_left' hlen', List.drop_of_length_le, List.append_nil,
      List.append_assoc]
    · rfl
    · rw [List.length_append]
      omega
  · rw [toList_slice, hsplit, List.drop_left' hlen', List.take_of_length_le (by omega)] at hperm
    exact hback b (hperm.mem_iff.mp hb)

theorem leads_quickSort (n : Nat) (v : Vector α n) :
    Leads (quickSort compare n) v fun _ w => Ascending cmp w.toList ∧ w.toList.Perm v.toList := by
  refine Leads.and_perm ?_ (rearranges_quickSort compare n)
  induction n using Nat.strongRecOn with
  | ind n ih =>
    unfold quickSort
    split
    · next hn =>
      apply (leads_partition hc hn v).bind
      rintro ⟨k, hk⟩ w hw
      have hlow := fun u => (ih k hk u).and_perm (rearranges_quickSort compare k)
      have hhigh := fun u =>
        (ih (n - 1 - k) (by omega) u).and_perm (rearranges_quickSort compare (n - 1 - k))
      dsimp only
      split
      · apply (leads_low _ hlow hw).bind
        intro _ w₁ hw₁ s
        obtain ⟨b, w₂, s', hok, hw₂⟩ := leads_high _ hhigh hw₁ s
        exact ⟨b, w₂, s', hok, hw₂.ascending⟩
      · apply (leads_high _ hhigh hw).bind
        intro _ w₁ hw₁ s
        obtain ⟨b, w₂, s', hok, hw₂⟩ := leads_low _ hlow hw₁ s
        exact ⟨b, w₂, s', hok, hw₂.ascending⟩
    · next hn =>
      refine leads_pure (ascending_toList fun i k hik hk => ?_)
      omega

end

end Managed.Sorting
