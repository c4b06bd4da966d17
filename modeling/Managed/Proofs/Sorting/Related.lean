import Managed.Proofs.Sorting.Rearranging
import Mathlib.Data.List.Forall2

/-!
# Sorts that run side by side

A sort sees its items through the comparator alone. So if two comparators, asked about items that
correspond, give the same verdict or both refuse, then the sorts that use them take the same course:
what they leave corresponds item by item, and both succeed or both fail (`alike_mergeSort`,
`alike_quickSort`). What corresponds to what is free, for items, for the memories of the comparators
and for the faults they report. To sort renamed items, to keep a record of the calls and to compare
things by way of their names are all cases of this.
-/

namespace Managed.Sorting

variable {ε ε' σ σ' α α' β β' γ γ' : Type} {n : Nat}

/-- What corresponds to what in two computations that run side by side. -/
structure Likeness (ε ε' σ σ' : Type) where
  state : σ → σ' → Prop
  fault : ε → ε' → Prop

namespace Likeness

variable (L : Likeness ε ε' σ σ')

/-- Two results of the same kind, with states that correspond. -/
def Results (answer : β → β' → Prop) :
    EStateM.Result ε σ β → EStateM.Result ε' σ' β' → Prop
  | .ok b s, .ok b' s' => answer b b' ∧ L.state s s'
  | .error e s, .error e' s' => L.fault e e' ∧ L.state s s'
  | _, _ => False

/-- Two computations that lead from states that correspond to results that do. -/
def Alike (answer : β → β' → Prop) (act : EStateM ε σ β) (act' : EStateM ε' σ' β') : Prop :=
  ∀ s s', L.state s s' → L.Results answer (act s) (act' s')

variable {L} {answer : β → β' → Prop} {answer' : γ → γ' → Prop}

theorem Results.cases {x : EStateM.Result ε σ β} {x' : EStateM.Result ε' σ' β'}
    (h : L.Results answer x x') :
    (∃ b b' s s', x = .ok b s ∧ x' = .ok b' s' ∧ answer b b' ∧ L.state s s') ∨
      ∃ e e' s s', x = .error e s ∧ x' = .error e' s' ∧ L.fault e e' ∧ L.state s s' := by
  cases x with
  | ok b s =>
    cases x' with
    | ok b' s' => exact Or.inl ⟨b, b', s, s', rfl, rfl, h.1, h.2⟩
    | error e' s' => exact h.elim
  | error e s =>
    cases x' with
    | ok b' s' => exact h.elim
    | error e' s' => exact Or.inr ⟨e, e', s, s', rfl, rfl, h.1, h.2⟩

theorem alike_pure {b : β} {b' : β'} (h : answer b b') : L.Alike answer (pure b) (pure b') :=
  fun _ _ hs => ⟨h, hs⟩

theorem Results.bind {act : EStateM ε σ β} {act' : EStateM ε' σ' β'} {next : β → EStateM ε σ γ}
    {next' : β' → EStateM ε' σ' γ'} {s : σ} {s' : σ'} (hact : L.Results answer (act s) (act' s'))
    (hnext : ∀ b b' t t', answer b b' → L.state t t' → L.Results answer' (next b t) (next' b' t')) :
    L.Results answer' ((act >>= next) s) ((act' >>= next') s') := by
  rcases hact.cases with ⟨b, b', t, t', hx, hx', hb, ht⟩ | ⟨e, e', t, t', hx, hx', he, ht⟩
  · rw [bind_ok hx, bind_ok hx']
    exact hnext b b' t t' hb ht
  · rw [bind_error hx, bind_error hx']
    exact ⟨he, ht⟩

theorem Alike.bind {act : EStateM ε σ β} {act' : EStateM ε' σ' β'} {next : β → EStateM ε σ γ}
    {next' : β' → EStateM ε' σ' γ'} (hact : L.Alike answer act act')
    (hnext : ∀ b b', answer b b' → L.Alike answer' (next b) (next' b')) :
    L.Alike answer' (act >>= next) (act' >>= next') :=
  fun s s' hs => (hact s s' hs).bind fun b b' t t' hb => hnext b b' hb t t'

/-- The same for computations that rearrange items. -/
def onItems (L : Likeness ε ε' σ σ') (item : α → α' → Prop) (n : Nat) :
    Likeness ε ε' (Vector α n × σ) (Vector α' n × σ') where
  state p p' := (∀ i (h : i < n), item p.1[i] p'.1[i]) ∧ L.state p.2 p'.2
  fault := L.fault

variable {item : α → α' → Prop}

theorem alike_items :
    (L.onItems item n).Alike (fun v v' => ∀ i (h : i < n), item v[i] v'[i]) items items :=
  fun _ _ hs => ⟨hs.1, hs⟩

theorem Alike.lift {act : EStateM ε σ β} {act' : EStateM ε' σ' β'} (hact : L.Alike answer act act') :
    (L.onItems item n).Alike answer (Sorting.lift act) (Sorting.lift act') := by
  rintro ⟨v, s⟩ ⟨v', s'⟩ ⟨hv, hs⟩
  rcases (hact s s' hs).cases with ⟨b, b', t, t', hx, hx', hb, ht⟩ | ⟨e, e', t, t', hx, hx', he, ht⟩
  · rw [lift_ok hx, lift_ok hx']
    exact ⟨hb, hv, ht⟩
  · rw [lift_error hx, lift_error hx']
    exact ⟨he, hv, ht⟩

theorem alike_exchange (i j : Nat) (hi : i < n) (hj : j < n) :
    (L.onItems item n).Alike (fun _ _ => True) (exchange i j hi hj) (exchange i j hi hj) := by
  rintro ⟨v, s⟩ ⟨v', s'⟩ ⟨hv, hs⟩
  refine ⟨trivial, fun k hk => ?_, hs⟩
  simp only [Vector.getElem_swap]
  split
  · exact hv j hj
  · split
    · exact hv i hi
    · exact hv k hk

/-! ## Parts of a run -/

theorem getElem_slice (v : Vector α n) (start len : Nat) (h : start + len ≤ n) (i : Nat)
    (hi : i < len) : (slice v start len h)[i] = v[start + i] := by
  simp [slice]

theorem getElem_splice {len : Nat} (v : Vector α n) (start : Nat) (h : start + len ≤ n)
    (w : Vector α len) (i : Nat) (hi : i < n) :
    (splice v start h w)[i] =
      if hw : start ≤ i ∧ i - start < len then w[i - start] else v[i] := by
  simp only [splice, Vector.getElem_cast, Vector.getElem_append, Vector.getElem_extract]
  by_cases hlow : i < start
  · rw [dif_pos (by omega), dif_pos (by omega), dif_neg (by omega)]
    simp
  · by_cases hhigh : i < start + len
    · rw [dif_pos (by omega), dif_neg (by omega), dif_pos (by omega)]
      congr 1
      omega
    · rw [dif_neg (by omega), dif_neg (by omega)]
      congr 1
      omega

theorem Alike.within {start len : Nat} (h : start + len ≤ n) {act : SortM ε σ α len β}
    {act' : SortM ε' σ' α' len β'} (hact : (L.onItems item len).Alike answer act act') :
    (L.onItems item n).Alike answer (within start len h act) (within start len h act') := by
  rintro ⟨v, s⟩ ⟨v', s'⟩ ⟨hv, hs⟩
  have hslice : ∀ i (hi : i < len), item (slice v start len h)[i] (slice v' start len h)[i] := by
    intro i hi
    rw [getElem_slice, getElem_slice]
    exact hv (start + i) (by omega)
  have hsplice : ∀ (w : Vector α len) (w' : Vector α' len),
      (∀ i (hi : i < len), item w[i] w'[i]) →
      ∀ i (hi : i < n), item (splice v start h w)[i] (splice v' start h w')[i] := by
    intro w w' hw i hi
    rw [getElem_splice, getElem_splice]
    split
    · next hin => exact hw (i - start) hin.2
    · exact hv i hi
  simp only [Sorting.within]
  rcases (hact (slice v start len h, s) (slice v' start len h, s') ⟨hslice, hs⟩).cases with
    ⟨b, b', p, p', hx, hx', hb, hp⟩ | ⟨e, e', p, p', hx, hx', he, hp⟩
  · rw [hx, hx']
    exact ⟨hb, hsplice p.1 p'.1 hp.1, hp.2⟩
  · rw [hx, hx']
    exact ⟨he, hsplice p.1 p'.1 hp.1, hp.2⟩

/-! ## Merge sort -/

/-- Comparators that say the same of items that correspond. -/
def Comparators (L : Likeness ε ε' σ σ') (item : α → α' → Prop) (compare : Comparator ε σ α)
    (compare' : Comparator ε' σ' α') : Prop :=
  ∀ a b a' b', item a a' → item b b' → L.Alike Eq (compare a b) (compare' a' b')

section

variable {compare : Comparator ε σ α} {compare' : Comparator ε' σ' α'}
  (hc : L.Comparators item compare compare')
include hc

theorem alike_sink (j : Nat) (hj : j < n) :
    (L.onItems item n).Alike (fun _ _ => True) (sink compare j hj) (sink compare' j hj) := by
  induction j with
  | zero => exact alike_pure trivial
  | succ j ih =>
    apply alike_items.bind
    intro v v' hv
    apply (hc _ _ _ _ (hv j (by omega)) (hv (j + 1) hj)).lift.bind
    rintro verdict _ rfl
    split
    · apply (alike_exchange _ _ _ _).bind
      intro _ _ _
      exact ih (by omega)
    · exact alike_pure trivial

theorem alike_insertFrom (i : Nat) :
    (L.onItems item n).Alike (fun _ _ => True) (insertFrom compare i) (insertFrom compare' i) := by
  induction hk : n - i generalizing i with
  | zero =>
    unfold insertFrom
    rw [dif_neg (by omega), dif_neg (by omega)]
    exact alike_pure trivial
  | succ k ih =>
    unfold insertFrom
    rw [dif_pos (by omega), dif_pos (by omega)]
    apply (alike_sink hc i _).bind
    intro _ _ _
    exact ih (i + 1) (by omega)

theorem alike_merge {l r : List α} {l' r' : List α'} (hl : List.Forall₂ item l l')
    (hr : List.Forall₂ item r r') :
    L.Alike (fun m m' => List.Forall₂ item m.1 m'.1) (merge compare l r) (merge compare' l' r') := by
  induction l, r using merge.induct generalizing l' r' with
  | case1 r =>
    cases hl
    rw [merge, merge]
    exact alike_pure hr
  | case2 a l =>
    cases hl with
    | cons ha hl =>
      cases hr
      rw [merge, merge]
      exact alike_pure (.cons ha hl)
  | case3 a l b r ihr ihl =>
    cases hl with
    | cons ha hl =>
      cases hr with
      | cons hb hr =>
        rw [merge, merge]
        apply (hc _ _ _ _ hb ha).bind
        rintro verdict _ rfl
        split
        · apply (ihr (.cons ha hl) hr).bind
          intro m m' hm
          exact alike_pure (.cons hb hm)
        · apply (ihl hl (.cons hb hr)).bind
          intro m m' hm
          exact alike_pure (.cons ha hm)

omit hc in
theorem forall₂_toList {v : Vector α n} {v' : Vector α' n}
    (hv : ∀ i (h : i < n), item v[i] v'[i]) : List.Forall₂ item v.toList v'.toList := by
  rw [List.forall₂_iff_get]
  refine ⟨by simp, fun i hi hi' => ?_⟩
  simp only [List.get_eq_getElem, Vector.getElem_toList]
  exact hv i (by simpa using hi)

theorem alike_mergeHalves (mid : Nat) :
    (L.onItems item n).Alike (fun _ _ => True) (mergeHalves compare mid)
      (mergeHalves compare' mid) := by
  apply alike_items.bind
  intro v v' hv
  have hlists := forall₂_toList hv
  apply (alike_merge hc (List.forall₂_take mid hlists) (List.forall₂_drop mid hlists)).lift.bind
  rintro ⟨m, hm⟩ ⟨m', hm'⟩ hmerged ⟨w, s⟩ ⟨w', s'⟩ ⟨_, hs⟩
  refine ⟨trivial, fun i hi => ?_, hs⟩
  have hlen : m.length = n := by
    simp only [List.length_take, List.length_drop, Vector.length_toList] at hm
    omega
  exact hmerged.get (i := i) (hlen.symm ▸ hi) (hmerged.length_eq ▸ hlen.symm ▸ hi)

theorem alike_mergeSort (n : Nat) :
    (L.onItems item n).Alike (fun _ _ => True) (mergeSort compare n) (mergeSort compare' n) := by
  induction n using Nat.strongRecOn with
  | ind n ih =>
    unfold mergeSort
    split
    · exact alike_insertFrom hc 1
    · next hn =>
      have hlong : 7 < n := Nat.lt_of_not_le hn
      apply ((ih (n / 2) (by omega)).within (by omega)).bind
      intro _ _ _
      apply ((ih (n - n / 2) (by omega)).within (by omega)).bind
      intro _ _ _
      apply alike_items.bind
      intro v v' hv
      apply (hc _ _ _ _ (hv (n / 2 - 1) (by omega)) (hv (n / 2) (by omega))).lift.bind
      rintro verdict _ rfl
      split
      · exact alike_mergeHalves hc _
      · exact alike_pure trivial

/-! ## Quicksort -/

theorem alike_scanUp {pivot : α} {pivot' : α'} (hp : item pivot pivot') {v : Vector α n}
    {v' : Vector α' n} (hv : ∀ i (h : i < n), item v[i] v'[i]) (i : Nat) (hi : i < n) :
    L.Alike Eq (scanUp compare pivot v i hi) (scanUp compare' pivot' v' i hi) := by
  induction hk : n - i using Nat.strongRecOn generalizing i with
  | ind k ih =>
    unfold scanUp
    apply (hc _ _ _ _ (hv i hi) hp).bind
    rintro verdict _ rfl
    split
    · apply (ih (n - (i + 1)) (by omega) (i + 1) _ rfl).bind
      rintro place _ rfl
      exact alike_pure rfl
    · exact alike_pure rfl

theorem alike_scanDown {pivot : α} {pivot' : α'} (hp : item pivot pivot') {v : Vector α n}
    {v' : Vector α' n} (hv : ∀ i (h : i < n), item v[i] v'[i]) (j : Nat) (hj : j < n) :
    L.Alike Eq (scanDown compare pivot v j hj) (scanDown compare' pivot' v' j hj) := by
  induction j using Nat.strongRecOn with
  | ind j ih =>
    unfold scanDown
    apply (hc _ _ _ _ hp (hv j hj)).bind
    rintro verdict _ rfl
    split
    · apply (ih (j - 1) (by omega) _).bind
      rintro place _ rfl
      exact alike_pure rfl
    · exact alike_pure rfl

theorem alike_partitionBetween {pivot : α} {pivot' : α'} (hp : item pivot pivot') (i j : Nat)
    (hij : i < j) (hj : j ≤ n) (hi : i + 1 < n) :
    (L.onItems item n).Alike Eq (partitionBetween compare pivot i j hij hj hi)
      (partitionBetween compare' pivot' i j hij hj hi) := by
  induction hk : j - i using Nat.strongRecOn generalizing i j with
  | ind k ih =>
    unfold partitionBetween
    apply alike_items.bind
    intro v v' hv
    apply (alike_scanUp hc hp hv _ _).lift.bind
    rintro ⟨up, hup⟩ _ rfl
    apply (alike_scanDown hc hp hv _ _).lift.bind
    rintro ⟨down, hdown⟩ _ rfl
    dsimp only
    split
    · apply (alike_exchange _ _ _ _).bind
      intro _ _ _
      exact ih (down - up) (by omega) up down _ _ _ rfl
    · apply (alike_exchange _ _ _ _).bind
      intro _ _ _
      exact alike_pure rfl

theorem alike_partition (hn : 1 < n) :
    (L.onItems item n).Alike Eq (partition compare hn) (partition compare' hn) := by
  apply alike_items.bind
  intro v v' hv
  exact alike_partitionBetween hc (hv 0 (by omega)) 0 n _ _ _

theorem alike_quickSort (n : Nat) :
    (L.onItems item n).Alike (fun _ _ => True) (quickSort compare n) (quickSort compare' n) := by
  induction n using Nat.strongRecOn with
  | ind n ih =>
    unfold quickSort
    split
    · next hn =>
      apply (alike_partition hc hn).bind
      rintro ⟨k, hk⟩ _ rfl
      have hlow := (ih k hk).within (by omega : 0 + k ≤ n)
      have hhigh := (ih (n - 1 - k) (by omega)).within (by omega : k + 1 + (n - 1 - k) ≤ n)
      dsimp only
      split
      · exact hlow.bind fun _ _ _ => hhigh
      · exact hhigh.bind fun _ _ _ => hlow
    · exact alike_pure trivial

end

end Likeness

end Managed.Sorting
