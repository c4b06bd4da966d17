import Mathlib.Data.Fintype.EquivFin
import Managed.Proofs.Sorting.Ordered

/-!
# Sorting as a permutation of positions

To sort is to permute positions. Merge sort takes the one permutation that puts the items in ascending
order and keeps those that compare equal in the order of their positions (`mergeSort_arranges`). To see
which item went where, the items are sorted together with their positions, which the comparator does
not see. Quicksort leaves the items in ascending order too, in which those that compare equal may have
changed places (`quickSort_ascends`).
-/

namespace Managed.Sorting

variable {ε σ α : Type} {n : Nat}

/-- The permutation puts the items in ascending order and keeps those that compare equal in the order
of their positions. -/
structure Arranges (cmp : α → α → Ordering) (v : Vector α n) (π : Equiv.Perm (Fin n)) : Prop where
  ascending : ∀ i j, i < j → (cmp v[π i] v[π j]).isLE = true
  stable : ∀ i j, i < j → cmp v[π i] v[π j] = .eq → π i < π j

/-- The items in the order that a permutation gives. -/
def arranged (v : Vector α n) (π : Equiv.Perm (Fin n)) : Vector α n :=
  Vector.ofFn fun i => v[π i]

/-! ## There is one stable order -/

section

variable {cmp : α → α → Ordering} {v : Vector α n}

/-- The order in which a stable sort puts two positions. -/
def Precedes (cmp : α → α → Ordering) (v : Vector α n) (i j : Fin n) : Prop :=
  cmp v[i] v[j] = .lt ∨ cmp v[i] v[j] = .eq ∧ i < j

theorem Precedes.asymm [Std.OrientedCmp cmp] {i j : Fin n} (hij : Precedes cmp v i j)
    (hji : Precedes cmp v j i) : False := by
  have hswap : cmp v[i] v[j] = (cmp v[j] v[i]).swap := Std.OrientedCmp.eq_swap
  rcases hij with hlt | ⟨heq, hlt⟩
  · rcases hji with hlt' | ⟨heq', _⟩
    · rw [hlt, hlt'] at hswap
      cases hswap
    · rw [hlt, heq'] at hswap
      cases hswap
  · rcases hji with hlt' | ⟨_, hlt'⟩
    · rw [heq, hlt'] at hswap
      cases hswap
    · exact absurd hlt (Fin.lt_asymm hlt')

theorem Arranges.pairwise {π : Equiv.Perm (Fin n)} (h : Arranges cmp v π) :
    (List.ofFn π).Pairwise (Precedes cmp v) := by
  rw [List.pairwise_ofFn]
  intro i j hij
  have hle := h.ascending i j hij
  cases hcmp : cmp v[π i] v[π j] with
  | lt => exact Or.inl hcmp
  | eq => exact Or.inr ⟨hcmp, h.stable i j hij hcmp⟩
  | gt =>
    rw [hcmp] at hle
    cases hle

theorem Arranges.unique [Std.OrientedCmp cmp] {π ρ : Equiv.Perm (Fin n)} (hπ : Arranges cmp v π)
    (hρ : Arranges cmp v ρ) : π = ρ := by
  have hperm : (List.ofFn π).Perm (List.ofFn ρ) := by
    refine (List.perm_ext_iff_of_nodup (List.nodup_ofFn.mpr π.injective)
      (List.nodup_ofFn.mpr ρ.injective)).mpr fun i => ?_
    rw [List.mem_ofFn, List.mem_ofFn]
    exact ⟨fun _ => ρ.surjective i, fun _ => π.surjective i⟩
  have hlist : List.ofFn π = List.ofFn ρ :=
    hperm.eq_of_pairwise (fun i j _ _ hij hji => (hij.asymm hji).elim) hπ.pairwise hρ.pairwise
  exact Equiv.ext fun i => congrFun (List.ofFn_injective hlist) i

end

/-! ## Items with their positions -/

/-- The items, each with its position. -/
def numbered (v : Vector α n) : Vector (α × Fin n) n :=
  Vector.ofFn fun i => (v[i], i)

/-- The comparator for items with positions, which do not count. -/
def onItem (compare : Comparator ε σ α) : Comparator ε σ (α × Fin n) :=
  fun a b => compare a.1 b.1

theorem decides_onItem {compare : Comparator ε σ α} {cmp : α → α → Ordering}
    (hc : Decides compare cmp) :
    Decides (onItem compare : Comparator ε σ (α × Fin n)) fun a b => cmp a.1 b.1 :=
  fun a b => hc a.1 b.1

theorem transCmp_fst {cmp : α → α → Ordering} [Std.TransCmp cmp] :
    Std.TransCmp fun a b : α × Fin n => cmp a.1 b.1 where
  eq_swap := Std.OrientedCmp.eq_swap
  isLE_trans := Std.TransCmp.isLE_trans

theorem toList_numbered (v : Vector α n) :
    (numbered v).toList = (List.finRange n).map fun i => (v[i], i) := by
  rw [numbered, Vector.toList_ofFn, List.ofFn_eq_map]

theorem mem_numbered {v : Vector α n} {a : α × Fin n} :
    a ∈ (numbered v).toList ↔ a.1 = v[a.2] := by
  rw [toList_numbered, List.mem_map]
  constructor
  · rintro ⟨i, _, rfl⟩
    rfl
  · intro ha
    exact ⟨a.2, List.mem_finRange _, by rw [← ha]⟩

theorem pairwise_numbered (v : Vector α n) :
    (numbered v).toList.Pairwise fun a b => a.2 < b.2 := by
  rw [toList_numbered, List.pairwise_map]
  exact List.pairwise_lt_finRange n

section

variable {cmp : α → α → Ordering} [Std.TransCmp cmp] {v : Vector α n} {w : Vector (α × Fin n) n}
  (h : StablySorted (fun a b => cmp a.1 b.1) (numbered v).toList w.toList)
include h

omit [Std.TransCmp cmp] in
theorem fst_of_stablySorted (i : Fin n) : w[i].1 = v[w[i].2] := by
  have hmem : w[i] ∈ w.toList := by simp
  exact mem_numbered.mp (h.perm.mem_iff.mp hmem)

omit [Std.TransCmp cmp] in
theorem snd_injective_of_stablySorted : Function.Injective fun i : Fin n => w[i].2 := by
  have hnodup : (w.toList.map Prod.snd).Nodup := by
    refine (h.perm.map Prod.snd).nodup_iff.mpr (List.pairwise_map.mpr ?_)
    exact (pairwise_numbered v).imp fun hlt => Fin.ne_of_lt hlt
  have hne : ∀ i j : Fin n, i < j → w[i].2 ≠ w[j].2 := by
    intro i j hij
    have hpair := List.pairwise_iff_getElem.mp (List.pairwise_map.mp hnodup) i j (by simp) (by simp) hij
    simpa using hpair
  intro i j heq
  rcases lt_trichotomy i j with hij | hij | hij
  · exact absurd heq (hne i j hij)
  · exact hij
  · exact absurd heq.symm (hne j i hij)

/-- Two items that compare equal come in the order of their positions: among those that compare equal
to the first one no two have changed places. -/
theorem snd_lt_of_stablySorted {i j : Fin n} (hij : i < j) (heq : cmp w[i].1 w[j].1 = .eq) :
    w[i].2 < w[j].2 := by
  have hties : (ties (fun a b => cmp a.1 b.1) w[i] w.toList).Pairwise fun a b => a.2 < b.2 := by
    rw [h.ties]
    exact (pairwise_numbered v).filter _
  have hboth : ([w[i]] ++ [w[j]]).Sublist (w.toList.take (i + 1) ++ w.toList.drop (i + 1)) := by
    refine List.Sublist.append (List.singleton_sublist.mpr ?_) (List.singleton_sublist.mpr ?_)
    · exact List.mem_take_iff_getElem.mpr ⟨i, by simp, by simp⟩
    · exact List.mem_drop_iff_getElem.mpr ⟨j - (i + 1), by simp; omega, by
        simp [Nat.add_sub_cancel' (Nat.succ_le_of_lt hij)]⟩
  rw [List.take_append_drop] at hboth
  have hsub := hboth.filter fun y => cmp w[i].1 y.1 == .eq
  have hkept : ([w[i]] ++ [w[j]]).filter (fun y => cmp w[i].1 y.1 == .eq) = [w[i], w[j]] := by
    refine List.filter_eq_self.mpr fun y hy => beq_iff_eq.mpr ?_
    rcases List.mem_append.mp hy with hy | hy
    · rw [List.mem_singleton.mp hy]
      exact Std.ReflCmp.compare_self
    · rw [List.mem_singleton.mp hy]
      exact heq
  rw [hkept] at hsub
  exact (List.pairwise_cons.mp (hties.sublist hsub)).1 _ List.mem_cons_self

/-- The permutation that a stable sort of numbered items shows. -/
theorem exists_arranges_of_stablySorted :
    ∃ π : Equiv.Perm (Fin n), Arranges cmp v π ∧ ∀ i : Fin n, w[i].1 = v[π i] := by
  let π : Equiv.Perm (Fin n) := Equiv.ofBijective (fun i => w[i].2)
    (Finite.injective_iff_bijective.mp (snd_injective_of_stablySorted h))
  have hfst := fst_of_stablySorted h
  refine ⟨π, ⟨fun i j hij => ?_, fun i j hij heq => ?_⟩, hfst⟩
  · have hle : (cmp w[i].1 w[j].1).isLE = true := by
      simpa using List.pairwise_iff_getElem.mp h.ascending i j (by simp) (by simp) hij
    rw [hfst i, hfst j] at hle
    exact hle
  · refine snd_lt_of_stablySorted h hij ?_
    rw [hfst i, hfst j]
    exact heq

end

/-- To sort numbered items is to sort the items. -/
theorem mergeSort_numbered {compare : Comparator ε σ α} {v : Vector α n} {s s' : σ}
    {w : Vector (α × Fin n) n}
    (hrun : mergeSort (onItem compare) n (numbered v, s) = .ok () (w, s')) :
    mergeSort compare n (v, s) = .ok () (w.map Prod.fst, s') := by
  let same : Likeness ε ε σ σ := { state := Eq, fault := Eq }
  have hc : same.Comparators (fun a p => a = p.1) compare
      (onItem compare : Comparator ε σ (α × Fin n)) := by
    rintro _ _ a b rfl rfl s _ rfl
    unfold onItem
    cases compare a.1 b.1 s with
    | ok o t => exact ⟨rfl, rfl⟩
    | error e t => exact ⟨rfl, rfl⟩
  have hstart : (same.onItems (fun a p => a = p.1) n).state (v, s) (numbered v, s) :=
    ⟨fun i hi => by simp [numbered], rfl⟩
  have hres := Likeness.alike_mergeSort hc n (v, s) (numbered v, s) hstart
  rw [hrun] at hres
  rcases hres.cases with ⟨_, _, ⟨u, t⟩, _, hok, heq, _, hu, ht⟩ | ⟨_, _, _, _, _, heq, _⟩
  · cases heq
    obtain rfl : t = s' := ht
    have hmap : u = w.map Prod.fst := Vector.ext fun i hi => by rw [hu i hi, Vector.getElem_map]
    rw [hok, hmap]
  · cases heq

/-- Merge sort is a stable sort: whatever the items, it leaves them in the one order that ascends and
keeps items that compare equal as they came. -/
theorem mergeSort_arranges {compare : Comparator ε σ α} {cmp : α → α → Ordering} [Std.TransCmp cmp]
    (hc : Decides compare cmp) (v : Vector α n) (s : σ) :
    ∃ π s', mergeSort compare n (v, s) = .ok () (arranged v π, s') ∧ Arranges cmp v π ∧
      ∀ ρ, Arranges cmp v ρ → ρ = π := by
  have htrans : Std.TransCmp fun a b : α × Fin n => cmp a.1 b.1 := transCmp_fst
  obtain ⟨_, w, s', hrun, hsorted⟩ := leads_mergeSort (decides_onItem hc) n (numbered v) s
  obtain ⟨π, hπ, hitems⟩ := exists_arranges_of_stablySorted hsorted
  have hleft : w.map Prod.fst = arranged v π := by
    refine Vector.ext fun i hi => ?_
    rw [Vector.getElem_map, arranged, Vector.getElem_ofFn]
    exact hitems ⟨i, hi⟩
  refine ⟨π, s', ?_, hπ, fun ρ hρ => hρ.unique hπ⟩
  rw [mergeSort_numbered hrun, hleft]

/-- Nine pairs are sorted by their first number, with a comparator that counts its calls. -/
theorem mergeSort_arranges_pairs :
    let compare : Comparator Unit Nat (Nat × Nat) := fun a b calls =>
      .ok (Ord.compare a.1 b.1) (calls + 1)
    let v : Vector (Nat × Nat) 9 :=
      #v[(3, 0), (1, 1), (2, 2), (1, 3), (3, 4), (2, 5), (1, 6), (0, 7), (2, 8)]
    Decides compare (fun a b => Ord.compare a.1 b.1) ∧
      ∃ π s', mergeSort compare 9 (v, 0) = .ok () (arranged v π, s') ∧
        Arranges (fun a b => Ord.compare a.1 b.1) v π ∧
        arranged v π = #v[(0, 7), (1, 1), (1, 3), (1, 6), (2, 2), (2, 5), (2, 8), (3, 0), (3, 4)] := by
  intro compare v
  have htrans : Std.TransCmp fun a b : Nat × Nat => Ord.compare a.1 b.1 :=
    { eq_swap := Std.OrientedCmp.eq_swap, isLE_trans := Std.TransCmp.isLE_trans }
  have hc : Decides compare fun a b => Ord.compare a.1 b.1 := fun a b calls => ⟨_, _, rfl, rfl⟩
  obtain ⟨π, s', hrun, hπ, _⟩ := mergeSort_arranges hc v 0
  have hleft : leftIn (mergeSort compare 9 (v, 0)) =
      #v[(0, 7), (1, 1), (1, 3), (1, 6), (2, 2), (2, 5), (2, 8), (3, 0), (3, 4)] := by
    decide +kernel
  rw [hrun] at hleft
  exact ⟨hc, π, s', hrun, hπ, hleft⟩

/-- Quicksort sorts: whatever the items, it leaves them in an order that ascends. -/
theorem quickSort_ascends {compare : Comparator ε σ α} {cmp : α → α → Ordering} [Std.TransCmp cmp]
    (hc : Decides compare cmp) (v : Vector α n) (s : σ) :
    ∃ w s', quickSort compare n (v, s) = .ok () (w, s') ∧ w.toList.Perm v.toList ∧
      Ascending cmp w.toList := by
  obtain ⟨_, w, s', hrun, hasc, hperm⟩ := leads_quickSort hc n v s
  exact ⟨w, s', hrun, hperm, hasc⟩

/-- Numbers of which some are equal to the pivot and the greatest comes first, in descending order. -/
theorem quickSort_ascends_reversed :
    let compare : Comparator Unit Nat Nat := fun a b calls => .ok (Ord.compare b a) (calls + 1)
    let v : Vector Nat 8 := #v[9, 2, 9, 0, 4, 2, 9, 1]
    Decides compare (fun a b => Ord.compare b a) ∧
      ∃ w s', quickSort compare 8 (v, 0) = .ok () (w, s') ∧ w = #v[9, 9, 9, 4, 2, 2, 1, 0] ∧
        Ascending (fun a b => Ord.compare b a) w.toList := by
  intro compare v
  have htrans : Std.TransCmp fun a b : Nat => Ord.compare b a :=
    { eq_swap := Std.OrientedCmp.eq_swap
      isLE_trans := fun hab hbc => Std.TransCmp.isLE_trans hbc hab }
  have hc : Decides compare fun a b => Ord.compare b a := fun a b calls => ⟨_, _, rfl, rfl⟩
  obtain ⟨w, s', hrun, _, hasc⟩ := quickSort_ascends hc v 0
  have hleft : leftIn (quickSort compare 8 (v, 0)) = #v[9, 9, 9, 4, 2, 2, 1, 0] := by decide +kernel
  rw [hrun] at hleft
  exact ⟨hc, w, s', hrun, hleft, hasc⟩

end Managed.Sorting
