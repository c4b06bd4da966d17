import Mathlib.Data.List.Forall2
import Managed.Proofs.Shape

/-!
# Moving the slots of a shape that grows

When no dimension gets smaller, the runs of a growing shape move every slot from its old place to the
place that its subscripts have in the new shape, and nothing else (`mem_runs_iff`). The runs are cut
along all dimensions up to the last one that grows; behind it a run is one piece.
-/

namespace Managed.Shape

/-- The slots that a run moves, each as its old and its new place. -/
def Run.moves (run : Run) : List (Nat × Nat) :=
  (List.range run.length).map fun k => (run.source + k, run.target + k)

theorem Run.mem_moves {run : Run} {x y : Nat} :
    (x, y) ∈ run.moves ↔ ∃ k < run.length, x = run.source + k ∧ y = run.target + k := by
  simp [moves, eq_comm]

/-- A run of a whole shape moves each slot along with the first. -/
theorem mem_moves_whole (sizes : List Nat) (source target : Nat) {x y : Nat} :
    (x, y) ∈ Run.moves { source, target, length := sizes.prod } ↔
      ∃ u, Within u sizes ∧ x = source + rowMajor sizes u ∧ y = target + rowMajor sizes u := by
  rw [Run.mem_moves]
  constructor
  · rintro ⟨k, hk, rfl, rfl⟩
    obtain ⟨hw, heq⟩ := rowMajor_tupleAt hk
    exact ⟨tupleAt sizes k, hw, by rw [heq], by rw [heq]⟩
  · rintro ⟨u, hw, rfl, rfl⟩
    exact ⟨rowMajor sizes u, rowMajor_lt hw, rfl, rfl⟩

theorem runsBelow_cons (size stride stride' : Nat) {dims : List (Nat × Nat × Nat)} (h : dims ≠ [])
    (source target : Nat) :
    runsBelow ((size, stride, stride') :: dims) source target =
      (List.range size).flatMap fun i =>
        runsBelow dims (Word.add source (Word.mul i stride))
          (Word.add target (Word.mul i stride')) := by
  cases dims with
  | nil => exact absurd rfl h
  | cons d dims => rfl

theorem prod_pos_of_le {s t : List Nat} (hle : List.Forall₂ (· ≤ ·) s t) (hs : 0 < s.prod) :
    0 < t.prod := by
  induction hle with
  | nil => exact hs
  | cons hhead _ ih =>
    rw [List.prod_cons] at hs ⊢
    have hsize := Nat.pos_of_mul_pos_right hs
    exact Nat.mul_pos (Nat.lt_of_lt_of_le hsize hhead) (ih (Nat.pos_of_mul_pos_left hs))

theorem Within.mono {subs s t : List Nat} (hw : Within subs s) (hle : List.Forall₂ (· ≤ ·) s t) :
    Within subs t := by
  induction hle generalizing subs with
  | nil => exact hw
  | cons hhead _ ih =>
    cases subs with
    | nil => cases hw
    | cons sub subs => exact ⟨hw.1, Nat.le_trans hw.2.1 hhead, ih hw.2.2⟩

/-- One step along a dimension stays within the words. -/
theorem add_mul_eq {base size i n : Nat} (hi : i < size) (h : base + size * n < Word.card) :
    Word.add base (Word.mul i n) = base + i * n ∧ base + i * n + n < Word.card := by
  have hstep := pred_mul_add_le (Nat.le_add_left 1 i) hi n
  rw [Nat.add_sub_cancel] at hstep
  rw [Word.mul, Nat.mod_eq_of_lt (by omega), Word.add, Nat.mod_eq_of_lt (by omega)]
  omega

theorem strides_cons {size : Nat} {sizes : List Nat} (hpos : 0 < sizes.prod)
    (h : sizes.prod < Word.card) : stridesOf (size :: sizes) = sizes.prod :: stridesOf sizes := by
  rw [stridesOf, foldr_mul_eq_prod hpos h]

theorem rowMajor_head (size size' : Nat) (sizes subs : List Nat) :
    rowMajor (size :: sizes) subs = rowMajor (size' :: sizes) subs := by
  cases subs <;> rfl

theorem mem_runsBelow_iff {s t : List Nat} (hle : List.Forall₂ (· ≤ ·) s t) {m : Nat}
    (hm : m < s.length) (htail : s.drop (m + 1) = t.drop (m + 1)) (hpos : 0 < s.prod)
    {source target : Nat} (hsource : source + s.prod < Word.card)
    (htarget : target + t.prod < Word.card) {x y : Nat} :
    (∃ run ∈ runsBelow ((s.zip ((stridesOf s).zip (stridesOf t))).take (m + 1)) source target,
      (x, y) ∈ run.moves) ↔
      ∃ u, Within u s ∧ x = source + rowMajor s u ∧ y = target + rowMajor t u := by
  induction hle generalizing m source target with
  | nil => cases hm
  | @cons size size' s t hhead hle ih =>
    rw [List.prod_cons] at hpos hsource htarget
    have hs : 0 < s.prod := Nat.pos_of_mul_pos_left hpos
    have ht : 0 < t.prod := prod_pos_of_le hle hs
    have hsize : 0 < size := Nat.pos_of_mul_pos_right hpos
    have hs_le : s.prod ≤ size * s.prod := Nat.le_mul_of_pos_left _ hsize
    have ht_le : t.prod ≤ size' * t.prod :=
      Nat.le_mul_of_pos_left _ (Nat.lt_of_lt_of_le hsize hhead)
    rw [strides_cons hs (by omega), strides_cons ht (by omega), List.zip_cons_cons,
      List.zip_cons_cons, List.take_succ_cons]
    cases m with
    | zero =>
      -- the last dimension that grows: the dimensions behind it are the same in both shapes
      cases (show s = t from htail)
      have hlength : Word.mul size s.prod = size * s.prod := Nat.mod_eq_of_lt (by omega)
      simp only [List.take_zero, runsBelow, List.mem_singleton, exists_eq_left, hlength,
        ← List.prod_cons, rowMajor_head size' size]
      exact mem_moves_whole _ source target
    | succ m =>
      have hm' : m < s.length := Nat.lt_of_succ_lt_succ hm
      have hdims : (s.zip ((stridesOf s).zip (stridesOf t))).take (m + 1) ≠ [] := by
        cases hle with
        | nil => cases hm'
        | cons => simp [stridesOf]
      have hcut : ∀ i < size,
          (∃ run ∈ runsBelow ((s.zip ((stridesOf s).zip (stridesOf t))).take (m + 1))
              (Word.add source (Word.mul i s.prod)) (Word.add target (Word.mul i t.prod)),
            (x, y) ∈ run.moves) ↔
          ∃ w, Within w s ∧ x = source + (i * s.prod + rowMajor s w) ∧
            y = target + (i * t.prod + rowMajor t w) := by
        intro i hi
        obtain ⟨hsrc, hsrc_lt⟩ := add_mul_eq hi hsource
        obtain ⟨htgt, htgt_lt⟩ := add_mul_eq (Nat.lt_of_lt_of_le hi hhead) htarget
        rw [hsrc, htgt, ih hm' htail hs hsrc_lt htgt_lt]
        simp only [Nat.add_assoc]
      rw [runsBelow_cons _ _ _ hdims]
      constructor
      · rintro ⟨run, hrun, hmem⟩
        obtain ⟨i, hi, hrun⟩ := List.mem_flatMap.mp hrun
        have hi := List.mem_range.mp hi
        obtain ⟨w, hw, rfl, rfl⟩ := (hcut i hi).mp ⟨run, hrun, hmem⟩
        refine ⟨(i + 1) :: w, ⟨Nat.le_add_left 1 i, hi, hw⟩, ?_, ?_⟩
        · rw [rowMajor, Nat.add_sub_cancel]
        · rw [rowMajor, Nat.add_sub_cancel]
      · rintro ⟨u, hu, rfl, rfl⟩
        cases u with
        | nil => cases hu
        | cons sub w =>
          obtain ⟨hone, hsub, hw⟩ := hu
          have hi : sub - 1 < size := by omega
          obtain ⟨run, hrun, hmem⟩ := (hcut (sub - 1) hi).mpr ⟨w, hw, rfl, rfl⟩
          exact ⟨run, List.mem_flatMap.mpr ⟨sub - 1, List.mem_range.mpr hi, hrun⟩, hmem⟩

/-- Lists that agree wherever the search from behind has not found a difference. -/
theorem eq_of_find?_none {s t : List Nat} (hlen : s.length = t.length)
    (h : (List.range s.length).reverse.find? (fun i => s[i]? != t[i]?) = none) : s = t := by
  apply List.ext_getElem?
  intro i
  by_cases hi : i < s.length
  · have hsame := List.find?_eq_none.mp h i (by simpa using hi)
    simpa using hsame
  · rw [List.getElem?_eq_none (by omega), List.getElem?_eq_none (by omega)]

theorem drop_eq_of_find?_some {s t : List Nat} (hlen : s.length = t.length) {last : Nat}
    (h : (List.range s.length).reverse.find? (fun i => s[i]? != t[i]?) = some last) :
    last < s.length ∧ s.drop (last + 1) = t.drop (last + 1) := by
  have hlt : last < s.length := by simpa using List.mem_of_find?_eq_some h
  obtain ⟨_, front, back, heq, hfront⟩ := List.find?_eq_some_iff_append.mp h
  refine ⟨hlt, List.ext_getElem? fun i => ?_⟩
  rw [List.getElem?_drop, List.getElem?_drop]
  by_cases hi : last + 1 + i < s.length
  · -- the search comes by this index before it comes to `last`
    have hmem : last + 1 + i ∈ front ++ last :: back := by
      rw [← heq]
      simpa using hi
    have hsorted : (front ++ last :: back).Pairwise (fun i j => j < i) := by
      rw [← heq, List.pairwise_reverse]
      exact List.pairwise_lt_range
    have hback : ∀ j ∈ back, j < last :=
      (List.pairwise_cons.mp (List.pairwise_append.mp hsorted).2.1).1
    rcases List.mem_append.mp hmem with hmem | hmem
    · simpa using hfront _ hmem
    · rcases List.mem_cons.mp hmem with hmem | hmem
      · omega
      · have hless := hback _ hmem
        omega
  · rw [List.getElem?_eq_none (by omega), List.getElem?_eq_none (by omega)]

/-- The runs move each slot of the old shape to where its subscripts lead in the new one. -/
theorem mem_runs_iff {s t : List Nat} (hle : List.Forall₂ (· ≤ ·) s t) (hpos : 0 < s.prod)
    (hs : s.prod < Word.card) (ht : t.prod < Word.card) {x y : Nat} :
    (∃ run ∈ runs s.prod ⟨s⟩ ⟨t⟩, (x, y) ∈ run.moves) ↔
      ∃ u, Within u s ∧ x = rowMajor s u ∧ y = rowMajor t u := by
  have hlen := hle.length_eq
  unfold runs
  split
  · next hnone =>
    cases eq_of_find?_none hlen hnone
    simpa only [List.mem_singleton, exists_eq_left, Nat.zero_add] using
      mem_moves_whole s 0 0
  · next last hlast =>
    obtain ⟨hlt, htail⟩ := drop_eq_of_find?_some hlen hlast
    have hiff := mem_runsBelow_iff (x := x) (y := y) hle hlt htail hpos
      (by rwa [Nat.zero_add]) (by rwa [Nat.zero_add] : 0 + t.prod < Word.card)
    simp only [Nat.zero_add] at hiff
    exact hiff

end Managed.Shape
