import Mathlib.Data.Set.Function
import Mathlib.Order.Interval.Set.Defs
import Managed.Proofs.Shape

/-!
# Offsets and subscripts

Offsets and subscripts of a shape determine each other: `offset` and `subscripts` are inverse to one
another between the tuples that are in bounds and the numbers below the product of the sizes, and
offsets follow the lexicographic order of the tuples (`offset_bijOn`). Both functions go by the
strides, which are computed in words. For sizes whose product is a word the strides are the exact
products of the sizes that follow, so both agree with the exact row-major order.
-/

namespace Managed.Shape

/-- Subscripts are in bounds if there is one for each dimension, they count from 1, and none is found
to exceed its dimension. -/
def InBounds (s : Shape) (subs : List Nat) : Prop :=
  subs.length = s.rank ∧ (∀ sub ∈ subs, 1 ≤ sub) ∧ s.firstBeyond? subs = none

instance (s : Shape) : DecidablePred s.InBounds := fun subs =>
  inferInstanceAs (Decidable (subs.length = s.rank ∧ (∀ sub ∈ subs, 1 ≤ sub) ∧
    s.firstBeyond? subs = none))

theorem inBounds_iff_within {s : Shape} {subs : List Nat} :
    s.InBounds subs ↔ Within subs s.sizes := by
  constructor
  · rintro ⟨hlen, hpos, hin⟩
    exact within_of_firstBeyond? hlen hpos hin
  · intro hw
    exact ⟨hw.length_eq, hw.pos, firstBeyond?_of_within hw⟩

/-- Splitting an offset along the strides is splitting it by the exact products. -/
theorem coordinates_eq_tupleAt {sizes : List Nat} (hpos : 0 < sizes.prod)
    (h : sizes.prod < Word.card) (i : Nat) :
    coordinates (stridesOf sizes) i = tupleAt sizes i := by
  induction sizes generalizing i with
  | nil => rfl
  | cons size rest ih =>
    rw [List.prod_cons] at hpos h
    have hsize : 0 < size := Nat.pos_of_mul_pos_right hpos
    have hrest : 0 < rest.prod := Nat.pos_of_mul_pos_left hpos
    have hword : rest.prod < Word.card :=
      Nat.lt_of_le_of_lt (Nat.le_mul_of_pos_left _ hsize) h
    rw [stridesOf, coordinates, tupleAt, foldr_mul_eq_prod hrest hword, ih hrest hword]

theorem subscripts_eq_tupleAt {s : Shape} {i : Nat} (hi : i < s.sizes.prod)
    (h : s.sizes.prod < Word.card) : s.subscripts i = tupleAt s.sizes i :=
  coordinates_eq_tupleAt (Nat.zero_lt_of_lt hi) h i

section

variable {s : Shape} (h : s.sizes.prod < Word.card)
include h

theorem offset_lt {u : List Nat} (hu : s.InBounds u) : s.offset u < s.sizes.prod := by
  have hw := inBounds_iff_within.mp hu
  rw [offset_eq_rowMajor hw h]
  exact rowMajor_lt hw

theorem subscripts_offset {u : List Nat} (hu : s.InBounds u) : s.subscripts (s.offset u) = u := by
  have hw := inBounds_iff_within.mp hu
  rw [subscripts_eq_tupleAt (offset_lt h hu) h, offset_eq_rowMajor hw h, tupleAt_rowMajor hw]

theorem inBounds_subscripts {i : Nat} (hi : i < s.sizes.prod) : s.InBounds (s.subscripts i) := by
  rw [subscripts_eq_tupleAt hi h]
  exact inBounds_iff_within.mpr (rowMajor_tupleAt hi).1

theorem offset_subscripts {i : Nat} (hi : i < s.sizes.prod) : s.offset (s.subscripts i) = i := by
  rw [offset_eq_rowMajor (inBounds_iff_within.mp (inBounds_subscripts h hi)) h,
    subscripts_eq_tupleAt hi h]
  exact (rowMajor_tupleAt hi).2

theorem offset_lt_iff {u w : List Nat} (hu : s.InBounds u) (hw : s.InBounds w) :
    s.offset u < s.offset w ↔ u < w := by
  rw [inBounds_iff_within] at hu hw
  rw [offset_eq_rowMajor hu h, offset_eq_rowMajor hw h]
  exact rowMajor_lt_iff hu hw

/-- Offsets map the subscripts in bounds one-to-one onto the numbers below the product of the sizes,
if that is a word. The subscripts of an offset invert this in both directions, and offsets are in
order just if the subscripts are in lexicographic order. -/
theorem offset_bijOn :
    Set.BijOn s.offset {u | s.InBounds u} (Set.Iio s.sizes.prod) ∧
      Set.InvOn s.subscripts s.offset {u | s.InBounds u} (Set.Iio s.sizes.prod) ∧
      ∀ u w, s.InBounds u → s.InBounds w → (s.offset u < s.offset w ↔ u < w) := by
  have hinv : Set.InvOn s.subscripts s.offset {u | s.InBounds u} (Set.Iio s.sizes.prod) :=
    ⟨fun _ hu => subscripts_offset h hu, fun _ hi => offset_subscripts h hi⟩
  refine ⟨hinv.bijOn ?_ ?_, hinv, fun _ _ => offset_lt_iff h⟩
  · exact fun _ hu => offset_lt h hu
  · exact fun _ hi => inBounds_subscripts h hi

end

/-- Three dimensions of which the outer ones fill all but `2 ^ 32` of the words. -/
theorem offset_bijOn_wide :
    let s : Shape := ⟨[4294967296, 1, 4294967295]⟩
    s.sizes.prod < Word.card ∧
      Set.BijOn s.offset {u | s.InBounds u} (Set.Iio 18446744069414584320) ∧
      s.InBounds [4294967296, 1, 4294967295] ∧
      s.subscripts (s.offset [4294967296, 1, 4294967295]) = [4294967296, 1, 4294967295] ∧
      s.offset [2, 1, 4294967295] < s.offset [3, 1, 1] := by
  intro s
  have hword : s.sizes.prod < Word.card := by decide
  have hlast : s.InBounds [4294967296, 1, 4294967295] := by decide
  obtain ⟨hbij, hinv, hless⟩ := offset_bijOn hword
  refine ⟨hword, hbij, hlast, hinv.1 hlast, (hless _ _ ?_ ?_).mpr ?_⟩ <;> decide

end Managed.Shape
