import Mathlib.Algebra.Group.Nat.Defs
import Managed.Shape

/-!
# Counting and addressing the slots of a shape

The count of a shape, where it is a word, is the product of its sizes (`prod_of_count?`). Subscripts
within the sizes then have their place in row-major order as offset: none of the sums and products of
the addressing wraps around (`offset_eq_rowMajor`). Each slot is the place of one tuple of subscripts
(`rowMajor_tupleAt`, `tupleAt_rowMajor`), the places follow the lexicographic order of the tuples
(`rowMajor_lt_iff`), and dimensions of size 1 in front change no place (`rowMajor_ones`).
-/

namespace Managed

theorem Word.mul?_eq_some {a b n : Nat} (h : Word.mul? a b = some n) :
    n = a * b ∧ n < Word.card := by
  unfold Word.mul? at h
  split at h
  · next hlt =>
    cases h
    exact ⟨rfl, hlt⟩
  · cases h

theorem Word.card_pos : 0 < Word.card :=
  Nat.pow_pos (by decide)

namespace Shape

theorem foldlM_mul?_eq_some {sizes : List Nat} {acc n : Nat}
    (h : sizes.foldlM Word.mul? acc = some n) :
    n = acc * sizes.prod ∧ (sizes ≠ [] → n < Word.card) := by
  induction sizes generalizing acc with
  | nil =>
    cases h
    simp
  | cons size rest ih =>
    rw [List.foldlM_cons] at h
    obtain ⟨m, hm, hrest⟩ := Option.bind_eq_some_iff.mp h
    obtain ⟨rfl, hlt⟩ := Word.mul?_eq_some hm
    obtain ⟨hn, hword⟩ := ih hrest
    refine ⟨by rw [hn, List.prod_cons, Nat.mul_assoc], fun _ => ?_⟩
    by_cases hr : rest = []
    · subst hr
      simpa [hn] using hlt
    · exact hword hr

theorem prod_of_count? {s : Shape} {n : Nat} (h : s.count? = some n) : s.sizes.prod = n := by
  have hn := (foldlM_mul?_eq_some h).1
  rw [hn, Nat.one_mul]

theorem count?_lt {s : Shape} {n : Nat} (h : s.count? = some n) : n < Word.card := by
  by_cases hs : s.sizes = []
  · have hn := prod_of_count? h
    rw [hs, List.prod_nil] at hn
    subst hn
    decide
  · exact (foldlM_mul?_eq_some h).2 hs

/-! ## Offsets -/

/-- Subscripts that are positive and do not exceed their sizes. -/
def Within : List Nat → List Nat → Prop
  | [], [] => True
  | sub :: subs, size :: sizes => 1 ≤ sub ∧ sub ≤ size ∧ Within subs sizes
  | _, _ => False

theorem prod_pos_of_within {subs sizes : List Nat} (h : Within subs sizes) : 0 < sizes.prod := by
  induction sizes generalizing subs with
  | nil => simp
  | cons size sizes ih =>
    cases subs with
    | nil => cases h
    | cons sub subs =>
      obtain ⟨hpos, hle, hrest⟩ := h
      rw [List.prod_cons]
      exact Nat.mul_pos (by omega) (ih hrest)

theorem foldr_mul_eq_prod {sizes : List Nat} (hpos : 0 < sizes.prod)
    (h : sizes.prod < Word.card) : sizes.foldr Word.mul 1 = sizes.prod := by
  induction sizes with
  | nil => rfl
  | cons size rest ih =>
    rw [List.prod_cons] at h hpos
    have hsize : 0 < size := Nat.pos_of_mul_pos_right hpos
    have hrest : 0 < rest.prod := Nat.pos_of_mul_pos_left hpos
    have hle : rest.prod ≤ size * rest.prod := Nat.le_mul_of_pos_left _ hsize
    rw [List.foldr_cons, ih hrest (Nat.lt_of_le_of_lt hle h), Word.mul, Nat.mod_eq_of_lt h,
      List.prod_cons]

/-- The place of subscripts in row-major order. -/
def rowMajor : List Nat → List Nat → Nat
  | _ :: sizes, sub :: subs => (sub - 1) * sizes.prod + rowMajor sizes subs
  | _, _ => 0

theorem pred_mul_add_le {sub size : Nat} (hpos : 1 ≤ sub) (hle : sub ≤ size) (n : Nat) :
    (sub - 1) * n + n ≤ size * n := by
  rw [← Nat.succ_mul]
  exact Nat.mul_le_mul_right _ (by omega)

theorem rowMajor_lt {subs sizes : List Nat} (hw : Within subs sizes) :
    rowMajor sizes subs < sizes.prod := by
  induction sizes generalizing subs with
  | nil =>
    rw [List.prod_nil]
    exact Nat.zero_lt_one
  | cons size rest ih =>
    cases subs with
    | nil => cases hw
    | cons sub subs =>
      obtain ⟨hpos, hle, hrest⟩ := hw
      have hlt := ih hrest
      have hstep := pred_mul_add_le hpos hle rest.prod
      rw [rowMajor, List.prod_cons]
      omega

/-- The offset along the given dimensions, added to what the dimensions before them contribute. -/
theorem foldl_offset_eq {subs sizes : List Nat} (hw : Within subs sizes) (acc : Nat)
    (h : acc + sizes.prod < Word.card) :
    (List.zipWith (fun stride sub => Word.mul (sub - 1) stride) (stridesOf sizes) subs).foldl
      Word.add acc = acc + rowMajor sizes subs := by
  induction sizes generalizing subs acc with
  | nil => simp [stridesOf, rowMajor]
  | cons size rest ih =>
    cases subs with
    | nil => cases hw
    | cons sub subs =>
      obtain ⟨hpos, hle, hrest⟩ := hw
      rw [List.prod_cons] at h
      have hone : 0 < rest.prod := prod_pos_of_within hrest
      have hstep := pred_mul_add_le hpos hle rest.prod
      have hstride : rest.foldr Word.mul 1 = rest.prod := foldr_mul_eq_prod hone (by omega)
      have hadd : Word.add acc (Word.mul (sub - 1) rest.prod) = acc + (sub - 1) * rest.prod := by
        rw [Word.mul, Nat.mod_eq_of_lt (by omega), Word.add, Nat.mod_eq_of_lt (by omega)]
      rw [stridesOf, List.zipWith_cons_cons, List.foldl_cons, hstride, hadd, ih hrest _ (by omega),
        rowMajor, Nat.add_assoc]

theorem offset_eq_rowMajor {s : Shape} {subs : List Nat} (hw : Within subs s.sizes)
    (h : s.sizes.prod < Word.card) : s.offset subs = rowMajor s.sizes subs := by
  have heq := foldl_offset_eq hw 0 (by rwa [Nat.zero_add])
  rwa [Nat.zero_add] at heq

theorem offset_lt_of_count? {s : Shape} {subs : List Nat} {n : Nat} (h : s.count? = some n)
    (hw : Within subs s.sizes) : s.offset subs < n := by
  have hprod := prod_of_count? h
  rw [offset_eq_rowMajor hw (by rw [hprod]; exact count?_lt h), ← hprod]
  exact rowMajor_lt hw

/-! ## Tuples of subscripts -/

/-- The subscripts of a place in row-major order. -/
def tupleAt : List Nat → Nat → List Nat
  | [], _ => []
  | _ :: sizes, i => (i / sizes.prod + 1) :: tupleAt sizes (i % sizes.prod)

theorem rowMajor_tupleAt {sizes : List Nat} {i : Nat} (hi : i < sizes.prod) :
    Within (tupleAt sizes i) sizes ∧ rowMajor sizes (tupleAt sizes i) = i := by
  induction sizes generalizing i with
  | nil =>
    rw [List.prod_nil] at hi
    exact ⟨trivial, (Nat.lt_one_iff.mp hi).symm⟩
  | cons size rest ih =>
    rw [List.prod_cons] at hi
    have hrest : 0 < rest.prod := Nat.pos_of_mul_pos_left (Nat.zero_lt_of_lt hi)
    obtain ⟨hw, heq⟩ := ih (Nat.mod_lt i hrest)
    refine ⟨⟨Nat.le_add_left 1 _, (Nat.div_lt_iff_lt_mul hrest).mpr hi, hw⟩, ?_⟩
    rw [tupleAt, rowMajor, heq, Nat.add_sub_cancel, Nat.mul_comm]
    exact Nat.div_add_mod i rest.prod

theorem tupleAt_rowMajor {subs sizes : List Nat} (hw : Within subs sizes) :
    tupleAt sizes (rowMajor sizes subs) = subs := by
  induction sizes generalizing subs with
  | nil =>
    cases subs with
    | nil => rfl
    | cons sub subs => cases hw
  | cons size rest ih =>
    cases subs with
    | nil => cases hw
    | cons sub subs =>
      obtain ⟨hpos, _, hrest⟩ := hw
      have hlt := rowMajor_lt hrest
      have hdiv : ((sub - 1) * rest.prod + rowMajor rest subs) / rest.prod = sub - 1 := by
        rw [Nat.mul_comm, Nat.mul_add_div (Nat.zero_lt_of_lt hlt), Nat.div_eq_of_lt hlt,
          Nat.add_zero]
      have hmod : ((sub - 1) * rest.prod + rowMajor rest subs) % rest.prod = rowMajor rest subs := by
        rw [Nat.mul_comm, Nat.mul_add_mod, Nat.mod_eq_of_lt hlt]
      rw [rowMajor, tupleAt, hdiv, hmod, ih hrest, Nat.sub_add_cancel hpos]

theorem rowMajor_inj {u w sizes : List Nat} (hu : Within u sizes) (hw : Within w sizes)
    (h : rowMajor sizes u = rowMajor sizes w) : u = w := by
  rw [← tupleAt_rowMajor hu, h, tupleAt_rowMajor hw]

/-- Row-major order is the lexicographic order of the subscripts. -/
theorem rowMajor_lt_iff {u w sizes : List Nat} (hu : Within u sizes) (hw : Within w sizes) :
    rowMajor sizes u < rowMajor sizes w ↔ u < w := by
  induction sizes generalizing u w with
  | nil =>
    cases u with
    | nil =>
      cases w with
      | nil => simp
      | cons y w => cases hw
    | cons x u => cases hu
  | cons size rest ih =>
    cases u with
    | nil => cases hu
    | cons x u =>
      cases w with
      | nil => cases hw
      | cons y w =>
        obtain ⟨hx, _, hu⟩ := hu
        obtain ⟨hy, _, hw⟩ := hw
        have hu_lt := rowMajor_lt hu
        have hw_lt := rowMajor_lt hw
        rw [rowMajor, rowMajor, List.cons_lt_cons_iff, ← ih hu hw]
        rcases Nat.lt_trichotomy x y with hlt | rfl | hgt
        · -- a row that begins earlier ends before the later one begins
          have hrow := pred_mul_add_le hx (Nat.le_sub_one_of_lt hlt) rest.prod
          omega
        · omega
        · have hrow := pred_mul_add_le hy (Nat.le_sub_one_of_lt hgt) rest.prod
          omega

theorem Within.length_eq {subs sizes : List Nat} (hw : Within subs sizes) :
    subs.length = sizes.length := by
  induction sizes generalizing subs with
  | nil =>
    cases subs with
    | nil => rfl
    | cons sub subs => cases hw
  | cons size rest ih =>
    cases subs with
    | nil => cases hw
    | cons sub subs => exact congrArg Nat.succ (ih hw.2.2)

theorem Within.pos {subs sizes : List Nat} (hw : Within subs sizes) : ∀ sub ∈ subs, 1 ≤ sub := by
  induction sizes generalizing subs with
  | nil =>
    cases subs with
    | nil => simp
    | cons sub subs => cases hw
  | cons size rest ih =>
    cases subs with
    | nil => cases hw
    | cons sub subs =>
      intro x hx
      rcases List.mem_cons.mp hx with rfl | hx
      · exact hw.1
      · exact ih hw.2.2 x hx

theorem within_singleton {subs : List Nat} {size : Nat} :
    Within subs [size] ↔ ∃ sub, subs = [sub] ∧ 1 ≤ sub ∧ sub ≤ size := by
  constructor
  · intro hw
    match subs, hw with
    | [sub], ⟨hpos, hle, _⟩ => exact ⟨sub, rfl, hpos, hle⟩
  · rintro ⟨sub, rfl, hpos, hle⟩
    exact ⟨hpos, hle, trivial⟩

theorem rowMajor_singleton (size sub : Nat) : rowMajor [size] [sub] = sub - 1 := by
  simp [rowMajor]

/-- In dimensions of size 1 the only subscript is 1. -/
theorem within_ones {k : Nat} {subs sizes : List Nat} :
    Within subs (List.replicate k 1 ++ sizes) ↔
      ∃ w, subs = List.replicate k 1 ++ w ∧ Within w sizes := by
  induction k generalizing subs with
  | zero => simp
  | succ k ih =>
    rw [List.replicate_succ, List.cons_append]
    cases subs with
    | nil => simp [Within]
    | cons sub subs =>
      rw [Within, ih]
      constructor
      · rintro ⟨hpos, hle, w, rfl, hw⟩
        exact ⟨w, by rw [Nat.le_antisymm hle hpos, List.cons_append], hw⟩
      · rintro ⟨w, heq, hw⟩
        rw [List.cons_append, List.cons.injEq] at heq
        obtain ⟨rfl, rfl⟩ := heq
        exact ⟨Nat.le_refl 1, Nat.le_refl 1, w, rfl, hw⟩

theorem rowMajor_ones (k : Nat) (subs sizes : List Nat) :
    rowMajor (List.replicate k 1 ++ sizes) (List.replicate k 1 ++ subs) = rowMajor sizes subs := by
  induction k with
  | zero => rfl
  | succ k ih =>
    rw [List.replicate_succ, List.cons_append, List.cons_append, rowMajor, ih, Nat.sub_self,
      Nat.zero_mul, Nat.zero_add]

theorem prod_ones (k : Nat) (sizes : List Nat) : (List.replicate k 1 ++ sizes).prod = sizes.prod := by
  simp

/-! ## Subscripts found to be within the sizes -/

/-- Positive subscripts, one for each dimension, are within the sizes if none is found to be beyond. -/
theorem within_of_firstBeyond? {s : Shape} {subs : List Nat} (hlen : subs.length = s.rank)
    (hpos : ∀ sub ∈ subs, 1 ≤ sub) (h : s.firstBeyond? subs = none) : Within subs s.sizes := by
  have hall := List.findIdx?_eq_none_iff.mp h
  rw [rank] at hlen
  clear h
  generalize s.sizes = sizes at hlen hall
  induction sizes generalizing subs with
  | nil =>
    cases List.length_eq_zero_iff.mp hlen
    trivial
  | cons size sizes ih =>
    cases subs with
    | nil => cases hlen
    | cons sub subs =>
      have hle := hall (sub, size) (by simp)
      refine ⟨hpos sub (by simp), by simpa using hle, ih ?_ ?_ ?_⟩
      · exact fun x hx => hpos x (List.mem_cons_of_mem _ hx)
      · exact Nat.succ.inj hlen
      · exact fun x hx => hall x (List.mem_cons_of_mem _ hx)

theorem within_zipWith_max {sizes subs : List Nat} (hlen : sizes.length = subs.length)
    (hpos : ∀ sub ∈ subs, 1 ≤ sub) : Within subs (List.zipWith Nat.max sizes subs) := by
  induction subs generalizing sizes with
  | nil =>
    rw [List.zipWith_nil_right]
    trivial
  | cons sub subs ih =>
    cases sizes with
    | nil => cases hlen
    | cons size sizes =>
      refine ⟨hpos sub List.mem_cons_self, Nat.le_max_right size sub, ih (Nat.succ.inj hlen) ?_⟩
      exact fun x hx => hpos x (List.mem_cons_of_mem _ hx)

theorem firstBeyond?_of_within {s : Shape} {subs : List Nat} (hw : Within subs s.sizes) :
    s.firstBeyond? subs = none := by
  refine List.findIdx?_eq_none_iff.mpr ?_
  generalize s.sizes = sizes at hw
  induction sizes generalizing subs with
  | nil => simp
  | cons size sizes ih =>
    cases subs with
    | nil => cases hw
    | cons sub subs =>
      intro p hp
      rcases List.mem_cons.mp hp with rfl | hp
      · simpa using hw.2.1
      · exact ih hw.2.2 p hp

/-- The position of subscripts within the sizes of a shape that can be counted. -/
theorem position_of_count? {s : Shape} {n : Nat} (hc : s.count? = some n) {subs : List Nat}
    (hw : Within subs s.sizes) :
    Word.add (s.offset subs) 1 = s.offset subs + 1 ∧ s.offset subs < n := by
  have hlt := offset_lt_of_count? hc hw
  have hn := count?_lt hc
  exact ⟨Nat.mod_eq_of_lt (by omega), hlt⟩

/-- The slot of subscripts within the sizes lies among those of the shape. A shape too large to be
counted passes for one of as many slots as the largest word. -/
theorem position_sub_one_lt {s : Shape} {subs : List Nat} (hw : Within subs s.sizes) :
    Word.add (s.offset subs) 1 - 1 < s.count?.getD Word.max := by
  cases hc : s.count? with
  | none =>
    have hlt : Word.add (s.offset subs) 1 < Word.card := Nat.mod_lt _ Word.card_pos
    have hone : 1 < Word.card := by decide
    rw [Option.getD_none, Word.max]
    omega
  | some n =>
    obtain ⟨heq, hlt⟩ := position_of_count? hc hw
    rw [Option.getD_some]
    omega

end Shape

end Managed
