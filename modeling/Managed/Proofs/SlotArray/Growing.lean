import Managed.Proofs.Runs
import Managed.Proofs.SlotArray.Sequence

/-!
# Growing keeps items at their subscripts

An array stands for a table of items by subscripts (`Tabled`). An array that grows to hold more
subscripts stands for the same table. Where it gets new dimensions in front, the old subscripts are
continued with ones (`continued`). Every slot moves to a new place then, and the places follow from the
row-major order of both shapes.
-/

namespace Managed

open Shape

namespace SlotArray

variable {α : Type}

/-! ## Copying slots -/

/-- A block into which one slot of another has been copied. -/
def copySlot (source block : Array (Option α)) (move : Nat × Nat) : Array (Option α) :=
  block.setIfInBounds move.2 (cell source move.1)

theorem foldl_copy_eq (runs : List Run) (source target : Array (Option α)) :
    runs.foldl (fun block run => run.copy source block) target =
      (runs.flatMap Run.moves).foldl (copySlot source) target := by
  rw [List.foldl_flatMap]
  congr 1
  funext block run
  rw [Run.moves, List.foldl_map]
  rfl

/-- The content of a slot to which only slots with one content are copied. -/
theorem cell_copySlots {source target : Array (Option α)} {moves : List (Nat × Nat)} {j : Nat}
    {v : Option α} (hj : j < target.size) (hsame : ∀ p ∈ moves, p.2 = j → cell source p.1 = v)
    (hv : (∃ p ∈ moves, p.2 = j) ∨ cell target j = v) :
    cell (moves.foldl (copySlot source) target) j = v := by
  induction moves generalizing target with
  | nil =>
    rcases hv with ⟨p, hp, _⟩ | hv
    · cases hp
    · exact hv
  | cons p rest ih =>
    have hcell : cell (copySlot source target p) j =
        if j = p.2 then cell source p.1 else cell target j := by
      rw [copySlot, cell_set]
      by_cases hp : j = p.2
      · rw [if_pos ⟨hp, hj⟩, if_pos hp]
      · rw [if_neg fun h => hp h.1, if_neg hp]
    refine ih (by rwa [copySlot, Array.size_setIfInBounds])
      (fun q hq => hsame q (List.mem_cons_of_mem _ hq)) ?_
    by_cases hp : j = p.2
    · right
      rw [hcell, if_pos hp]
      exact hsame p List.mem_cons_self hp.symm
    · rcases hv with ⟨q, hq, hqj⟩ | hv
      · rcases List.mem_cons.mp hq with rfl | hq
        · exact absurd hqj.symm hp
        · exact Or.inl ⟨q, hq, hqj⟩
      · right
        rw [hcell, if_neg hp, hv]

theorem cell_slots (a : SlotArray α) {i : Nat} (hi : i < a.size) : cell a.slots i = a.slotAt i := by
  rw [slots, cell_extract, Nat.zero_add, if_pos hi]
  rfl

/-- A slot of the new block has what was at its subscripts in the old one. -/
theorem slotAt_moveTo_of_within {a : SlotArray α} (ha : a.Padded) {s t : List Nat}
    (hle : List.Forall₂ (· ≤ ·) s t) (hs : a.size ≠ 0 → s.prod = a.size) (hword : a.size < Word.card)
    (ht : t.prod < Word.card) {u : List Nat} (hu : Within u t) {v : Option α}
    (hin : Within u s → a.slotAt (rowMajor s u) = v) (hout : ¬Within u s → v = none) :
    (a.moveTo ⟨s⟩ ⟨t⟩ t.prod).slotAt (rowMajor t u) = v := by
  have hempty : ∀ j, cell (Array.replicate t.prod (none : Option α)) j = none := by
    intro j
    rw [cell_replicate]
    split <;> rfl
  by_cases hsize : a.size = 0
  · have hv : v = none := by
      by_cases hu' : Within u s
      · rw [← hin hu', ha.spare _ (by omega)]
      · exact hout hu'
    simp only [slotAt, moveTo, recount, if_pos hsize]
    rw [hempty, hv]
  · have hmoves : ∀ x y, (x, y) ∈ (runs a.size ⟨s⟩ ⟨t⟩).flatMap Run.moves ↔
        ∃ w, Within w s ∧ x = rowMajor s w ∧ y = rowMajor t w := by
      intro x y
      rw [List.mem_flatMap, ← hs hsize]
      refine mem_runs_iff hle ?_ ?_ ht
      · rw [hs hsize]
        omega
      · rwa [hs hsize]
    simp only [slotAt, moveTo, recount, if_neg hsize]
    rw [foldl_copy_eq]
    refine cell_copySlots (by rw [Array.size_replicate]; exact rowMajor_lt hu) ?_ ?_
    · rintro ⟨x, y⟩ hp hy
      obtain ⟨w, hw, rfl, rfl⟩ := (hmoves x y).mp hp
      cases rowMajor_inj (hw.mono hle) hu hy
      rw [cell_slots a (by rw [← hs hsize]; exact rowMajor_lt hw)]
      exact hin hw
    · by_cases hu' : Within u s
      · exact Or.inl ⟨_, (hmoves _ _).mpr ⟨u, hu', rfl, rfl⟩, rfl⟩
      · right
        rw [hempty, hout hu']

/-! ## Arrays as tables -/

/-- An array has at the subscripts within its dimensions what the table says, and the table has nothing
elsewhere. -/
structure Tabled (a : SlotArray α) (table : List Nat → Option α) : Prop where
  inside : ∀ u, Within u a.dimensionSizes → a.slotAt (rowMajor a.dimensionSizes u) = table u
  outside : ∀ u, table u ≠ none → Within u a.dimensionSizes

/-- The table with `k` more subscripts in front, all of which are 1. -/
def continued (k : Nat) (table : List Nat → Option α) (u : List Nat) : Option α :=
  if u.take k = List.replicate k 1 then table (u.drop k) else none

theorem continued_zero (table : List Nat → Option α) : continued 0 table = table := by
  funext u
  simp [continued]

theorem continued_ones (k : Nat) (table : List Nat → Option α) (u : List Nat) :
    continued k table (List.replicate k 1 ++ u) = table u := by
  simp [continued]

theorem continued_ne_none {k : Nat} {table : List Nat → Option α} {u : List Nat}
    (h : continued k table u ≠ none) :
    ∃ w, u = List.replicate k 1 ++ w ∧ table w ≠ none := by
  unfold continued at h
  split at h
  · next hones => exact ⟨u.drop k, by rw [← hones, List.take_append_drop], h⟩
  · exact absurd rfl h

theorem Valid.size_lt {a : SlotArray α} {bound : Nat} (ha : a.Valid bound) (hbound : bound < Word.max) :
    a.size < Word.max :=
  Nat.lt_of_le_of_lt (Nat.le_trans ha.padded.size_le ha.capacity_le) hbound

/-- The sizes of two or more dimensions multiply to the size of the array, which is a word. -/
structure Sized (a : SlotArray α) : Prop where
  dimensions : ∀ s, a.shape = some s → 2 ≤ s.rank ∧ s.sizes.prod = a.size
  word : a.size < Word.card

/-- A shape too large to be counted would pass for one of as many slots as the largest word. -/
theorem Shaped.sized {a : SlotArray α} (ha : a.Shaped) (hsize : a.size < Word.max) : a.Sized where
  dimensions s hs := by
    obtain ⟨hrank, hcount⟩ := ha s hs
    refine ⟨hrank, ?_⟩
    cases hc : s.count? with
    | some n => rw [hcount, hc, Option.getD_some, prod_of_count? hc]
    | none =>
      rw [hc, Option.getD_none] at hcount
      omega
  word := Nat.lt_of_lt_of_le hsize (Nat.sub_le _ _)

theorem Valid.sized {a : SlotArray α} {bound : Nat} (ha : a.Valid bound) (hbound : bound < Word.max) :
    a.Sized :=
  ha.shaped.sized (ha.size_lt hbound)

theorem Sized.prod_dimensionSizes {a : SlotArray α} (ha : a.Sized) :
    a.dimensionSizes.prod = a.size := by
  unfold dimensionSizes
  split
  · next s hs => exact (ha.dimensions s hs).2
  · rw [List.prod_singleton]

/-! ## Growing -/

theorem tabled_extend {a b : SlotArray α} (ha : a.Padded) {extension : Nat} {limits : ArrayLimits}
    (h : a.extend extension limits = .ok b) (hmax : limits.maxElements < Word.max)
    {table : List Nat → Option α} (ht : a.Tabled table) : b.Tabled table := by
  have hsize := size_extend_of_lt h hmax
  have hold := dimensionSizes_of_linear (extend_eq_ok h).1
  have hnew := dimensionSizes_of_linear (linear_extend h)
  have hgrow : List.Forall₂ (· ≤ ·) a.dimensionSizes b.dimensionSizes := by
    rw [hold, hnew]
    exact .cons (by omega) .nil
  refine ⟨fun u hu => ?_, fun u hu => (ht.outside u hu).mono hgrow⟩
  rw [hnew] at hu ⊢
  obtain ⟨q, rfl, hpos, hle⟩ := within_singleton.mp hu
  rw [slotAt_extend ha h, rowMajor_singleton]
  by_cases hq : q ≤ a.size
  · have heq := ht.inside [q] (by rw [hold]; exact within_singleton.mpr ⟨q, rfl, hpos, hq⟩)
    rwa [hold, rowMajor_singleton] at heq
  · rw [ha.spare _ (by omega)]
    by_contra hne
    have hw := ht.outside [q] (Ne.symm hne)
    rw [hold] at hw
    exact hq hw.2.1

/-- The sizes from which an array grows to `n` dimensions. -/
def framedSizes (a : SlotArray α) (n : Nat) : List Nat :=
  List.replicate (n - a.growingSizes.length) 1 ++ a.growingSizes

theorem growingSizes_eq {a : SlotArray α} (h : a.size ≠ 0) : a.growingSizes = a.dimensionSizes := by
  cases hs : a.shape with
  | some s => rw [growingSizes, dimensionSizes, hs]
  | none => simp only [growingSizes, dimensionSizes, hs, if_neg h]

theorem framedSizes_eq {a : SlotArray α} (h : a.size ≠ 0) {n : Nat} :
    a.framedSizes n = List.replicate (n - a.dimensionCount) 1 ++ a.dimensionSizes := by
  rw [framedSizes, growingSizes_eq h, length_dimensionSizes]

theorem forall₂_zipWith_max {s subs : List Nat} (h : s.length = subs.length) :
    List.Forall₂ (· ≤ ·) s (List.zipWith Nat.max s subs) := by
  induction s generalizing subs with
  | nil => exact .nil
  | cons size s ih =>
    cases subs with
    | nil => cases h
    | cons sub subs => exact .cons (Nat.le_max_left _ _) (ih (Nat.succ.inj h))

/-- The least sizes of as many dimensions as there are subscripts that hold these and the array. -/
def coverSizes (a : SlotArray α) (subs : List Nat) : List Nat :=
  List.zipWith Nat.max (a.framedSizes subs.length) subs

theorem length_framedSizes {a : SlotArray α} {n : Nat} (h : a.growingSizes.length ≤ n) :
    (a.framedSizes n).length = n := by
  rw [framedSizes, List.length_append, List.length_replicate]
  omega

section

variable {a : SlotArray α} {subs : List Nat} (h : a.growingSizes.length ≤ subs.length)
include h

theorem length_coverSizes : (a.coverSizes subs).length = subs.length := by
  rw [coverSizes, List.length_zipWith, length_framedSizes h, Nat.min_self]

theorem forall₂_coverSizes :
    List.Forall₂ (· ≤ ·) (a.framedSizes subs.length) (a.coverSizes subs) :=
  forall₂_zipWith_max (length_framedSizes h)

end

/-- Growing fails for lack of subscripts, leaves an array alone that holds the subscripts already, or
moves it to the least shape that does. -/
theorem cover_eq_moveTo (a : SlotArray α) (subs : List Nat) (limits : ArrayLimits) :
    a.cover subs limits =
      if subs.length < a.growingSizes.length then .error (.tooFewSubscripts a.growingSizes.length)
      else if a.coverSizes subs = a.growingSizes then .ok a
      else do
        limits.check ((⟨a.coverSizes subs⟩ : Shape).count?.getD Word.max)
        return a.moveTo ⟨a.framedSizes subs.length⟩ ⟨a.coverSizes subs⟩
          ((⟨a.coverSizes subs⟩ : Shape).count?.getD Word.max) := by
  rw [cover_eq]
  dsimp only
  by_cases hlen : subs.length < a.growingSizes.length
  · rw [if_pos hlen, if_pos hlen]
  · have hsame : (a.coverSizes subs = a.framedSizes subs.length ∧
        subs.length - a.growingSizes.length = 0) ↔ a.coverSizes subs = a.growingSizes := by
      constructor
      · rintro ⟨heq, hzero⟩
        rw [heq, framedSizes, hzero]
        rfl
      · intro heq
        have hzero : subs.length - a.growingSizes.length = 0 := by
          rw [← heq, length_coverSizes (Nat.le_of_not_lt hlen), Nat.sub_self]
        refine ⟨?_, hzero⟩
        rw [heq, framedSizes, hzero]
        rfl
    rw [if_neg hlen, if_neg hlen]
    by_cases heq : a.coverSizes subs = a.growingSizes
    · rw [if_pos heq]
      exact if_pos (hsame.mpr heq)
    · rw [if_neg heq]
      exact if_neg fun h => heq (hsame.mp h)

theorem cover_cases {a b : SlotArray α} {subs : List Nat} {limits : ArrayLimits}
    (h : a.cover subs limits = .ok b) (hmax : limits.maxElements < Word.max) :
    a.growingSizes.length ≤ subs.length ∧
      (b = a ∧ a.coverSizes subs = a.growingSizes ∨
        a.coverSizes subs ≠ a.growingSizes ∧ (a.coverSizes subs).prod ≤ limits.maxElements ∧
        b = a.moveTo ⟨a.framedSizes subs.length⟩ ⟨a.coverSizes subs⟩ (a.coverSizes subs).prod) := by
  rw [cover_eq_moveTo] at h
  split at h
  · cases h
  · next hlen =>
    refine ⟨Nat.le_of_not_lt hlen, ?_⟩
    split at h
    · next heq => exact Or.inl ⟨(Except.ok.inj h).symm, heq⟩
    · next hne =>
      obtain ⟨_, hcheck, h⟩ := bind_eq_ok h
      have hle := check_eq_ok hcheck
      cases h
      refine Or.inr ⟨hne, ?_⟩
      cases hc : (⟨a.coverSizes subs⟩ : Shape).count? with
      | none =>
        rw [hc, Option.getD_none] at hle
        omega
      | some n =>
        have hn : (a.coverSizes subs).prod = n := prod_of_count? hc
        rw [hc] at hle
        rw [hn]
        exact ⟨hle, rfl⟩

/-- An array that has grown to a shape of as many dimensions as there are subscripts. -/
theorem tabled_moveTo {a b : SlotArray α} {bound : Nat} (ha : a.Valid bound) (hbound : bound < Word.max)
    {n : Nat} {t : List Nat} (hle : List.Forall₂ (· ≤ ·) (a.framedSizes n) t) (hlen : t.length = n)
    (hrank : 2 ≤ n) (ht : t.prod < Word.card) (hb : b = a.moveTo ⟨a.framedSizes n⟩ ⟨t⟩ t.prod)
    {table : List Nat → Option α} (htable : a.Tabled table) :
    b.Tabled (continued (n - a.dimensionCount) table) := by
  have hprod := (ha.sized hbound).prod_dimensionSizes
  have hword := (ha.sized hbound).word
  have hshape : b.shape = some ⟨t⟩ := by
    rw [hb]
    exact if_pos (show 1 < t.length by omega)
  have hsizes : b.dimensionSizes = t := dimensionSizes_of_shape hshape
  have hframed : ∀ u, continued (n - a.dimensionCount) table u ≠ none → Within u (a.framedSizes n) := by
    intro u hu
    obtain ⟨w, rfl, hw⟩ := continued_ne_none hu
    have hin := htable.outside w hw
    have hpos := prod_pos_of_within hin
    rw [framedSizes_eq (by omega)]
    exact within_ones.mpr ⟨w, rfl, hin⟩
  refine ⟨fun u hu => ?_, fun u hu => ?_⟩
  · rw [hsizes] at hu ⊢
    rw [hb]
    refine slotAt_moveTo_of_within ha.padded hle (fun hsize => ?_) hword ht hu (fun hin => ?_)
      fun hout => ?_
    · rw [framedSizes_eq hsize, prod_ones, hprod]
    · by_cases hsize : a.size = 0
      · -- an empty array has no slots, so nothing that the table could have comes from it
        rw [ha.padded.spare _ (by omega)]
        by_contra hne
        obtain ⟨w, _, hw⟩ := continued_ne_none (Ne.symm hne)
        have hpos := prod_pos_of_within (htable.outside w hw)
        omega
      · rw [framedSizes_eq hsize] at hin ⊢
        obtain ⟨w, rfl, hw⟩ := within_ones.mp hin
        rw [rowMajor_ones, continued_ones]
        exact htable.inside w hw
    · by_contra hne
      exact hout (hframed u hne)
  · rw [hsizes]
    exact (hframed u hu).mono hle

end SlotArray

end Managed
