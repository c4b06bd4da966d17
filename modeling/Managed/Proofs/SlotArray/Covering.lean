import Mathlib.Data.List.Sort
import Managed.Proofs.SlotArray.Table

/-!
# Growing to hold more subscripts

An array that grows to hold given subscripts gets the least dimensions that hold both them and itself.
Every slot is then found at the subscripts it had, with ones in front where dimensions were added, and
all other slots are holes (`cover_keeps_subscripts`). Slots never overtake one another, because the
places of both shapes follow the lexicographic order of the subscripts. So the list of items stays as it
was.
-/

namespace Managed

open Shape

namespace SlotArray

variable {α : Type}

/-! ## Arrays and their items -/

/-- The parts of an array agree: its slots fit in the storage and nothing lies beyond them, the number
of items and the position of the last one are right, and the sizes of two or more dimensions multiply
to its size, which is a word. -/
structure Represented (a : SlotArray α) : Prop where
  padded : a.Padded
  counted : a.Counted
  dimensions : ∀ s, a.shape = some s → 2 ≤ s.rank ∧ s.sizes.prod = a.size
  word : a.size < Word.card

theorem Valid.represented {a : SlotArray α} {bound : Nat} (ha : a.Valid bound)
    (hbound : bound < Word.max) : a.Represented :=
  ⟨ha.padded, ha.counted, (ha.sized hbound).dimensions, (ha.sized hbound).word⟩

theorem get?_succ {a : SlotArray α} (ha : a.Padded) (i : Nat) : a.get? (i + 1) = a.slotAt i := by
  by_cases hi : i < a.size
  · exact get?_eq a (Nat.le_add_left 1 i) hi
  · rw [get?, if_pos (by omega), ha.spare i (Nat.le_of_not_lt hi)]

theorem allItems_eq_filterMap (a : SlotArray α) : a.allItems = a.slots.toList.filterMap id := by
  rw [allItems, entries, List.map_filterMap]
  conv => rhs; rw [← List.zipIdx_map_fst 1 a.slots.toList, List.filterMap_map]
  congr 1
  funext p
  obtain ⟨slot, q⟩ := p
  cases slot <;> rfl

theorem allItems_eq {a : SlotArray α} (ha : a.Padded) :
    a.allItems = (List.range a.size).filterMap a.slotAt := by
  rw [allItems_eq_filterMap, toList_slots_eq_map ha, List.filterMap_map]
  rfl

theorem items_eq_length {a : SlotArray α} (ha : a.Represented) : a.items = a.allItems.length := by
  rw [allItems_eq ha.padded, ha.counted.items_eq, ← ha.padded.held_slots, held, ← Array.countP_toList,
    toList_slots_eq_map ha.padded, List.countP_map, List.length_filterMap_eq_countP]
  rfl

/-- What lies in places that are passed in order, with nothing in the other places. -/
theorem filterMap_range_eq {f g : Nat → Option α} {m n : Nat} (place : Nat → Nat)
    (hmono : ∀ i j, i < j → j < m → place i < place j) (hlt : ∀ i < m, place i < n)
    (hheld : ∀ i < m, g (place i) = f i) (helse : ∀ k, (∀ i < m, place i ≠ k) → g k = none) :
    (List.range n).filterMap g = (List.range m).filterMap f := by
  have hpassed : (List.range n).filter (fun k => decide (k ∈ (List.range m).map place)) =
      (List.range m).map place := by
    refine List.Pairwise.eq_of_mem_iff (List.pairwise_lt_range.filter _) ?_ fun k => ?_
    · refine List.pairwise_map.mpr (List.pairwise_lt_range.imp_of_mem fun _ hj hij => ?_)
      exact hmono _ _ hij (List.mem_range.mp hj)
    · rw [List.mem_filter, decide_eq_true_eq]
      refine and_iff_right_of_imp fun hk => ?_
      obtain ⟨i, hi, rfl⟩ := List.mem_map.mp hk
      exact List.mem_range.mpr (hlt i (List.mem_range.mp hi))
  calc (List.range n).filterMap g
      = ((List.range n).filter fun k => decide (k ∈ (List.range m).map place)).filterMap g := by
        rw [List.filterMap_filter]
        refine List.filterMap_congr fun k _ => ?_
        split
        · rfl
        · next hk =>
          refine helse k fun i hi heq => hk ?_
          exact decide_eq_true (List.mem_map.mpr ⟨i, List.mem_range.mpr hi, heq⟩)
    _ = (List.range m).filterMap f := by
        rw [hpassed, List.filterMap_map]
        exact List.filterMap_congr fun i hi => hheld i (List.mem_range.mp hi)

/-! ## Dimensions -/

theorem prod_growingSizes_of_forall {a : SlotArray α}
    (hprod : ∀ s, a.shape = some s → s.sizes.prod = a.size) (h : a.size ≠ 0) :
    a.growingSizes.prod = a.size := by
  rw [growingSizes_eq h]
  cases hs : a.shape with
  | none => rw [dimensionSizes_of_linear hs, List.prod_singleton]
  | some s => rw [dimensionSizes_of_shape hs, hprod s hs]

theorem prod_growingSizes {a : SlotArray α} (ha : a.Represented) (h : a.size ≠ 0) :
    a.growingSizes.prod = a.size :=
  prod_growingSizes_of_forall (fun s hs => (ha.dimensions s hs).2) h

theorem prod_growingSizes_lt {a : SlotArray α} (ha : a.Represented) :
    a.growingSizes.prod < Word.card := by
  by_cases h : a.size = 0
  · cases hs : a.shape with
    | none =>
      simp only [growingSizes, hs, if_pos h, List.prod_nil]
      decide
    | some s =>
      simp only [growingSizes, hs, (ha.dimensions s hs).2]
      exact ha.word
  · rw [prod_growingSizes ha h]
    exact ha.word

/-- An array that has moved to other sizes. A single size that is zero would count for none. -/
theorem growingSizes_moveTo (a : SlotArray α) (s : Shape) {t : List Nat} (hne : t ≠ [])
    (hpos : t.length = 1 → 0 < t.prod) : (a.moveTo s ⟨t⟩ t.prod).growingSizes = t := by
  by_cases hrank : 1 < t.length
  · have hshape : (a.moveTo s ⟨t⟩ t.prod).shape = some ⟨t⟩ := if_pos hrank
    rw [growingSizes, hshape]
  · have hshape : (a.moveTo s ⟨t⟩ t.prod).shape = none := if_neg hrank
    have hone : t.length = 1 := by
      have hlen := List.length_pos_iff.mpr hne
      omega
    have hsize : (a.moveTo s ⟨t⟩ t.prod).size = t.prod := rfl
    simp only [growingSizes, hshape, hsize]
    rw [if_neg (Nat.ne_of_gt (hpos hone))]
    obtain ⟨x, rfl⟩ := List.length_eq_one_iff.mp hone
    rw [List.prod_singleton]

/-- A single size is not zero. -/
theorem prod_growingSizes_pos {a : SlotArray α} (ha : a.Represented)
    (h : a.growingSizes.length ≤ 1) : 0 < a.growingSizes.prod := by
  by_cases hsize : a.size = 0
  · cases hs : a.shape with
    | none => simp [growingSizes, hs, hsize]
    | some s =>
      have hrank : 2 ≤ s.sizes.length := (ha.dimensions s hs).1
      rw [growingSizes, hs] at h
      exact absurd (Nat.le_trans hrank h) (by decide)
  · rw [prod_growingSizes ha hsize]
    exact Nat.pos_of_ne_zero hsize

theorem prod_framedSizes {a : SlotArray α} (ha : a.Represented) (h : a.size ≠ 0) (n : Nat) :
    (a.framedSizes n).prod = a.size := by
  rw [framedSizes, prod_ones, prod_growingSizes ha h]

theorem represented_moveTo (a : SlotArray α) (s : Shape) {t : List Nat} (ht : t.prod < Word.card) :
    (a.moveTo s ⟨t⟩ t.prod).Represented where
  padded := padded_moveTo a s ⟨t⟩ t.prod
  counted := counted_recount (padded_of_size_eq (size_eq_capacity_moveTo a s ⟨t⟩ t.prod))
  dimensions s' hs' := by
    change (if 1 < t.length then some (⟨t⟩ : Shape) else none) = some s' at hs'
    split at hs'
    · next hrank =>
      cases hs'
      exact ⟨hrank, rfl⟩
    · cases hs'
  word := ht

/-! ## Slots that keep their subscripts -/

/-- In the sizes `new` the array `b` has the slots of `a` at the subscripts they had, with `k` ones in
front, and nothing else. -/
structure Relocated (a b : SlotArray α) (k : Nat) (new : List Nat) : Prop where
  size_eq : a.size ≠ 0 → new.prod = b.size
  slot : ∀ t, Within t a.growingSizes → Within (List.replicate k 1 ++ t) new ∧
    b.slotAt (rowMajor new (List.replicate k 1 ++ t)) = a.slotAt (rowMajor a.growingSizes t)
  hole : ∀ i, (∀ t, Within t a.growingSizes → i ≠ rowMajor new (List.replicate k 1 ++ t)) →
    b.slotAt i = none

/-- A slot of an array that is not empty has subscripts. -/
theorem tupleAt_growingSizes {a : SlotArray α} (ha : a.Represented) {i : Nat} (hi : i < a.size) :
    Within (tupleAt a.growingSizes i) a.growingSizes ∧
      rowMajor a.growingSizes (tupleAt a.growingSizes i) = i :=
  rowMajor_tupleAt (by rwa [prod_growingSizes ha (by omega)])

theorem relocated_self {a : SlotArray α} (ha : a.Represented) : Relocated a a 0 a.growingSizes where
  size_eq h := prod_growingSizes ha h
  slot _ ht := ⟨ht, rfl⟩
  hole i hi := by
    apply ha.padded.spare
    apply Nat.le_of_not_lt
    intro hlt
    obtain ⟨hw, heq⟩ := tupleAt_growingSizes ha hlt
    exact hi _ hw heq.symm

theorem relocated_moveTo {a : SlotArray α} (ha : a.Represented) {subs : List Nat}
    (hlen : a.growingSizes.length ≤ subs.length) (hword : (a.coverSizes subs).prod < Word.card) :
    Relocated a (a.moveTo ⟨a.framedSizes subs.length⟩ ⟨a.coverSizes subs⟩ (a.coverSizes subs).prod)
      (subs.length - a.growingSizes.length) (a.coverSizes subs) := by
  have hle := forall₂_coverSizes hlen
  have hprod : a.size ≠ 0 → (a.framedSizes subs.length).prod = a.size :=
    fun h => prod_framedSizes ha h subs.length
  refine ⟨fun _ => rfl, fun t ht => ?_, fun i hi => ?_⟩
  · have hframed : Within (List.replicate (subs.length - a.growingSizes.length) 1 ++ t)
        (a.framedSizes subs.length) := within_ones.mpr ⟨t, rfl, ht⟩
    have hu := hframed.mono hle
    refine ⟨hu, slotAt_moveTo_of_within ha.padded hle hprod ha.word hword hu (fun _ => ?_) fun hout => ?_⟩
    · rw [framedSizes, rowMajor_ones]
    · exact absurd hframed hout
  · by_cases hlt : i < (a.coverSizes subs).prod
    · obtain ⟨hu, heq⟩ := rowMajor_tupleAt hlt
      rw [← heq]
      refine slotAt_moveTo_of_within ha.padded hle hprod ha.word hword hu (fun hin => ?_) fun _ => rfl
      -- subscripts that were within the old sizes lead to a slot that has moved here
      obtain ⟨t, htuple, ht⟩ := within_ones.mp hin
      exact absurd (by rw [← htuple, heq]) (hi t ht)
    · exact (padded_moveTo a _ _ _).spare i (Nat.le_of_not_lt hlt)

/-- Slots that keep their subscripts keep their order. -/
theorem Relocated.allItems_eq {a b : SlotArray α} {k : Nat} {new : List Nat} (h : Relocated a b k new)
    (ha : a.Represented) (hb : b.Padded) : b.allItems = a.allItems := by
  rw [SlotArray.allItems_eq ha.padded, SlotArray.allItems_eq hb]
  refine filterMap_range_eq
    (fun i => rowMajor new (List.replicate k 1 ++ tupleAt a.growingSizes i))
    (fun i j hij hj => ?_) (fun i hi => ?_) (fun i hi => ?_) fun l hl => ?_
  · obtain ⟨hwi, hi⟩ := tupleAt_growingSizes ha (Nat.lt_trans hij hj)
    obtain ⟨hwj, hj⟩ := tupleAt_growingSizes ha hj
    have hlex : tupleAt a.growingSizes i < tupleAt a.growingSizes j := by
      rw [← rowMajor_lt_iff hwi hwj, hi, hj]
      exact hij
    rw [rowMajor_lt_iff (h.slot _ hwi).1 (h.slot _ hwj).1]
    exact List.append_left_lt hlex
  · rw [← h.size_eq (by omega)]
    exact rowMajor_lt (h.slot _ (tupleAt_growingSizes ha hi).1).1
  · obtain ⟨hw, heq⟩ := tupleAt_growingSizes ha hi
    rw [(h.slot _ hw).2, heq]
  · by_cases hhole : ∃ t, Within t a.growingSizes ∧ l = rowMajor new (List.replicate k 1 ++ t)
    · obtain ⟨t, ht, rfl⟩ := hhole
      rw [(h.slot t ht).2]
      apply ha.padded.spare
      apply Nat.le_of_not_lt
      intro hlt
      exact hl _ hlt (by rw [tupleAt_rowMajor ht])
    · exact h.hole l fun t ht heq => hhole ⟨t, ht, heq⟩

theorem growingSizes_cover {a b : SlotArray α} (ha : a.Represented) {subs : List Nat}
    (hlen : a.growingSizes.length ≤ subs.length) (hne : a.coverSizes subs ≠ a.growingSizes)
    (hb : b = a.moveTo ⟨a.framedSizes subs.length⟩ ⟨a.coverSizes subs⟩ (a.coverSizes subs).prod) :
    b.growingSizes = a.coverSizes subs := by
  have hcover := length_coverSizes hlen
  rw [hb]
  refine growingSizes_moveTo a _ (fun hnil => hne ?_) fun hone => ?_
  · rw [hnil, List.length_nil] at hcover
    rw [hnil, List.length_eq_zero_iff.mp (by omega : a.growingSizes.length = 0)]
  · refine prod_pos_of_le (forall₂_coverSizes hlen) ?_
    rw [framedSizes, prod_ones]
    exact prod_growingSizes_pos ha (by omega)

/-! ## Growing -/

theorem cover_tooFew_iff {a : SlotArray α} {subs : List Nat} {limits : ArrayLimits} :
    (∃ min, a.cover subs limits = .error (.tooFewSubscripts min)) ↔
      subs.length < a.growingSizes.length := by
  rw [cover_eq_moveTo]
  constructor
  · rintro ⟨min, h⟩
    by_contra hlen
    rw [if_neg hlen] at h
    split at h
    · cases h
    · unfold ArrayLimits.check at h
      split at h <;> cases h
  · intro hlen
    exact ⟨_, if_pos hlen⟩

theorem check_isOk_iff {s : Shape} {limits : ArrayLimits} (hmax : limits.maxElements < Word.max) :
    limits.check (s.count?.getD Word.max) = .ok () ↔
      ∃ total, s.count? = some total ∧ total ≤ limits.maxElements := by
  unfold ArrayLimits.check
  cases s.count? with
  | none =>
    rw [Option.getD_none, if_pos hmax]
    constructor <;> intro h <;> simp at h
  | some total =>
    rw [Option.getD_some]
    by_cases htotal : limits.maxElements < total
    · rw [if_pos htotal]
      constructor
      · intro h
        cases h
      · rintro ⟨_, ⟨⟩, hle⟩
        omega
    · rw [if_neg htotal]
      exact ⟨fun _ => ⟨total, rfl, Nat.le_of_not_lt htotal⟩, fun _ => rfl⟩

theorem cover_isOk_iff {a : SlotArray α} {subs : List Nat} {limits : ArrayLimits}
    (hmax : limits.maxElements < Word.max) :
    (∃ b, a.cover subs limits = .ok b) ↔ a.growingSizes.length ≤ subs.length ∧
      (a.coverSizes subs = a.growingSizes ∨
        ∃ total, (⟨a.coverSizes subs⟩ : Shape).count? = some total ∧ total ≤ limits.maxElements) := by
  rw [cover_eq_moveTo, ← check_isOk_iff hmax]
  by_cases hlen : subs.length < a.growingSizes.length
  · rw [if_pos hlen]
    constructor
    · rintro ⟨b, h⟩
      cases h
    · intro h
      omega
  · rw [if_neg hlen]
    by_cases heq : a.coverSizes subs = a.growingSizes
    · rw [if_pos heq]
      exact ⟨fun _ => ⟨Nat.le_of_not_lt hlen, Or.inl heq⟩, fun _ => ⟨a, rfl⟩⟩
    · rw [if_neg heq]
      constructor
      · rintro ⟨b, h⟩
        obtain ⟨_, hcheck, _⟩ := bind_eq_ok h
        exact ⟨Nat.le_of_not_lt hlen, Or.inr hcheck⟩
      · rintro ⟨_, hsame | hcheck⟩
        · exact absurd hsame heq
        · rw [hcheck]
          exact ⟨_, rfl⟩

theorem relocated_cover {a b : SlotArray α} (ha : a.Represented) {subs : List Nat}
    {limits : ArrayLimits} (hmax : limits.maxElements < Word.max)
    (h : a.cover subs limits = .ok b) :
    b.Represented ∧ b.growingSizes = a.coverSizes subs ∧ (a.coverSizes subs).prod < Word.card ∧
      Relocated a b (subs.length - a.growingSizes.length) (a.coverSizes subs) := by
  obtain ⟨hlen, ⟨rfl, heq⟩ | ⟨hne, hprod, hb⟩⟩ := cover_cases h hmax
  · have hzero : subs.length - b.growingSizes.length = 0 := by
      rw [← heq, length_coverSizes hlen, Nat.sub_self]
    rw [hzero, heq]
    exact ⟨ha, rfl, prod_growingSizes_lt ha, relocated_self ha⟩
  · have hword : (a.coverSizes subs).prod < Word.card :=
      Nat.lt_of_le_of_lt hprod (Nat.lt_of_lt_of_le hmax (Nat.sub_le _ _))
    refine ⟨?_, growingSizes_cover ha hlen hne hb, hword, ?_⟩
    · rw [hb]
      exact represented_moveTo a _ hword
    · rw [hb]
      exact relocated_moveTo ha hlen hword

/-- An array grows to the least dimensions that hold both it and the given subscripts, if there are
enough of these and the limit allows it. Its slots are then at the subscripts they had, with ones in
front for dimensions that were added, and the others are holes. -/
theorem cover_keeps_subscripts {a : SlotArray α} (ha : a.Represented) {limits : ArrayLimits}
    (hmax : limits.maxElements < Word.max) (subs : List Nat) :
    let old := a.growingSizes
    let ones := List.replicate (subs.length - old.length) 1
    let new := List.zipWith Nat.max (ones ++ old) subs
    ((∃ min, a.cover subs limits = .error (.tooFewSubscripts min)) ↔ subs.length < old.length) ∧
    ((∃ b, a.cover subs limits = .ok b) ↔ old.length ≤ subs.length ∧
      (new = old ∨ ∃ total, (⟨new⟩ : Shape).count? = some total ∧ total ≤ limits.maxElements)) ∧
    ∀ b, a.cover subs limits = .ok b →
      b.growingSizes = new ∧
      (∀ t, Within t old →
        b.get? ((⟨new⟩ : Shape).offset (ones ++ t) + 1) = a.get? ((⟨old⟩ : Shape).offset t + 1)) ∧
      (∀ p, (∀ t, Within t old → p ≠ (⟨new⟩ : Shape).offset (ones ++ t) + 1) → b.get? p = none) ∧
      b.items = a.items ∧ b.allItems = a.allItems := by
  intro old ones new
  refine ⟨cover_tooFew_iff, cover_isOk_iff hmax, fun b hb => ?_⟩
  obtain ⟨hrep, hsizes, hword, hmoved⟩ := relocated_cover ha hmax hb
  have hplace : ∀ t, Within t old →
      (⟨new⟩ : Shape).offset (ones ++ t) = rowMajor new (ones ++ t) :=
    fun t ht => offset_eq_rowMajor (hmoved.slot t ht).1 hword
  have hitems := hmoved.allItems_eq ha hrep.padded
  refine ⟨hsizes, fun t ht => ?_, fun p hp => ?_, ?_, hitems⟩
  · have hold : (⟨old⟩ : Shape).offset t = rowMajor old t :=
      offset_eq_rowMajor (s := ⟨old⟩) ht (prod_growingSizes_lt ha)
    rw [hplace t ht, hold, get?_succ hrep.padded, get?_succ ha.padded]
    exact (hmoved.slot t ht).2
  · cases p with
    | zero => rfl
    | succ i =>
      rw [get?_succ hrep.padded]
      refine hmoved.hole i fun t ht heq => hp t ht ?_
      rw [hplace t ht]
      exact congrArg Nat.succ heq
  · rw [items_eq_length hrep, items_eq_length ha, hitems]

/-- An array of two dimensions gets a third one in front while both of its own grow. -/
theorem cover_keeps_subscripts_new_dimension :
    let limits : ArrayLimits := { maxElements := 64 }
    let a : SlotArray Nat :=
      { storage := #[none, some 7, none, none, none, some 9], size := 6, items := 2, last := 6
        shape := some ⟨[2, 3]⟩ }
    a.Represented ∧ limits.maxElements < Word.max ∧
      ∃ b, a.cover [2, 3, 4] limits = .ok b ∧ b.growingSizes = [2, 3, 4] ∧
        b.get? ((⟨[2, 3, 4]⟩ : Shape).offset [1, 2, 3] + 1) = some 9 ∧
        b.items = 2 ∧ b.allItems = [7, 9] := by
  intro limits a
  have hmax : limits.maxElements < Word.max := by decide
  have hrep : a.Represented := by
    let empty : SlotArray Nat := { storage := Array.replicate 6 none, size := 6, shape := some ⟨[2, 3]⟩ }
    have hnew : ofDimensions [2, 3] limits = .ok empty := rfl
    have hempty : Built (· = limits) empty := .ofDimensions rfl hnew
    have hbuilt : Built (· = limits) a := by
      refine .change (.put 6 (some 9)) (.change (.put 2 (some 7)) hempty ?_ ?_) ?_ ?_
      · exact ⟨by decide, by decide⟩
      · intro l hl
        cases hl
      · exact ⟨by decide, by decide⟩
      · intro l hl
        cases hl
    refine (valid_of_built hmax (fun l hl => ?_) hbuilt).represented hmax
    rw [hl]
  obtain ⟨_, hok, hcover⟩ := cover_keeps_subscripts hrep hmax [2, 3, 4]
  obtain ⟨b, hb⟩ := hok.mpr ⟨by decide, Or.inr ⟨24, by decide, by decide⟩⟩
  obtain ⟨hsizes, hslot, _, hitems, hall⟩ := hcover b hb
  have hin : Within [2, 3] [2, 3] := ⟨by decide, by decide, by decide, by decide, trivial⟩
  exact ⟨hrep, hmax, b, hb, hsizes, hslot [2, 3] hin, hitems, hall⟩

end SlotArray

end Managed
