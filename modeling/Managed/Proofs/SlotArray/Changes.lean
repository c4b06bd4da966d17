import Managed.Proofs.SlotArray.Slots

/-!
# What changes of an array leave in its slots

For every change that may grow or move the slots of an array: where the slots are afterwards, that the
array is still padded, and how large its storage can get. Only an array whose storage took up all
words would be asked in vain to grow, so some statements suppose that there is room left.
-/

namespace Managed.SlotArray

variable {α : Type}

/-! ## Moving to a new shape -/

theorem size_copy (run : Shape.Run) (source target : Array (Option α)) :
    (run.copy source target).size = target.size := by
  unfold Shape.Run.copy
  induction List.range run.length generalizing target with
  | nil => rfl
  | cons k rest ih => rw [List.foldl_cons, ih, Array.size_setIfInBounds]

theorem cell_copy {run : Shape.Run} {source target : Array (Option α)} {i : Nat} {x : α}
    (h : cell (run.copy source target) i = some x) :
    cell target i = some x ∨ ∃ j, cell source j = some x := by
  unfold Shape.Run.copy at h
  generalize List.range run.length = steps at h
  induction steps generalizing target with
  | nil => exact Or.inl h
  | cons k rest ih =>
    rw [List.foldl_cons] at h
    rcases ih h with h | h
    · rw [cell_set] at h
      split at h
      · exact Or.inr ⟨run.source + k, h⟩
      · exact Or.inl h
    · exact Or.inr h

theorem size_foldl_copy (runs : List Shape.Run) (source target : Array (Option α)) :
    (runs.foldl (fun block run => run.copy source block) target).size = target.size := by
  induction runs generalizing target with
  | nil => rfl
  | cons run rest ih => rw [List.foldl_cons, ih, size_copy]

theorem cell_foldl_copy {runs : List Shape.Run} {source target : Array (Option α)} {i : Nat} {x : α}
    (h : cell (runs.foldl (fun block run => run.copy source block) target) i = some x) :
    cell target i = some x ∨ ∃ j, cell source j = some x := by
  induction runs generalizing target with
  | nil => exact Or.inl h
  | cons run rest ih =>
    rw [List.foldl_cons] at h
    rcases ih h with h | h
    · exact cell_copy h
    · exact Or.inr h

theorem size_eq_capacity_moveTo (a : SlotArray α) (s t : Shape) (total : Nat) :
    (a.moveTo s t total).size = (a.moveTo s t total).capacity := by
  simp only [moveTo, recount, capacity]
  split
  · rw [Array.size_replicate]
  · rw [size_foldl_copy, Array.size_replicate]

theorem padded_moveTo (a : SlotArray α) (s t : Shape) (total : Nat) : (a.moveTo s t total).Padded :=
  padded_of_size_eq (size_eq_capacity_moveTo a s t total)

theorem slotAt_moveTo {a : SlotArray α} {s t : Shape} {total i : Nat} {x : α}
    (h : (a.moveTo s t total).slotAt i = some x) : x ∈ a.allItems := by
  simp only [slotAt, moveTo, recount] at h
  split at h
  · rw [cell_replicate] at h
    split at h <;> cases h
  · rcases cell_foldl_copy h with h | ⟨j, h⟩
    · rw [cell_replicate] at h
      split at h <;> cases h
    · rw [slots, cell_extract, Nat.zero_add] at h
      split at h
      · next hj => exact mem_allItems.mpr ⟨j, hj, h⟩
      · cases h

/-- Growing the dimensions leaves the array alone or moves it to a block of a larger shape. -/
theorem cover_eq_ok {a b : SlotArray α} {subscripts : List Nat} {limits : ArrayLimits}
    (h : a.cover subscripts limits = .ok b) :
    b = a ∨ ∃ s t, t.count?.getD Word.max ≤ limits.maxElements ∧
      b = a.moveTo s t (t.count?.getD Word.max) := by
  rw [cover_eq] at h
  dsimp only at h
  split at h
  · cases h
  · split at h
    · exact Or.inl (Except.ok.inj h).symm
    · obtain ⟨_, hc, h⟩ := bind_eq_ok h
      cases h
      exact Or.inr ⟨_, _, check_eq_ok hc, rfl⟩

/-- The dimensions, of which there are at least two, say how many slots there are. -/
def Shaped (a : SlotArray α) : Prop :=
  ∀ s, a.shape = some s → 2 ≤ s.rank ∧ a.size = s.count?.getD Word.max

theorem shaped_of_linear {a : SlotArray α} (h : a.shape = none) : a.Shaped := by
  intro s hs
  rw [h] at hs
  cases hs

theorem shaped_moveTo (a : SlotArray α) (s t : Shape) :
    (a.moveTo s t (t.count?.getD Word.max)).Shaped := by
  intro u hu
  simp only [moveTo, recount] at hu ⊢
  split at hu
  · next hrank =>
    cases hu
    exact ⟨hrank, rfl⟩
  · cases hu

theorem shaped_cover {a b : SlotArray α} (ha : a.Shaped) {subscripts : List Nat}
    {limits : ArrayLimits} (h : a.cover subscripts limits = .ok b) : b.Shaped := by
  rcases cover_eq_ok h with rfl | ⟨s, t, _, rfl⟩
  · exact ha
  · exact shaped_moveTo a s t

theorem linear_extend {a b : SlotArray α} {extension : Nat} {limits : ArrayLimits}
    (h : a.extend extension limits = .ok b) : b.shape = none := by
  obtain ⟨hl, _, rfl⟩ := extend_eq_ok h
  exact (shape_withRoom a _ limits).trans hl

theorem shaped_extend {a b : SlotArray α} {extension : Nat} {limits : ArrayLimits}
    (h : a.extend extension limits = .ok b) : b.Shaped :=
  shaped_of_linear (linear_extend h)

/-! ## The last slots -/

theorem shrink_eq_ok {a b : SlotArray α} {amount : Nat} (h : a.shrink amount = .ok b) :
    a.shape = none ∧
      b = { a.clearEach (List.range' (a.size - amount + 1) (a.size - (a.size - amount))) with
        size := a.size - amount } := by
  rw [shrink_eq] at h
  obtain ⟨_, hl, h⟩ := bind_eq_ok h
  cases h
  exact ⟨requireLinear_eq_ok hl, rfl⟩

theorem capacity_clearEach (a : SlotArray α) (positions : List Nat) :
    (a.clearEach positions).capacity = a.capacity := by
  induction positions generalizing a with
  | nil => rfl
  | cons position positions ih => exact (ih (a.clear position).2).trans (capacity_clear a position).1

theorem shape_clearEach (a : SlotArray α) (positions : List Nat) :
    (a.clearEach positions).shape = a.shape := by
  induction positions generalizing a with
  | nil => rfl
  | cons position positions ih =>
    refine (ih (a.clear position).2).trans ?_
    rcases clear_cases a position with ⟨_, _, heq⟩ | ⟨_, heq⟩
    · rw [heq]
      rfl
    · rw [heq]

theorem slotAt_clearEach {a : SlotArray α} (ha : a.Padded) {positions : List Nat}
    (hin : ∀ p ∈ positions, 1 ≤ p ∧ p ≤ a.size) (i : Nat) :
    (a.clearEach positions).slotAt i = if i + 1 ∈ positions then none else a.slotAt i := by
  induction positions generalizing a with
  | nil => rfl
  | cons position positions ih =>
    rw [List.forall_mem_cons] at hin
    obtain ⟨⟨hpos, hle⟩, hin⟩ := hin
    have hsize := (capacity_clear a position).2
    have hrest := ih (padded_clear ha position) fun p hp => by
      rw [hsize]
      exact hin p hp
    refine hrest.trans ?_
    rw [slotAt_clear ha hpos hle]
    by_cases hmem : i + 1 ∈ positions
    · rw [if_pos hmem, if_pos (List.mem_cons_of_mem _ hmem)]
    · rw [if_neg hmem]
      by_cases hi : i = position - 1
      · rw [if_pos hi, if_pos (List.mem_cons.mpr (Or.inl (by omega)))]
      · rw [if_neg hi, if_neg fun h => (List.mem_cons.mp h).elim (fun h => hi (by omega)) hmem]

section

variable {a b : SlotArray α} (ha : a.Padded) {amount : Nat} (h : a.shrink amount = .ok b)
include ha h

theorem slotAt_shrink (i : Nat) :
    b.slotAt i = if i < a.size - amount then a.slotAt i else none := by
  obtain ⟨_, rfl⟩ := shrink_eq_ok h
  have hin : ∀ p ∈ List.range' (a.size - amount + 1) (a.size - (a.size - amount)),
      1 ≤ p ∧ p ≤ a.size := by
    intro p hp
    rw [List.mem_range'_1] at hp
    omega
  refine (slotAt_clearEach ha hin i).trans ?_
  simp only [List.mem_range'_1]
  by_cases hkept : i < a.size - amount
  · rw [if_neg (by omega), if_pos hkept]
  · rw [if_neg hkept]
    split
    · rfl
    · exact ha.spare i (by omega)

omit ha in
theorem capacity_shrink : b.capacity = a.capacity := by
  obtain ⟨_, rfl⟩ := shrink_eq_ok h
  exact capacity_clearEach a _

omit ha in
theorem size_shrink : b.size = a.size - amount := by
  obtain ⟨_, rfl⟩ := shrink_eq_ok h
  rfl

theorem padded_shrink : b.Padded := by
  have hcap := capacity_shrink h
  have hsize := size_shrink h
  have hle := ha.size_le
  refine ⟨by omega, fun i hi => ?_⟩
  rw [slotAt_shrink ha h, if_neg (by omega)]

omit ha in
theorem linear_shrink : b.shape = none := by
  obtain ⟨hlinear, rfl⟩ := shrink_eq_ok h
  exact (shape_clearEach a _).trans hlinear

end

/-- Appending puts the item right after the last one, where there has to be a slot. -/
theorem append_eq_ok {a b : SlotArray α} {value : α} {limits : ArrayLimits} {position : Nat}
    (h : a.append value limits = .ok (position, b)) :
    a.shape = none ∧ position = a.last + 1 ∧
      ∃ e, (a.last < a.size ∧ e = a ∨
          a.size ≤ a.last ∧ a.extend (a.last + 1 - a.size) limits = .ok e) ∧
        b = e.put (a.last + 1) (some value) := by
  rw [append_eq] at h
  obtain ⟨_, hl, h⟩ := bind_eq_ok h
  obtain ⟨e, he, h⟩ := bind_eq_ok h
  cases h
  refine ⟨requireLinear_eq_ok hl, rfl, e, ?_, rfl⟩
  rw [growTo_eq] at he
  split at he
  · next hlt => exact Or.inr ⟨Nat.le_of_lt_succ hlt, he⟩
  · next hlt =>
    cases he
    exact Or.inl ⟨by omega, rfl⟩

/-- The array into which an appended item is put. -/
theorem padded_append {a b : SlotArray α} (ha : a.Padded) {value : α} {limits : ArrayLimits}
    {position : Nat} (h : a.append value limits = .ok (position, b))
    (hroom : b.capacity < Word.max) : b.Padded := by
  obtain ⟨_, _, e, he, rfl⟩ := append_eq_ok h
  rw [capacity_put] at hroom
  rcases he with ⟨hlt, rfl⟩ | ⟨hle, he⟩
  · exact padded_put ha _ hlt
  · refine padded_put (padded_extend ha he hroom) _ ?_
    have hsize := size_extend ha he hroom
    omega

theorem slotAt_append {a b : SlotArray α} (ha : a.Padded) {value : α} {limits : ArrayLimits}
    {position : Nat} (h : a.append value limits = .ok (position, b)) (i : Nat) :
    b.slotAt i = if i = a.last ∧ i < b.capacity then some value else a.slotAt i := by
  obtain ⟨_, _, e, he, rfl⟩ := append_eq_ok h
  rw [slotAt_put, capacity_put, Nat.add_sub_cancel]
  rcases he with ⟨_, rfl⟩ | ⟨_, he⟩
  · rfl
  · rw [slotAt_extend ha he]

theorem capacity_append_le {a b : SlotArray α} (ha : a.Padded) {value : α} {limits : ArrayLimits}
    {position : Nat} (h : a.append value limits = .ok (position, b)) {bound : Nat}
    (hbound : a.capacity ≤ bound) (hmax : limits.maxElements ≤ bound) : b.capacity ≤ bound := by
  obtain ⟨_, _, e, he, rfl⟩ := append_eq_ok h
  rw [capacity_put]
  rcases he with ⟨_, rfl⟩ | ⟨_, he⟩
  · exact hbound
  · exact capacity_extend_le ha he hbound hmax

theorem linear_append {a b : SlotArray α} {value : α} {limits : ArrayLimits} {position : Nat}
    (h : a.append value limits = .ok (position, b)) : b.shape = none := by
  obtain ⟨hlinear, _, e, he, rfl⟩ := append_eq_ok h
  rcases he with ⟨_, rfl⟩ | ⟨_, he⟩
  · exact hlinear
  · exact (linear_extend he : e.shape = none)

theorem shaped_append {a b : SlotArray α} {value : α} {limits : ArrayLimits} {position : Nat}
    (h : a.append value limits = .ok (position, b)) : b.Shaped :=
  shaped_of_linear (linear_append h)

/-! ## Slots in between -/

theorem insertPosition_pos {a : SlotArray α} {target : InsertAt} {position : Nat}
    (h : a.insertPosition target = .ok position) : 1 ≤ position := by
  cases target with
  | first =>
    cases h
    exact Nat.le_refl 1
  | last =>
    cases h
    omega
  | after p =>
    obtain ⟨_, _, h⟩ := bind_eq_ok h
    cases h
    omega

theorem openGap_eq_ok {a b : SlotArray α} {position : Nat} {limits : ArrayLimits}
    (h : a.openGap position limits = .ok b) :
    ∃ e, a.extend (Nat.max 1 (position - a.size)) limits = .ok e ∧
      (a.size < position ∧ b = e ∨ position ≤ a.size ∧ b = e.shiftUp position a.size) := by
  rw [openGap_eq] at h
  obtain ⟨e, he, h⟩ := bind_eq_ok h
  cases h
  refine ⟨e, he, ?_⟩
  split
  · next hle => exact Or.inr ⟨hle, rfl⟩
  · next hle => exact Or.inl ⟨Nat.lt_of_not_le hle, rfl⟩

/-- A block in which the slots of `[position - 1, size)` have moved up by one. -/
theorem cell_gap (block : Array (Option α)) {position size : Nat} (hpos : 1 ≤ position)
    (hle : position ≤ size) (hsize : size < block.size) (i : Nat) :
    cell (block.extract 0 (position - 1) ++ #[none] ++ block.extract (position - 1) size ++
        block.extract (size + 1)) i =
      if i < position - 1 then cell block i
      else if i = position - 1 then none
      else if i ≤ size then cell block (i - 1)
      else cell block i := by
  have hfront : (block.extract 0 (position - 1)).size = position - 1 := by
    rw [Array.size_extract]
    omega
  have hmid : (block.extract (position - 1) size).size = size - (position - 1) := by
    rw [Array.size_extract]
    omega
  have hone : (#[none] : Array (Option α)).size = 1 := rfl
  rw [cell_append, cell_append, cell_append, Array.size_append, Array.size_append, hfront, hmid, hone]
  by_cases h₁ : i < position - 1
  · rw [if_pos (by omega), if_pos (by omega), if_pos h₁, if_pos h₁, cell_extract, Nat.zero_add,
      if_pos h₁]
  · rw [if_neg h₁, if_neg h₁]
    by_cases h₂ : i = position - 1
    · rw [if_pos (by omega), if_pos (by omega), if_pos h₂, h₂, Nat.sub_self]
      rfl
    · have hlast : position - 1 + 1 + (size - (position - 1)) = size + 1 := by omega
      have hbeyond : ¬i < position - 1 + 1 := by omega
      rw [if_neg h₂, hlast]
      by_cases h₃ : i ≤ size
      · rw [if_pos (by omega), if_neg hbeyond, if_pos h₃, cell_extract, if_pos (by omega)]
        congr 1
        omega
      · rw [if_neg (by omega), if_neg h₃]
        exact cell_extract_sub block (by omega)

/-- The slot after the last one gives way to the gap. -/
theorem held_gap {block : Array (Option α)} {position size : Nat} (hle : position ≤ size)
    (hhole : cell block size = none) (hsize : size < block.size) :
    held (block.extract 0 (position - 1) ++ #[none] ++ block.extract (position - 1) size ++
        block.extract (size + 1)) = held block := by
  have hnone : held (#[none] : Array (Option α)) = 0 := rfl
  have hall : held block = held (block.extract 0 block.size) := by rw [Array.extract_size]
  rw [held_append, held_append, held_append, hnone, hall,
    held_extract (Nat.zero_le (position - 1)) (by omega : position - 1 ≤ block.size),
    held_extract (by omega : position - 1 ≤ size) (by omega : size ≤ block.size),
    held_extract (by omega : size ≤ size + 1) (by omega : size + 1 ≤ block.size), held_hole hhole]
  omega

theorem size_gap (block : Array (Option α)) {position size : Nat} (hpos : 1 ≤ position)
    (hle : position ≤ size) (hsize : size < block.size) :
    (block.extract 0 (position - 1) ++ #[none] ++ block.extract (position - 1) size ++
        block.extract (size + 1)).size = block.size := by
  simp only [Array.size_append, Array.size_extract, List.size_toArray, List.length_cons,
    List.length_nil]
  omega

/-- Opening a gap, slot by slot. The array `e` has been extended to hold one slot more. -/
structure Gapped (a e b : SlotArray α) (position : Nat) : Prop where
  size : b.size = e.size
  capacity : b.capacity = e.capacity
  shape : b.shape = e.shape
  items : b.items = e.items
  held : held b.storage = held e.storage
  last : b.last = if position ≤ a.size ∧ position ≤ e.last then e.last + 1 else e.last
  slotAt : ∀ i, b.slotAt i =
    if i < position - 1 then a.slotAt i
    else if i = position - 1 then none
    else if i ≤ a.size then a.slotAt (i - 1)
    else none

theorem gapped_openGap {a e b : SlotArray α} (ha : a.Padded) {position : Nat} {limits : ArrayLimits}
    (hpos : 1 ≤ position) (he : a.extend (Nat.max 1 (position - a.size)) limits = .ok e)
    (hsize : e.size = a.size + Nat.max 1 (position - a.size))
    (h : a.openGap position limits = .ok b) : Gapped a e b position := by
  obtain ⟨e', he', hb⟩ := openGap_eq_ok h
  rw [he] at he'
  cases he'
  have hslot := slotAt_extend ha he
  rcases hb with ⟨hlt, rfl⟩ | ⟨hle, rfl⟩
  · refine ⟨rfl, rfl, rfl, rfl, rfl, ?_, fun i => ?_⟩
    · rw [if_neg (by omega)]
    · rw [hslot]
      split
      · rfl
      · next hi =>
        rw [ha.spare i (by omega)]
        split
        · rfl
        · rw [if_neg (by omega)]
  · have hcap := (padded_of_size_extend ha he hsize).size_le
    have hmax : 1 ≤ Nat.max 1 (position - a.size) := Nat.le_max_left _ _
    have hlt : a.size < e.storage.size := by
      change e.size ≤ e.storage.size at hcap
      omega
    have hhole : cell e.storage a.size = none := (hslot a.size).trans (ha.spare _ (Nat.le_refl _))
    refine ⟨rfl, size_gap _ hpos hle hlt, rfl, rfl, held_gap hle hhole hlt, ?_, fun i => ?_⟩
    · simp [shiftUp, hle]
    · change ∀ i, cell e.storage i = cell a.storage i at hslot
      rw [SlotArray.slotAt, shiftUp, cell_gap _ hpos hle hlt, hslot, hslot]
      by_cases hi : i ≤ a.size
      · rw [if_pos hi, if_pos hi]
        rfl
      · rw [if_neg hi, if_neg hi, ← ha.spare i (by omega)]
        rfl

theorem Gapped.padded {a e b : SlotArray α} (ha : a.Padded) {position : Nat} {limits : ArrayLimits}
    (he : a.extend (Nat.max 1 (position - a.size)) limits = .ok e)
    (hsize : e.size = a.size + Nat.max 1 (position - a.size)) (hg : Gapped a e b position) :
    position ≤ b.size ∧ b.Padded := by
  have hone : 1 ≤ Nat.max 1 (position - a.size) := Nat.le_max_left _ _
  have hpos : position - a.size ≤ Nat.max 1 (position - a.size) := Nat.le_max_right _ _
  refine ⟨by rw [hg.size]; omega, ?_, fun i hi => ?_⟩
  · rw [hg.size, hg.capacity]
    exact (padded_of_size_extend ha he hsize).size_le
  · rw [hg.size] at hi
    rw [hg.slotAt, if_neg (by omega), if_neg (by omega), if_neg (by omega)]

theorem capacity_le_openGap {a e b : SlotArray α} {position : Nat}
    {limits : ArrayLimits} (he : a.extend (Nat.max 1 (position - a.size)) limits = .ok e)
    (h : a.openGap position limits = .ok b) : e.capacity ≤ b.capacity := by
  obtain ⟨e', he', hb⟩ := openGap_eq_ok h
  rw [he] at he'
  cases he'
  rcases hb with ⟨_, rfl⟩ | ⟨hle, rfl⟩
  · exact Nat.le_refl _
  · simp only [capacity, shiftUp, Array.size_append, Array.size_extract, List.size_toArray,
      List.length_cons, List.length_nil]
    omega

theorem cell_of_extract {block : Array (Option α)} {start stop i : Nat} {x : α}
    (h : cell (block.extract start stop) i = some x) : ∃ j, cell block j = some x := by
  rw [cell_extract] at h
  split at h
  · exact ⟨_, h⟩
  · cases h

/-- Whatever lies in the slots after a gap has been opened was an item of the array. -/
theorem mem_allItems_of_openGap {a b : SlotArray α} (ha : a.Padded) {position : Nat}
    {limits : ArrayLimits} (h : a.openGap position limits = .ok b) {i : Nat} {x : α}
    (hx : b.slotAt i = some x) : x ∈ a.allItems := by
  obtain ⟨e, he, hb⟩ := openGap_eq_ok h
  have hkept : ∀ j, cell e.storage j = some x → x ∈ a.allItems := by
    intro j hj
    have hslot := slotAt_extend ha he j
    exact ha.mem_allItems (hslot.symm.trans hj)
  rcases hb with ⟨_, rfl⟩ | ⟨_, rfl⟩
  · exact hkept i hx
  · obtain ⟨j, hj⟩ : ∃ j, cell e.storage j = some x := by
      simp only [slotAt, shiftUp, cell_append] at hx
      split at hx
      · split at hx
        · split at hx
          · exact cell_of_extract hx
          · rw [cell, Array.getElem?_singleton] at hx
            split at hx <;> cases hx
        · exact cell_of_extract hx
      · exact cell_of_extract hx
    exact hkept j hj

/-- An insertion opens a gap and puts the slot there. -/
theorem insert_eq_ok {a b : SlotArray α} {value : Option α} {target : InsertAt}
    {limits : ArrayLimits} {position : Nat} (h : a.insert value target limits = .ok (position, b)) :
    a.shape = none ∧ 1 ≤ position ∧
      ∃ e g, a.extend (Nat.max 1 (position - a.size)) limits = .ok e ∧
        a.openGap position limits = .ok g ∧ b = g.put position value := by
  rw [insert_eq] at h
  obtain ⟨_, hl, h⟩ := bind_eq_ok h
  obtain ⟨p, hp, h⟩ := bind_eq_ok h
  obtain ⟨g, hg, h⟩ := bind_eq_ok h
  cases h
  obtain ⟨e, he, _⟩ := openGap_eq_ok hg
  exact ⟨requireLinear_eq_ok hl, insertPosition_pos hp, e, g, he, hg, rfl⟩

theorem size_openGap {a e b : SlotArray α} {position : Nat} {limits : ArrayLimits}
    (he : a.extend (Nat.max 1 (position - a.size)) limits = .ok e)
    (h : a.openGap position limits = .ok b) : b.size = e.size := by
  obtain ⟨e', he', hb⟩ := openGap_eq_ok h
  rw [he] at he'
  cases he'
  rcases hb with ⟨_, rfl⟩ | ⟨_, rfl⟩ <;> rfl

section

variable {a b : SlotArray α} (ha : a.Padded) {value : Option α} {target : InsertAt}
  {limits : ArrayLimits} {position : Nat} (h : a.insert value target limits = .ok (position, b))
include ha h

theorem size_insert (hroom : b.capacity < Word.max) :
    b.size = a.size + Nat.max 1 (position - a.size) := by
  obtain ⟨_, _, e, g, he, hg, rfl⟩ := insert_eq_ok h
  rw [capacity_put] at hroom
  have hroom' := Nat.lt_of_le_of_lt (capacity_le_openGap he hg) hroom
  exact (size_openGap he hg).trans (size_extend ha he hroom')

omit ha in
theorem size_insert_of_lt (hmax : limits.maxElements < Word.max) :
    b.size = a.size + Nat.max 1 (position - a.size) := by
  obtain ⟨_, _, e, g, he, hg, rfl⟩ := insert_eq_ok h
  exact (size_openGap he hg).trans (size_extend_of_lt he hmax)

theorem padded_insert (hsize : b.size = a.size + Nat.max 1 (position - a.size)) : b.Padded := by
  obtain ⟨_, hpos, e, g, he, hg, rfl⟩ := insert_eq_ok h
  have hsize' := (size_openGap he hg).symm.trans hsize
  obtain ⟨hin, hpad⟩ := (gapped_openGap ha hpos he hsize' hg).padded ha he hsize'
  exact padded_put hpad value (by omega)

theorem slotAt_insert (hsize : b.size = a.size + Nat.max 1 (position - a.size)) (i : Nat) :
    b.slotAt i =
      if i < position - 1 then a.slotAt i
      else if i = position - 1 then value
      else if i ≤ a.size then a.slotAt (i - 1)
      else none := by
  obtain ⟨_, hpos, e, g, he, hg, rfl⟩ := insert_eq_ok h
  have hsize' := (size_openGap he hg).symm.trans hsize
  have hgap := gapped_openGap ha hpos he hsize' hg
  obtain ⟨hin, hpad⟩ := hgap.padded ha he hsize'
  have hcap := hpad.size_le
  rw [slotAt_put, hgap.slotAt]
  by_cases hi : i = position - 1
  · rw [if_pos ⟨hi, by omega⟩, if_neg (by omega), if_pos hi]
  · rw [if_neg fun h => hi h.1, if_neg hi, if_neg hi]

theorem capacity_insert_le {bound : Nat} (hbound : a.capacity ≤ bound)
    (hmax : limits.maxElements ≤ bound) (hword : bound < Word.max) : b.capacity ≤ bound := by
  obtain ⟨_, hpos, e, g, he, hg, rfl⟩ := insert_eq_ok h
  have hsize := size_extend_of_lt he (Nat.lt_of_le_of_lt hmax hword)
  rw [capacity_put, (gapped_openGap ha hpos he hsize hg).capacity]
  exact capacity_extend_le ha he hbound hmax

end

theorem linear_insert {a b : SlotArray α} {value : Option α} {target : InsertAt}
    {limits : ArrayLimits} {position : Nat} (h : a.insert value target limits = .ok (position, b)) :
    b.shape = none := by
  obtain ⟨_, _, e, g, he, hg, rfl⟩ := insert_eq_ok h
  obtain ⟨e', he', hb⟩ := openGap_eq_ok hg
  have hs := linear_extend he'
  rcases hb with ⟨_, rfl⟩ | ⟨_, rfl⟩
  · exact hs
  · exact hs

theorem shaped_insert {a b : SlotArray α} {value : Option α} {target : InsertAt}
    {limits : ArrayLimits} {position : Nat} (h : a.insert value target limits = .ok (position, b)) :
    b.Shaped :=
  shaped_of_linear (linear_insert h)

theorem checkPosition_eq_ok {a : SlotArray α} {position : Nat} {u : Unit}
    (h : a.checkPosition position = .ok u) : 1 ≤ position ∧ position ≤ a.size := by
  unfold checkPosition at h
  split at h
  · cases h
  · split at h
    · cases h
    · omega

/-- A block in which the slots of `[position, size)` have moved down by one. -/
theorem cell_close (block : Array (Option α)) {position size : Nat} (hpos : 1 ≤ position)
    (hle : position ≤ size) (hsize : size ≤ block.size) (i : Nat) :
    cell (block.extract 0 (position - 1) ++ block.extract position size ++ #[none] ++
        block.extract size) i =
      if i < position - 1 then cell block i
      else if i + 1 < size then cell block (i + 1)
      else if i < size then none
      else cell block i := by
  have hfront : (block.extract 0 (position - 1)).size = position - 1 := by
    rw [Array.size_extract]
    omega
  have hmid : (block.extract position size).size = size - position := by
    rw [Array.size_extract]
    omega
  have hone : (#[none] : Array (Option α)).size = 1 := rfl
  have hall : position - 1 + (size - position) + 1 = size := by omega
  rw [cell_append, cell_append, cell_append, Array.size_append, Array.size_append, hfront, hmid, hone,
    hall]
  by_cases h₁ : i < position - 1
  · rw [if_pos (by omega), if_pos (by omega), if_pos h₁, if_pos h₁, cell_extract, Nat.zero_add,
      if_pos h₁]
  · rw [if_neg h₁, if_neg h₁]
    by_cases h₂ : i + 1 < size
    · rw [if_pos (by omega), if_pos (by omega), if_pos h₂, cell_extract, if_pos (by omega)]
      congr 1
      omega
    · rw [if_neg h₂]
      by_cases h₃ : i < size
      · rw [if_pos h₃, if_pos h₃, if_neg (by omega)]
        have hlast : i - (position - 1 + (size - position)) = 0 := by omega
        rw [hlast]
        rfl
      · rw [if_neg h₃, if_neg h₃]
        exact cell_extract_sub block (by omega)

theorem size_close (block : Array (Option α)) {position size : Nat} (hpos : 1 ≤ position)
    (hle : position ≤ size) (hsize : size ≤ block.size) :
    (block.extract 0 (position - 1) ++ block.extract position size ++ #[none] ++
        block.extract size).size = block.size := by
  simp only [Array.size_append, Array.size_extract, List.size_toArray, List.length_cons,
    List.length_nil]
  omega

theorem delete_eq_ok {a b : SlotArray α} {position : Nat} {removed : Option α}
    (h : a.delete position = .ok (removed, b)) :
    a.shape = none ∧ 1 ≤ position ∧ position ≤ a.size ∧
      ∃ c, c = (a.clear position).2 ∧ b = c.shiftDown position := by
  rw [delete_eq] at h
  obtain ⟨_, hl, h⟩ := bind_eq_ok h
  obtain ⟨_, hp, h⟩ := bind_eq_ok h
  obtain ⟨hpos, hle⟩ := checkPosition_eq_ok hp
  cases h
  exact ⟨requireLinear_eq_ok hl, hpos, hle, _, rfl, rfl⟩

/-- A deletion, slot by slot: what stood in the deleted slot is gone. -/
theorem slotAt_delete {a b : SlotArray α} (ha : a.Padded) {position : Nat} {removed : Option α}
    (h : a.delete position = .ok (removed, b)) (i : Nat) :
    b.slotAt i =
      if i < position - 1 then a.slotAt i
      else if i + 1 < a.size then a.slotAt (i + 1)
      else none := by
  obtain ⟨_, hpos, hle, c, hc, rfl⟩ := delete_eq_ok h
  obtain ⟨hcap, hsize⟩ := capacity_clear a position
  have hslot := slotAt_clear ha hpos hle
  have hfit := ha.size_le
  rw [← hc] at hcap hsize hslot
  rw [← hcap] at hfit
  simp only [slotAt, shiftDown] at hslot ⊢
  rw [hsize, cell_close c.storage hpos hle hfit, hslot, hslot]
  by_cases h₁ : i < position - 1
  · rw [if_pos h₁, if_pos h₁, if_neg (by omega)]
  · rw [if_neg h₁, if_neg h₁]
    by_cases h₂ : i + 1 < a.size
    · rw [if_pos h₂, if_pos h₂, if_neg (by omega)]
    · rw [if_neg h₂, if_neg h₂]
      split
      · rfl
      · rw [if_neg (by omega)]
        exact ha.spare i (by omega)

theorem capacity_delete {a b : SlotArray α} (ha : a.Padded) {position : Nat} {removed : Option α}
    (h : a.delete position = .ok (removed, b)) : b.capacity = a.capacity ∧ b.size = a.size - 1 := by
  obtain ⟨_, hpos, hle, c, hc, rfl⟩ := delete_eq_ok h
  obtain ⟨hcap, hsize⟩ := capacity_clear a position
  have hfit := ha.size_le
  rw [← hc] at hcap hsize
  refine ⟨?_, by rw [shiftDown, hsize]⟩
  rw [← hcap] at hfit ⊢
  exact size_close c.storage hpos (by omega) (by rw [hsize]; exact hfit)

theorem padded_delete {a b : SlotArray α} (ha : a.Padded) {position : Nat} {removed : Option α}
    (h : a.delete position = .ok (removed, b)) : b.Padded := by
  obtain ⟨hcap, hsize⟩ := capacity_delete ha h
  obtain ⟨_, hpos, hle, _⟩ := delete_eq_ok h
  have hle := ha.size_le
  refine ⟨by omega, fun i hi => ?_⟩
  rw [slotAt_delete ha h, if_neg (by omega), if_neg (by omega)]

theorem linear_delete {a b : SlotArray α} {position : Nat} {removed : Option α}
    (h : a.delete position = .ok (removed, b)) : b.shape = none := by
  obtain ⟨hlinear, _, _, c, rfl, rfl⟩ := delete_eq_ok h
  rcases clear_cases a position with ⟨_, _, heq⟩ | ⟨_, heq⟩ <;> rw [heq] <;> exact hlinear

theorem shaped_delete {a b : SlotArray α} {position : Nat} {removed : Option α}
    (h : a.delete position = .ok (removed, b)) : b.Shaped :=
  shaped_of_linear (linear_delete h)

/-! ## New arrays -/

theorem ofSlots_eq_ok {slots : Array (Option α)} {limits : ArrayLimits} {b : SlotArray α}
    (h : ofSlots slots limits = .ok b) :
    slots.size ≤ limits.maxElements ∧ b = recount { size := slots.size, storage := slots } := by
  obtain ⟨_, hc, h⟩ := bind_eq_ok h
  cases h
  exact ⟨check_eq_ok hc, rfl⟩

theorem padded_ofSlots {slots : Array (Option α)} {limits : ArrayLimits} {b : SlotArray α}
    (h : ofSlots slots limits = .ok b) : b.Padded := by
  obtain ⟨_, rfl⟩ := ofSlots_eq_ok h
  exact padded_of_size_eq rfl

/-- A new array of holes. Only one that has several dimensions has a shape. -/
theorem ofDimensions_eq_ok {sizes : List Nat} {limits : ArrayLimits} {b : SlotArray α}
    (h : ofDimensions sizes limits = .ok b) :
    ∃ size shape, b = { size, storage := Array.replicate size none, shape } ∧
      size ≤ limits.maxElements ∧ b.Shaped := by
  unfold ofDimensions at h
  split at h
  · cases h
    exact ⟨0, none, rfl, Nat.zero_le _, shaped_of_linear rfl⟩
  · next size =>
    obtain ⟨_, hc, h⟩ := bind_eq_ok h
    cases h
    exact ⟨size, none, rfl, check_eq_ok hc, shaped_of_linear rfl⟩
  · next hnil hone =>
    obtain ⟨_, hc, h⟩ := bind_eq_ok h
    cases h
    refine ⟨_, _, rfl, check_eq_ok hc, ?_⟩
    rintro s ⟨⟩
    refine ⟨?_, rfl⟩
    match sizes, hnil, hone with
    | [], hnil, _ => exact absurd rfl hnil
    | [size], _, hone => exact absurd rfl (hone size)
    | _ :: _ :: _, _, _ => simp [Shape.rank]

/-- The number of slots that a slice from `start` on takes. -/
def sliceLength (a : SlotArray α) (start : Nat) (count : Option Nat) : Nat :=
  (count.map (Nat.min · (a.size - start + 1))).getD (a.size - start + 1)

theorem sliceLength_le (a : SlotArray α) (start : Nat) (count : Option Nat) :
    a.sliceLength start count ≤ a.size - start + 1 := by
  cases count with
  | none => exact Nat.le_refl _
  | some n => exact Nat.min_le_right n _

theorem sliceFrom_cases {a b : SlotArray α} {start : Nat} {count : Option Nat}
    {limits : ArrayLimits} (h : a.sliceFrom start count limits = .ok b) :
    1 ≤ start ∧
      (a.size < start ∧ b = {} ∨
        start ≤ a.size ∧
          ofSlots (a.storage.extract (start - 1) (start - 1 + a.sliceLength start count)) limits =
            .ok b) := by
  obtain ⟨_, _, h⟩ := bind_eq_ok h
  dsimp only at h
  split at h
  · cases h
  · split at h
    · next hstart hlt =>
      cases h
      exact ⟨by omega, Or.inl ⟨hlt, rfl⟩⟩
    · next hstart hle => exact ⟨by omega, Or.inr ⟨by omega, h⟩⟩

theorem sliceFrom_eq_ok {a b : SlotArray α} {start : Nat} {count : Option Nat}
    {limits : ArrayLimits} (h : a.sliceFrom start count limits = .ok b) :
    b = {} ∨ ∃ stop, stop ≤ a.size ∧ ofSlots (a.storage.extract (start - 1) stop) limits = .ok b := by
  obtain ⟨hstart, ⟨_, rfl⟩ | ⟨hle, h⟩⟩ := sliceFrom_cases h
  · exact Or.inl rfl
  · have hlength := a.sliceLength_le start count
    exact Or.inr ⟨_, by omega, h⟩

theorem join_eq_ok {a b c : SlotArray α} {limits : ArrayLimits} (h : a.join b limits = .ok c) :
    ofSlots (a.slots ++ b.slots) limits = .ok c := by
  obtain ⟨_, _, h⟩ := bind_eq_ok h
  exact h

end Managed.SlotArray
