import Managed.Proofs.SlotArray.Work

/-!
# Arrays slot by slot

What an operation does to an array is told slot by slot. `cell` gives the content of a slot of a
block, counted from 0 and a hole beyond the block, so that putting blocks together needs no care at
the ends. An array is `Padded` if its slots fit in the storage and all slots beyond them are holes.
Growing within the storage relies on that.
-/

namespace Managed

theorem bind_eq_ok {ε β γ : Type} {act : Except ε β} {next : β → Except ε γ} {c : γ}
    (h : act >>= next = .ok c) : ∃ b, act = .ok b ∧ next b = .ok c := by
  cases act with
  | error e => cases h
  | ok b => exact ⟨b, rfl, h⟩

namespace SlotArray

variable {α : Type}

/-! ## Blocks -/

/-- The item in the slot with index `i`, counted from 0. -/
def cell (block : Array (Option α)) (i : Nat) : Option α :=
  (block[i]?).join

theorem cell_of_size_le {block : Array (Option α)} {i : Nat} (h : block.size ≤ i) :
    cell block i = none := by
  rw [cell, Array.getElem?_eq_none h]
  rfl

theorem cell_append (b c : Array (Option α)) (i : Nat) :
    cell (b ++ c) i = if i < b.size then cell b i else cell c (i - b.size) := by
  rw [cell, Array.getElem?_append]
  split <;> rfl

theorem cell_extract (block : Array (Option α)) (start stop i : Nat) :
    cell (block.extract start stop) i = if start + i < stop then cell block (start + i) else none := by
  rw [cell, Array.getElem?_extract]
  by_cases hi : start + i < block.size
  · by_cases hs : start + i < stop
    · rw [if_pos (by omega), if_pos hs]
      rfl
    · rw [if_neg (by omega), if_neg hs]
      rfl
  · rw [if_neg (by omega), cell_of_size_le (Nat.le_of_not_lt hi)]
    split <;> rfl

theorem cell_replicate (n : Nat) (value : Option α) (i : Nat) :
    cell (Array.replicate n value) i = if i < n then value else none := by
  rw [cell, Array.getElem?_replicate]
  split <;> rfl

theorem cell_set (block : Array (Option α)) (j : Nat) (value : Option α) (i : Nat) :
    cell (block.setIfInBounds j value) i =
      if i = j ∧ i < block.size then value else cell block i := by
  rw [cell, Array.getElem?_setIfInBounds]
  by_cases hi : j = i
  · subst hi
    by_cases hlt : j < block.size
    · rw [if_pos rfl, if_pos hlt, if_pos ⟨rfl, hlt⟩]
      rfl
    · rw [if_pos rfl, if_neg hlt, if_neg fun h => hlt h.2, cell_of_size_le (Nat.le_of_not_lt hlt)]
      rfl
  · rw [if_neg hi, if_neg fun h => hi h.1.symm]
    rfl

/-- The slots from `n` on keep their content. -/
theorem cell_extract_sub (block : Array (Option α)) {n i : Nat} (h : n ≤ i) :
    cell (block.extract n) (i - n) = cell block i := by
  rw [cell_extract, Nat.add_sub_cancel' h]
  split
  · rfl
  · next hs => exact (cell_of_size_le (Nat.le_of_not_lt hs)).symm

/-! ## Counting -/

/-- The number of occupied slots. -/
def held (block : Array (Option α)) : Nat :=
  block.countP Option.isSome

theorem held_append (b c : Array (Option α)) : held (b ++ c) = held b + held c :=
  Array.countP_append

theorem held_eq_zero {block : Array (Option α)} (h : ∀ i, cell block i = none) : held block = 0 := by
  refine Array.countP_eq_zero.mpr fun slot hslot hsome => ?_
  obtain ⟨i, hi⟩ := Array.mem_iff_getElem?.mp hslot
  have hnone := h i
  rw [cell, hi, Option.join_some] at hnone
  rw [hnone] at hsome
  cases hsome

theorem held_extract {block : Array (Option α)} {i j k : Nat} (hij : i ≤ j) (hjk : j ≤ k) :
    held (block.extract i k) = held (block.extract i j) + held (block.extract j k) := by
  rw [← held_append, Array.extract_append_extract, Nat.min_eq_left hij, Nat.max_eq_right hjk]

theorem held_hole {block : Array (Option α)} {i : Nat} (h : cell block i = none) :
    held (block.extract i (i + 1)) = 0 := by
  refine held_eq_zero fun k => ?_
  rw [cell_extract]
  split
  · next hk =>
    cases (by omega : k = 0)
    exact h
  · rfl

theorem countP_isSome_congr {l m : List (Option α)}
    (h : ∀ i : Nat, (l[i]?.join).isSome = (m[i]?.join).isSome) :
    l.countP Option.isSome = m.countP Option.isSome := by
  induction l generalizing m with
  | nil =>
    refine (List.countP_eq_zero.mpr fun slot hslot hsome => ?_).symm
    obtain ⟨i, hi⟩ := List.mem_iff_getElem?.mp hslot
    have hnone := h i
    rw [hi, Option.join_some, hsome] at hnone
    cases hnone
  | cons x l ih =>
    cases m with
    | nil =>
      refine List.countP_eq_zero.mpr fun slot hslot hsome => ?_
      obtain ⟨i, hi⟩ := List.mem_iff_getElem?.mp hslot
      have hnone := h i
      rw [hi, Option.join_some, hsome] at hnone
      cases hnone
    | cons y m =>
      have hhead : x.isSome = y.isSome := h 0
      rw [List.countP_cons, List.countP_cons, ih fun i => h (i + 1), hhead]

/-- Blocks of which the same slots are occupied hold equally many items. -/
theorem held_congr {b c : Array (Option α)} (h : ∀ i, (cell b i).isSome = (cell c i).isSome) :
    held b = held c := by
  rw [held, held, ← Array.countP_toList, ← Array.countP_toList]
  refine countP_isSome_congr fun i => ?_
  rw [Array.getElem?_toList, Array.getElem?_toList]
  exact h i

/-! ## Arrays -/

def slotAt (a : SlotArray α) (i : Nat) : Option α :=
  cell a.storage i

/-- The storage holds all slots of the array, and beyond them it holds nothing. -/
structure Padded (a : SlotArray α) : Prop where
  size_le : a.size ≤ a.capacity
  spare : ∀ i, a.size ≤ i → a.slotAt i = none

theorem Padded.lt_size {a : SlotArray α} (ha : a.Padded) {i : Nat}
    (h : (a.slotAt i).isSome = true) : i < a.size := by
  apply Nat.lt_of_not_le
  intro hle
  rw [ha.spare i hle] at h
  cases h

/-- An array whose slots fill its storage. -/
theorem padded_of_size_eq {a : SlotArray α} (h : a.size = a.capacity) : a.Padded :=
  ⟨Nat.le_of_eq h, fun _ hi => cell_of_size_le (Nat.le_trans (Nat.le_of_eq h.symm) hi)⟩

theorem mem_entries {a : SlotArray α} {p : Nat} {x : α} :
    (p, x) ∈ a.entries ↔ 1 ≤ p ∧ p ≤ a.size ∧ a.slotAt (p - 1) = some x := by
  simp only [entries, List.mem_filterMap, Prod.exists, List.mk_mem_zipIdx_iff_le_and_getElem?_sub,
    Array.getElem?_toList]
  constructor
  · rintro ⟨slot, q, ⟨hq, hslot⟩, hx⟩
    obtain ⟨z, rfl, heq⟩ := Option.map_eq_some_iff.mp hx
    cases heq
    have hz : cell a.slots (p - 1) = some x := by rw [cell, hslot]; rfl
    rw [slots, cell_extract, Nat.zero_add] at hz
    split at hz
    · next hlt => exact ⟨hq, by omega, hz⟩
    · cases hz
  · rintro ⟨hpos, hle, hx⟩
    refine ⟨some x, p, ⟨hpos, ?_⟩, rfl⟩
    have hz : cell a.slots (p - 1) = some x := by
      rw [slots, cell_extract, Nat.zero_add, if_pos (by omega)]
      exact hx
    exact Option.join_eq_some_iff.mp hz

theorem mem_allItems {a : SlotArray α} {x : α} :
    x ∈ a.allItems ↔ ∃ i, i < a.size ∧ a.slotAt i = some x := by
  rw [allItems, List.mem_map]
  constructor
  · rintro ⟨⟨p, y⟩, hmem, rfl⟩
    obtain ⟨hpos, hle, hx⟩ := mem_entries.mp hmem
    exact ⟨p - 1, by omega, hx⟩
  · rintro ⟨i, hi, hx⟩
    exact ⟨(i + 1, x), mem_entries.mpr ⟨Nat.le_add_left 1 i, hi, hx⟩, rfl⟩

theorem Padded.mem_allItems {a : SlotArray α} (ha : a.Padded) {i : Nat} {x : α}
    (h : a.slotAt i = some x) : x ∈ a.allItems :=
  SlotArray.mem_allItems.mpr ⟨i, ha.lt_size (by rw [h]; rfl), h⟩

/-! ## Single slots -/

theorem slotAt_put (a : SlotArray α) (position : Nat) (value : Option α) (i : Nat) :
    (a.put position value).slotAt i =
      if i = position - 1 ∧ i < a.capacity then value else a.slotAt i :=
  cell_set a.storage (position - 1) value i

theorem capacity_put (a : SlotArray α) (position : Nat) (value : Option α) :
    (a.put position value).capacity = a.capacity :=
  Array.size_setIfInBounds

theorem padded_put {a : SlotArray α} (ha : a.Padded) {position : Nat} (value : Option α)
    (hp : position - 1 < a.size) : (a.put position value).Padded := by
  refine ⟨?_, fun i hi => ?_⟩
  · rw [capacity_put]
    exact ha.size_le
  · change a.size ≤ i at hi
    rw [slotAt_put, if_neg (by omega), ha.spare i hi]

theorem get?_eq (a : SlotArray α) {position : Nat} (hpos : 1 ≤ position) (hle : position ≤ a.size) :
    a.get? position = a.slotAt (position - 1) := by
  unfold get?
  rw [if_neg (by omega)]
  rfl

/-- Clearing a slot is putting nothing there, unless nothing is there. -/
theorem clear_cases (a : SlotArray α) (position : Nat) :
    (1 ≤ position ∧ position ≤ a.size ∧ (a.clear position).2 = a.put position none) ∨
      (a.get? position = none ∧ (a.clear position).2 = a) := by
  unfold clear
  split
  · next x hx =>
    unfold get? at hx
    split at hx
    · cases hx
    · exact Or.inl ⟨by omega, by omega, rfl⟩
  · next hnone => exact Or.inr ⟨hnone, rfl⟩

theorem capacity_clear (a : SlotArray α) (position : Nat) :
    (a.clear position).2.capacity = a.capacity ∧ (a.clear position).2.size = a.size := by
  rcases clear_cases a position with ⟨_, _, heq⟩ | ⟨_, heq⟩
  · rw [heq]
    exact ⟨capacity_put a position none, rfl⟩
  · rw [heq]
    exact ⟨rfl, rfl⟩

theorem slotAt_clear {a : SlotArray α} (ha : a.Padded) {position : Nat} (hpos : 1 ≤ position)
    (hle : position ≤ a.size) (i : Nat) :
    (a.clear position).2.slotAt i = if i = position - 1 then none else a.slotAt i := by
  have hcap := ha.size_le
  rcases clear_cases a position with ⟨_, _, heq⟩ | ⟨hnone, heq⟩
  · rw [heq, slotAt_put]
    by_cases hi : i = position - 1
    · rw [if_pos ⟨hi, by omega⟩, if_pos hi]
    · rw [if_neg fun h => hi h.1, if_neg hi]
  · rw [heq]
    split
    · next hi => rw [hi, ← get?_eq a hpos hle, hnone]
    · rfl

theorem padded_clear {a : SlotArray α} (ha : a.Padded) (position : Nat) :
    (a.clear position).2.Padded := by
  rcases clear_cases a position with ⟨hpos, hle, heq⟩ | ⟨_, heq⟩
  · rw [heq]
    exact padded_put ha none (by omega)
  · rw [heq]
    exact ha

/-! ## Whole blocks -/

/-- The first `n` slots of a block overwritten. -/
theorem cell_overlay (block : Array (Option α)) (n : Nat) (value : Option α) (i : Nat) :
    cell (Array.replicate n value ++ block.extract n) i =
      if i < n then value else cell block i := by
  rw [cell_append, cell_replicate, Array.size_replicate]
  split
  · rfl
  · next hi => exact cell_extract_sub block (Nat.le_of_not_lt hi)

theorem size_overlay {block : Array (Option α)} {n : Nat} (h : n ≤ block.size) (value : Option α) :
    (Array.replicate n value ++ block.extract n).size = block.size := by
  simp only [Array.size_append, Array.size_replicate, Array.size_extract]
  omega

/-- The slots of an array overwritten. -/
theorem padded_overlay {a b : SlotArray α} (ha : a.Padded) {value : Option α}
    (hstorage : b.storage = Array.replicate a.size value ++ a.storage.extract a.size)
    (hsize : b.size = a.size) : b.Padded := by
  refine ⟨?_, fun i hi => ?_⟩
  · rw [capacity, hstorage, size_overlay ha.size_le, hsize]
    exact ha.size_le
  · rw [hsize] at hi
    rw [slotAt, hstorage, cell_overlay, if_neg (by omega)]
    exact ha.spare i hi

/-- The same slots in a new block. -/
theorem slotAt_reallocate {a : SlotArray α} (ha : a.Padded) (capacity i : Nat) :
    (a.reallocate capacity).slotAt i = a.slotAt i := by
  have hsize : a.slots.size = a.size := by
    have hle := ha.size_le
    simp only [slots, Array.size_extract, SlotArray.capacity] at hle ⊢
    omega
  rw [slotAt, reallocate, cell_append, hsize]
  split
  · next hi =>
    rw [slots, cell_extract, Nat.zero_add, if_pos hi]
    rfl
  · next hi =>
    rw [cell_replicate, ha.spare i (Nat.le_of_not_lt hi)]
    split <;> rfl

theorem capacity_reallocate {a : SlotArray α} (h : a.size ≤ a.capacity) (capacity : Nat) :
    (a.reallocate capacity).capacity = max a.size capacity := by
  simp only [reallocate, slots, SlotArray.capacity, Array.size_append, Array.size_extract,
    Array.size_replicate] at h ⊢
  omega

/-! ## Growing -/

theorem check_eq_ok {limits : ArrayLimits} {size : Nat} {u : Unit} (h : limits.check size = .ok u) :
    size ≤ limits.maxElements := by
  unfold ArrayLimits.check at h
  split at h
  · cases h
  · next hle => exact Nat.le_of_not_lt hle

theorem le_grownCapacity {limits : ArrayLimits} {size : Nat} (hmax : size ≤ limits.maxElements)
    (hword : size ≤ Word.max) : size ≤ limits.grownCapacity size := by
  simp only [ArrayLimits.grownCapacity, Word.addSat]
  omega

theorem grownCapacity_le (limits : ArrayLimits) (size : Nat) :
    limits.grownCapacity size ≤ limits.maxElements :=
  Nat.min_le_right _ _

/-- The array in storage that has room for `size` slots. -/
def withRoom (a : SlotArray α) (size : Nat) (limits : ArrayLimits) : SlotArray α :=
  if size ≤ a.capacity then a else a.reallocate (limits.grownCapacity size)

@[simp]
theorem size_withRoom (a : SlotArray α) (size : Nat) (limits : ArrayLimits) :
    (a.withRoom size limits).size = a.size := by
  unfold withRoom
  split <;> rfl

@[simp]
theorem items_withRoom (a : SlotArray α) (size : Nat) (limits : ArrayLimits) :
    (a.withRoom size limits).items = a.items := by
  unfold withRoom
  split <;> rfl

@[simp]
theorem last_withRoom (a : SlotArray α) (size : Nat) (limits : ArrayLimits) :
    (a.withRoom size limits).last = a.last := by
  unfold withRoom
  split <;> rfl

@[simp]
theorem shape_withRoom (a : SlotArray α) (size : Nat) (limits : ArrayLimits) :
    (a.withRoom size limits).shape = a.shape := by
  unfold withRoom
  split <;> rfl

/-- The array without the storage beyond its size. -/
def trimmed (a : SlotArray α) : SlotArray α :=
  { a with storage := a.slots }

theorem ensureSpace_eq_ok {a b : SlotArray α} {size : Nat} {limits : ArrayLimits}
    (h : a.ensureSpace size limits = .ok b) : b = a.withRoom size limits := by
  rw [ensureSpace_eq] at h
  unfold withRoom
  split at h
  · next hle =>
    cases h
    exact (if_pos hle).symm
  · next hle =>
    obtain ⟨_, _, h⟩ := bind_eq_ok h
    cases h
    exact (if_neg hle).symm

theorem requireLinear_eq_ok {a : SlotArray α} {op : LinearOperation} {u : Unit}
    (h : a.requireLinear op = .ok u) : a.shape = none := by
  unfold requireLinear at h
  split at h
  · cases h
  · next hs => simpa using hs

theorem extend_eq_ok {a b : SlotArray α} {extension : Nat} {limits : ArrayLimits}
    (h : a.extend extension limits = .ok b) :
    a.shape = none ∧ Word.addSat a.size extension ≤ limits.maxElements ∧
      b = { a.withRoom (Word.addSat a.size extension) limits with
            size := Word.addSat a.size extension } := by
  rw [extend_eq] at h
  obtain ⟨_, hl, h⟩ := bind_eq_ok h
  obtain ⟨_, hc, h⟩ := bind_eq_ok h
  cases h
  exact ⟨requireLinear_eq_ok hl, check_eq_ok hc, rfl⟩

section

variable {a : SlotArray α} (ha : a.Padded) (size : Nat) (limits : ArrayLimits)
include ha

theorem slotAt_withRoom (i : Nat) : (a.withRoom size limits).slotAt i = a.slotAt i := by
  unfold withRoom
  split
  · rfl
  · exact slotAt_reallocate ha _ i

theorem le_capacity_withRoom (hmax : size ≤ limits.maxElements) (hword : size ≤ Word.max) :
    size ≤ (a.withRoom size limits).capacity := by
  unfold withRoom
  split
  · assumption
  · rw [capacity_reallocate ha.size_le]
    exact Nat.le_trans (le_grownCapacity hmax hword) (Nat.le_max_right _ _)

theorem capacity_withRoom_le {bound : Nat} (hbound : a.capacity ≤ bound)
    (hmax : limits.maxElements ≤ bound) : (a.withRoom size limits).capacity ≤ bound := by
  have hsize := ha.size_le
  have hgrown := grownCapacity_le limits size
  unfold withRoom
  split
  · exact hbound
  · rw [capacity_reallocate ha.size_le]
    omega

theorem padded_withRoom : (a.withRoom size limits).Padded := by
  refine ⟨?_, fun i hi => ?_⟩
  · rw [size_withRoom, withRoom]
    split
    · exact ha.size_le
    · rw [capacity_reallocate ha.size_le]
      exact Nat.le_max_left _ _
  · rw [slotAt_withRoom ha, ha.spare i (by rwa [size_withRoom] at hi)]

/-- Room for more items is not seen. -/
theorem trimmed_withRoom : (a.withRoom size limits).trimmed = a.trimmed := by
  have hsize : a.slots.size = a.size := by
    have hle := ha.size_le
    simp only [slots, Array.size_extract, capacity] at hle ⊢
    omega
  unfold withRoom
  split
  · rfl
  · simp only [trimmed, reallocate, mk.injEq, and_true]
    change Array.extract (a.slots ++ _) 0 a.size = a.slots
    rw [Array.extract_append, hsize]
    simp [slots]

end

theorem slotAt_extend {a b : SlotArray α} (ha : a.Padded) {extension : Nat} {limits : ArrayLimits}
    (h : a.extend extension limits = .ok b) (i : Nat) : b.slotAt i = a.slotAt i := by
  obtain ⟨_, _, rfl⟩ := extend_eq_ok h
  exact slotAt_withRoom ha _ limits i

theorem capacity_extend_le {a b : SlotArray α} (ha : a.Padded) {extension : Nat}
    {limits : ArrayLimits} (h : a.extend extension limits = .ok b) {bound : Nat}
    (hbound : a.capacity ≤ bound) (hmax : limits.maxElements ≤ bound) : b.capacity ≤ bound := by
  obtain ⟨_, _, rfl⟩ := extend_eq_ok h
  exact capacity_withRoom_le ha _ limits hbound hmax

/-- Unless the storage takes up all words, an array grows by as much as it is asked to. -/
theorem size_extend {a b : SlotArray α} (ha : a.Padded) {extension : Nat} {limits : ArrayLimits}
    (h : a.extend extension limits = .ok b) (hroom : b.capacity < Word.max) :
    b.size = a.size + extension := by
  obtain ⟨_, hmax, rfl⟩ := extend_eq_ok h
  have hle := le_capacity_withRoom ha _ limits hmax (Nat.min_le_right _ _)
  have hlt : Word.addSat a.size extension < Word.max := Nat.lt_of_le_of_lt hle hroom
  change Word.addSat a.size extension = _
  unfold Word.addSat at hlt ⊢
  omega

/-- So it does unless the limit is the largest word. -/
theorem size_extend_of_lt {a b : SlotArray α} {extension : Nat} {limits : ArrayLimits}
    (h : a.extend extension limits = .ok b) (hmax : limits.maxElements < Word.max) :
    b.size = a.size + extension := by
  obtain ⟨_, hle, rfl⟩ := extend_eq_ok h
  change Word.addSat a.size extension = _
  unfold Word.addSat at hle ⊢
  omega

theorem padded_of_size_extend {a b : SlotArray α} (ha : a.Padded) {extension : Nat}
    {limits : ArrayLimits} (h : a.extend extension limits = .ok b)
    (hsize : b.size = a.size + extension) : b.Padded := by
  refine ⟨?_, fun i hi => ?_⟩
  · obtain ⟨_, hmax, rfl⟩ := extend_eq_ok h
    exact le_capacity_withRoom ha _ limits hmax (Nat.min_le_right _ _)
  · rw [slotAt_extend ha h]
    exact ha.spare i (by omega)

theorem padded_extend {a b : SlotArray α} (ha : a.Padded) {extension : Nat} {limits : ArrayLimits}
    (h : a.extend extension limits = .ok b) (hroom : b.capacity < Word.max) : b.Padded :=
  padded_of_size_extend ha h (size_extend ha h hroom)

end SlotArray

end Managed
