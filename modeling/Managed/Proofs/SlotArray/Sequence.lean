import Managed.Proofs.SlotArray.Representation

/-!
# Arrays as lists of slots

An array without dimensions stands for the list of its slots, and what an operation makes of it is told
by the corresponding operation on lists (`slots_of_sequence_operations`). Whether the slots had to move
to a new block cannot be seen.
-/

namespace Managed

/-- The position of a new slot, given that of the last item. -/
def InsertAt.position (lastItem : Nat) : InsertAt → Nat
  | first => 1
  | after n => n + 1
  | last => lastItem + 1

namespace SlotArray

variable {α : Type} {a b : SlotArray α}

/-! ## The list of slots -/

theorem length_slots (ha : a.Padded) : a.slots.toList.length = a.size := by
  have hle : a.size ≤ a.storage.size := ha.size_le
  rw [slots, Array.length_toList, Array.size_extract]
  omega

theorem getElem?_slots (ha : a.Padded) (i : Nat) :
    a.slots.toList[i]? = if i < a.size then some (a.slotAt i) else none := by
  have hle : a.size ≤ a.storage.size := ha.size_le
  rw [Array.getElem?_toList, slots, Array.getElem?_extract, Nat.zero_add]
  by_cases hi : i < a.size
  · rw [if_pos (by omega), if_pos hi, slotAt, cell, Array.getElem?_eq_getElem (by omega)]
    rfl
  · rw [if_neg (by omega), if_neg hi]

theorem Counted.last_le_size (hc : a.Counted) (ha : a.Padded) : a.last ≤ a.size := by
  by_cases hzero : a.last = 0
  · omega
  · have hlt := ha.lt_size (hc.last_held hzero)
    omega

theorem toList_put (ha : a.Padded) {position : Nat} (value : Option α) (hpos : 1 ≤ position)
    (hle : position ≤ a.size) :
    (a.put position value).slots.toList = a.slots.toList.set (position - 1) value := by
  have hpad := padded_put ha value (show position - 1 < a.size by omega)
  apply List.ext_getElem?
  intro i
  rw [getElem?_slots hpad, List.getElem?_set, length_slots ha, getElem?_slots ha,
    slotAt_put_of_le ha value hpos hle]
  change (if i < a.size then _ else _) = _
  by_cases hi : position - 1 = i
  · subst hi
    rw [if_pos rfl, if_pos rfl]
  · rw [if_neg hi, if_neg (Ne.symm hi)]

/-! ## Growing and shrinking -/

theorem toList_extend (ha : a.Padded) {extension : Nat} {limits : ArrayLimits}
    (h : a.extend extension limits = .ok b) (hmax : limits.maxElements < Word.max) :
    b.slots.toList = a.slots.toList ++ List.replicate extension none := by
  have hsize := size_extend_of_lt h hmax
  apply List.ext_getElem?
  intro i
  rw [getElem?_slots (padded_of_size_extend ha h hsize), List.getElem?_append, length_slots ha,
    getElem?_slots ha, List.getElem?_replicate, slotAt_extend ha h, hsize]
  by_cases hi : i < a.size
  · rw [if_pos (by omega), if_pos hi, if_pos hi]
  · rw [if_neg hi, ha.spare i (Nat.le_of_not_lt hi)]
    by_cases hi' : i < a.size + extension
    · rw [if_pos hi', if_pos (by omega)]
    · rw [if_neg hi', if_neg (by omega)]

theorem toList_shrink (ha : a.Padded) {amount : Nat} (h : a.shrink amount = .ok b) :
    b.slots.toList = a.slots.toList.take (a.slots.toList.length - amount) := by
  apply List.ext_getElem?
  intro i
  rw [getElem?_slots (padded_shrink ha h), List.getElem?_take, length_slots ha, getElem?_slots ha,
    slotAt_shrink ha h, size_shrink h]
  by_cases hi : i < a.size - amount
  · rw [if_pos hi, if_pos hi, if_pos hi, if_pos (by omega)]
  · rw [if_neg hi, if_neg hi]

theorem toList_append (ha : a.Padded) (hc : a.Counted) {value : α} {limits : ArrayLimits}
    {position : Nat} (h : a.append value limits = .ok (position, b))
    (hmax : limits.maxElements < Word.max) :
    position = a.last + 1 ∧ position ≤ a.slots.toList.length + 1 ∧
      b.slots.toList = (a.slots.toList ++
        List.replicate (position - a.slots.toList.length) none).set (position - 1) (some value) := by
  have hlast := hc.last_le_size ha
  obtain ⟨_, rfl, e, he, rfl⟩ := append_eq_ok h
  rw [length_slots ha]
  refine ⟨rfl, by omega, ?_⟩
  rcases he with ⟨hlt, rfl⟩ | ⟨_, he⟩
  · rw [toList_put ha _ (by omega) hlt, Nat.sub_eq_zero_of_le hlt, List.replicate_zero,
      List.append_nil]
  · have hsize := size_extend_of_lt he hmax
    rw [toList_put (padded_of_size_extend ha he hsize) _ (by omega) (by omega),
      toList_extend ha he hmax]

/-! ## Inserting and deleting -/

theorem insert_position (ha : a.Padded) (hc : a.Counted) {value : Option α} {target : InsertAt}
    {limits : ArrayLimits} {position : Nat} (h : a.insert value target limits = .ok (position, b)) :
    position = target.position a.last ∧ position ≤ a.size + 1 := by
  have hlast := hc.last_le_size ha
  rw [insert_eq] at h
  obtain ⟨_, _, h⟩ := bind_eq_ok h
  obtain ⟨p, hp, h⟩ := bind_eq_ok h
  obtain ⟨_, _, h⟩ := bind_eq_ok h
  cases h
  cases target with
  | first =>
    cases hp
    exact ⟨rfl, by omega⟩
  | last =>
    cases hp
    exact ⟨rfl, by omega⟩
  | after n =>
    obtain ⟨_, hn, hp⟩ := bind_eq_ok hp
    cases hp
    exact ⟨rfl, Nat.succ_le_succ (checkPosition_eq_ok hn).2⟩

theorem toList_insert (ha : a.Padded) (hc : a.Counted) {value : Option α} {target : InsertAt}
    {limits : ArrayLimits} {position : Nat} (h : a.insert value target limits = .ok (position, b))
    (hmax : limits.maxElements < Word.max) :
    b.slots.toList = a.slots.toList.insertIdx (position - 1) value := by
  have hsize := size_insert_of_lt h hmax
  have hle := (insert_position ha hc h).2
  have hgrown : b.size = a.size + 1 := by
    change b.size = a.size + max 1 (position - a.size) at hsize
    omega
  apply List.ext_getElem?
  intro i
  rw [getElem?_slots (padded_insert ha h hsize), List.getElem?_insertIdx, length_slots ha,
    getElem?_slots ha, getElem?_slots ha, slotAt_insert ha h hsize, hgrown]
  by_cases hfront : i < position - 1
  · rw [if_pos hfront, if_pos hfront, if_pos (by omega), if_pos (by omega)]
  · rw [if_neg hfront, if_neg hfront]
    by_cases hnew : i = position - 1
    · rw [if_pos hnew, if_pos hnew, if_pos (by omega), if_pos (by omega)]
    · rw [if_neg hnew, if_neg hnew]
      by_cases hi : i ≤ a.size
      · rw [if_pos (by omega), if_pos hi, if_pos (by omega)]
      · rw [if_neg (by omega), if_neg (by omega)]

theorem clear_fst (a : SlotArray α) (position : Nat) : (a.clear position).1 = a.get? position := by
  unfold clear
  split <;> simp_all

theorem delete_of_le (hlinear : a.shape = none) {position : Nat} (hpos : 1 ≤ position)
    (hle : position ≤ a.size) : ∃ c, a.delete position = .ok (a.get? position, c) := by
  have hcheck : a.checkPosition position = .ok () := by
    rw [checkPosition, if_neg (by omega), if_neg (by omega)]
  have hrequire : a.requireLinear .delete = .ok () := by
    rw [requireLinear, hlinear]
    rfl
  rw [delete_eq, hrequire, hcheck, ← clear_fst]
  exact ⟨_, rfl⟩

theorem toList_delete (ha : a.Padded) {position : Nat} {removed : Option α}
    (h : a.delete position = .ok (removed, b)) :
    1 ≤ position ∧ a.slots.toList[position - 1]? = some removed ∧
      b.slots.toList = a.slots.toList.eraseIdx (position - 1) := by
  obtain ⟨hlinear, hpos, hle, _⟩ := delete_eq_ok h
  have hsize := (capacity_delete ha h).2
  refine ⟨hpos, ?_, ?_⟩
  · obtain ⟨c, hc⟩ := delete_of_le hlinear hpos hle
    rw [h] at hc
    cases hc
    rw [getElem?_slots ha, if_pos (by omega), get?_eq a hpos hle]
  · apply List.ext_getElem?
    intro i
    rw [getElem?_slots (padded_delete ha h), List.getElem?_eraseIdx, getElem?_slots ha,
      getElem?_slots ha, slotAt_delete ha h, hsize]
    by_cases hfront : i < position - 1
    · rw [if_pos hfront, if_pos hfront, if_pos (by omega), if_pos (by omega)]
    · rw [if_neg hfront, if_neg hfront]
      by_cases hi : i + 1 < a.size
      · rw [if_pos (by omega), if_pos hi, if_pos hi]
      · rw [if_neg (by omega), if_neg hi]

theorem delete_insert (ha : a.Padded) (hc : a.Counted) {value : Option α} {target : InsertAt}
    {limits : ArrayLimits} {position : Nat} (h : a.insert value target limits = .ok (position, b))
    (hmax : limits.maxElements < Word.max) :
    ∃ c, b.delete position = .ok (value, c) ∧ c.slots.toList = a.slots.toList := by
  obtain ⟨_, hpos, _⟩ := insert_eq_ok h
  have hle := (insert_position ha hc h).2
  have hsize := size_insert_of_lt h hmax
  have hpad := padded_insert ha h hsize
  have hin : position ≤ b.size := by
    change b.size = a.size + max 1 (position - a.size) at hsize
    omega
  obtain ⟨c, hdelete⟩ := delete_of_le (linear_insert h) hpos hin
  have hvalue : b.get? position = value := by
    rw [get?_eq b hpos hin, slotAt_insert ha h hsize, if_neg (Nat.lt_irrefl _), if_pos rfl]
  rw [hvalue] at hdelete
  refine ⟨c, hdelete, ?_⟩
  rw [(toList_delete hpad hdelete).2.2, toList_insert ha hc h hmax, List.eraseIdx_insertIdx_self]

/-! ## Parts and wholes -/

theorem toList_ofSlots {slots : Array (Option α)} {limits : ArrayLimits}
    (h : ofSlots slots limits = .ok b) : b.slots.toList = slots.toList := by
  obtain ⟨_, rfl⟩ := ofSlots_eq_ok h
  change (slots.extract 0 slots.size).toList = _
  rw [Array.extract_size]

theorem toList_slots (a : SlotArray α) : a.slots.toList = a.storage.toList.take a.size := by
  rw [slots, Array.toList_extract, List.extract_eq_take_drop, List.drop_zero, Nat.sub_zero]

theorem toList_sliceFrom {start : Nat} {count : Option Nat} {limits : ArrayLimits}
    (h : a.sliceFrom start count limits = .ok b) :
    1 ≤ start ∧
      b.slots.toList = count.elim (a.slots.toList.drop (start - 1)) fun n =>
        (a.slots.toList.drop (start - 1)).take n := by
  obtain ⟨hstart, ⟨hlt, rfl⟩ | ⟨hle, h⟩⟩ := sliceFrom_cases h
  · refine ⟨hstart, ?_⟩
    have hnil : a.slots.toList.drop (start - 1) = [] := by
      refine List.drop_eq_nil_of_le ?_
      rw [toList_slots, List.length_take]
      omega
    rw [hnil]
    cases count with
    | none => rfl
    | some n => exact List.take_nil.symm
  · refine ⟨hstart, ?_⟩
    have hrest : a.size - (start - 1) = a.size - start + 1 := by omega
    rw [toList_ofSlots h, Array.toList_extract, List.extract_eq_take_drop, Nat.add_sub_cancel_left,
      toList_slots, List.drop_take, hrest]
    cases count with
    | none => rfl
    | some n => exact List.take_take.symm

theorem toList_join {c : SlotArray α} {limits : ArrayLimits} (h : a.join b limits = .ok c) :
    c.slots.toList = a.slots.toList ++ b.slots.toList := by
  rw [toList_ofSlots (join_eq_ok h), Array.toList_append]

/-- On arrays without dimensions the operations are those on lists of slots. An inserted slot comes
before the one that was at its position, and deleting it again restores the list. Appending overwrites
the slot after the last item, which may be a hole at the end of the array or have to be added to it.
Joining takes arrays of any dimensions. -/
theorem slots_of_sequence_operations {bound : Nat} (ha : a.Valid bound) {limits : ArrayLimits}
    (hmax : limits.maxElements < Word.max) :
    let L := a.slots.toList
    (∀ v target p b, a.insert v target limits = .ok (p, b) →
      p = target.position a.last ∧ p ≤ L.length + 1 ∧ b.slots.toList = L.insertIdx (p - 1) v ∧
      ∃ c, b.delete p = .ok (v, c) ∧ c.slots.toList = L) ∧
    (∀ p removed b, a.delete p = .ok (removed, b) →
      1 ≤ p ∧ L[p - 1]? = some removed ∧ b.slots.toList = L.eraseIdx (p - 1)) ∧
    (∀ v p b, a.append v limits = .ok (p, b) →
      p = a.last + 1 ∧ p ≤ L.length + 1 ∧
      b.slots.toList = (L ++ List.replicate (p - L.length) none).set (p - 1) (some v)) ∧
    (∀ n b, a.extend n limits = .ok b → b.slots.toList = L ++ List.replicate n none) ∧
    (∀ n b, a.shrink n = .ok b → b.slots.toList = L.take (L.length - n)) ∧
    (∀ start count b, a.sliceFrom start count limits = .ok b →
      1 ≤ start ∧
      b.slots.toList = count.elim (L.drop (start - 1)) fun n => (L.drop (start - 1)).take n) ∧
    ∀ b c, a.join b limits = .ok c → c.slots.toList = L ++ b.slots.toList := by
  intro L
  obtain ⟨hpad, hcount, _, _⟩ := ha
  refine ⟨fun v target p b h => ?_, fun p removed b h => toList_delete hpad h,
    fun v p b h => toList_append hpad hcount h hmax, fun n b h => toList_extend hpad h hmax,
    fun n b h => toList_shrink hpad h, fun start count b h => toList_sliceFrom h,
    fun b c h => toList_join h⟩
  obtain ⟨hp, hle⟩ := insert_position hpad hcount h
  have hlength : p ≤ L.length + 1 := by
    rw [length_slots hpad]
    exact hle
  exact ⟨hp, hlength, toList_insert hpad hcount h hmax, delete_insert hpad hcount h hmax⟩

/-- A slot is inserted in an array that was shrunk and has a spare slot, and then deleted. -/
theorem slots_of_sequence_operations_shrunk :
    let limits : ArrayLimits := { maxElements := 8 }
    let a : SlotArray Nat :=
      { storage := #[some 1, none, some 3, none, none], size := 4, items := 2, last := 3 }
    a.Valid 8 ∧ limits.maxElements < Word.max ∧
      ∃ b, a.insert (some 9) (.after 1) limits = .ok (2, b) ∧
        b.slots.toList = [some 1, some 9, none, some 3, none] ∧
        ∃ c, b.delete 2 = .ok (some 9, c) ∧ c.slots.toList = [some 1, none, some 3, none] := by
  intro limits a
  have hmax : limits.maxElements < Word.max := by decide
  have hvalid : a.Valid 8 := by
    have hfull : ofSlots #[some 1, none, some 3, none, some 5] limits =
        .ok { storage := #[some 1, none, some 3, none, some 5], size := 5, items := 3, last := 5 } :=
      rfl
    exact valid_result (c := .shrink 1) (by decide) (valid_ofSlots hfull (Nat.le_refl 8)) trivial
      nofun rfl
  obtain ⟨b, hb⟩ : ∃ b, a.insert (some 9) (.after 1) limits = .ok (2, b) := ⟨_, rfl⟩
  obtain ⟨_, _, hslots, hback⟩ := (slots_of_sequence_operations hvalid hmax).1 _ _ _ _ hb
  exact ⟨hvalid, hmax, b, hb, hslots, hback⟩

end SlotArray

end Managed
