import Managed.Proofs.SlotArray.Sorted
import Managed.Proofs.SlotArray.Subscripts

/-!
# Arrays within limits

The arrays of a space are padded, their dimensions tell their size and their storage is within a
bound, which is not less than the limit on elements. A `Revision` of such an array is within the bound
as well, if there is room for it at all, and holds nothing but old items and those it was given. Every
change of an array makes a revision of it.
-/

namespace Managed.SlotArray

variable {α : Type}

/-- An array as a space has it whose arrays have storage of at most `bound` slots. -/
structure Fits (bound : Nat) (a : SlotArray α) : Prop where
  padded : a.Padded
  shaped : a.Shaped
  capacity_le : a.capacity ≤ bound

/-- What a change that is given the items `new` makes of an array. -/
structure Revision (bound : Nat) (a : SlotArray α) (new : List α) (b : SlotArray α) : Prop where
  origin : ∀ x ∈ b.allItems, x ∈ a.allItems ∨ x ∈ new
  fits : b.capacity < Word.max → b.Fits bound

theorem Revision.mono {bound : Nat} {a b : SlotArray α} {new new' : List α} (h : Revision bound a new b)
    (hnew : ∀ x ∈ new, x ∈ new') : Revision bound a new' b :=
  ⟨fun x hx => (h.origin x hx).imp_right (hnew x), h.fits⟩

/-- The bound on the storage has to be shown only if it is less than the largest word: that there is
room takes care of the others. -/
theorem Fits.of_room {bound : Nat} {b : SlotArray α} (hpad : b.Padded) (hshaped : b.Shaped)
    (hcap : bound < Word.max → b.capacity ≤ bound) (hroom : b.capacity < Word.max) :
    b.Fits bound := by
  refine ⟨hpad, hshaped, ?_⟩
  by_cases hmax : bound < Word.max
  · exact hcap hmax
  · omega

theorem mem_allItems_put {a : SlotArray α} {position : Nat} {value : Option α} {x : α}
    (hx : x ∈ (a.put position value).allItems) : x ∈ a.allItems ∨ x ∈ value.toList := by
  obtain ⟨i, hi, hslot⟩ := mem_allItems.mp hx
  rw [slotAt_put] at hslot
  split at hslot
  · exact Or.inr (by simp [hslot])
  · exact Or.inl (mem_allItems.mpr ⟨i, hi, hslot⟩)

section

variable {bound : Nat} {limits : ArrayLimits} (hmax : limits.maxElements ≤ bound) {a b : SlotArray α}

/-! ## New arrays -/

theorem fits_replicate {size : Nat} {shape : Option Shape}
    (hshaped : ({ size, storage := Array.replicate size none, shape } : SlotArray α).Shaped)
    (hle : size ≤ bound) :
    ({ size, storage := Array.replicate size none, shape } : SlotArray α).Fits bound := by
  have hcap : (Array.replicate size (none : Option α)).size = size := Array.size_replicate
  exact ⟨padded_of_size_eq hcap.symm, hshaped, by rwa [capacity, hcap]⟩

theorem allItems_replicate (size : Nat) (shape : Option Shape) :
    ({ size, storage := Array.replicate size none, shape } : SlotArray α).allItems = [] := by
  apply List.eq_nil_iff_forall_not_mem.mpr
  intro x hx
  obtain ⟨i, _, hslot⟩ := mem_allItems.mp hx
  rw [slotAt, cell_replicate] at hslot
  split at hslot <;> cases hslot

include hmax

theorem revision_ofDimensions {sizes : List Nat} (h : ofDimensions sizes limits = .ok b) :
    Revision bound {} [] b := by
  obtain ⟨size, shape, rfl, hle, hshaped⟩ := ofDimensions_eq_ok h
  refine ⟨?_, fun _ => fits_replicate hshaped (Nat.le_trans hle hmax)⟩
  intro x hx
  rw [allItems_replicate] at hx
  cases hx

theorem revision_ofSize {size : Nat} (h : ofSize size limits = .ok b) : Revision bound {} [] b := by
  have h' : ofDimensions [size] limits = .ok b := h
  exact revision_ofDimensions hmax h'

theorem revision_ofSlots {slots : Array (Option α)} (h : ofSlots slots limits = .ok b) :
    Revision bound {} (slots.toList.filterMap id) b := by
  have hpad := padded_ofSlots h
  obtain ⟨hle, rfl⟩ := ofSlots_eq_ok h
  refine ⟨?_, fun _ => ⟨hpad, shaped_of_linear rfl, Nat.le_trans hle hmax⟩⟩
  intro x hx
  obtain ⟨i, _, hslot⟩ := mem_allItems.mp hx
  have hmem : some x ∈ slots.toList := by
    refine List.mem_iff_getElem?.mpr ⟨i, ?_⟩
    rw [Array.getElem?_toList]
    exact Option.join_eq_some_iff.mp hslot
  exact Or.inr (List.mem_filterMap.mpr ⟨some x, hmem, rfl⟩)

/-- The slots from one index to another, as a new array. -/
theorem revision_slice {start : Nat} {count : Option Nat}
    (h : a.sliceFrom start count limits = .ok b) : Revision bound a [] b := by
  rcases sliceFrom_eq_ok h with rfl | ⟨stop, hstop, h⟩
  · refine ⟨fun x hx => ?_, fun _ => ?_⟩
    · cases hx
    · exact fits_replicate (shaped_of_linear rfl) (Nat.zero_le _)
  · obtain ⟨horigin, hfits⟩ := revision_ofSlots hmax h
    refine ⟨fun x hx => ?_, hfits⟩
    rcases horigin x hx with hx | hx
    · cases hx
    · obtain ⟨slot, hslot, rfl⟩ := List.mem_filterMap.mp hx
      obtain ⟨i, hi⟩ := List.mem_iff_getElem?.mp hslot
      rw [Array.getElem?_toList] at hi
      have hcell : cell (a.storage.extract (start - 1) stop) i = some x := by
        rw [cell, hi]
        rfl
      rw [cell_extract] at hcell
      split at hcell
      · exact Or.inl (mem_allItems.mpr ⟨start - 1 + i, by omega, hcell⟩)
      · cases hcell

omit hmax in
theorem mem_allItems_of_slots {x : α} (hx : some x ∈ a.slots) :
    x ∈ a.allItems := by
  obtain ⟨i, hi⟩ := Array.mem_iff_getElem?.mp hx
  have hcell : cell a.slots i = some x := by
    rw [cell, hi]
    rfl
  rw [slots, cell_extract, Nat.zero_add] at hcell
  split at hcell
  · next hlt => exact mem_allItems.mpr ⟨i, hlt, hcell⟩
  · cases hcell

theorem revision_join {c : SlotArray α} (h : a.join b limits = .ok c) :
    Revision bound a b.allItems c := by
  obtain ⟨horigin, hfits⟩ := revision_ofSlots hmax (join_eq_ok h)
  refine ⟨fun x hx => ?_, hfits⟩
  rcases horigin x hx with hx | hx
  · cases hx
  · obtain ⟨slot, hslot, rfl⟩ := List.mem_filterMap.mp hx
    rw [Array.mem_toList_iff, Array.mem_append] at hslot
    exact hslot.imp mem_allItems_of_slots mem_allItems_of_slots

/-! ## Changes -/

variable (ha : a.Fits bound)
include ha

omit hmax in
theorem Fits.revision_self : Revision bound a [] a :=
  ⟨fun _ hx => Or.inl hx, fun _ => ha⟩

/-- An item put where subscripts lead. -/
theorem revision_validateIndex_put {subscripts : List Subscript} {access : IndexAccess} {p : Nat}
    (h : a.validateIndex subscripts access limits = .ok (some p, b)) (value : α) :
    Revision bound a [value] (b.put p (some value)) := by
  refine ⟨fun x hx => ?_, fun hroom => ?_⟩
  · rcases mem_allItems_put hx with hx | hx
    · obtain ⟨i, _, hslot⟩ := mem_allItems.mp hx
      exact Or.inl (slotAt_validateIndex ha.padded h hslot)
    · exact Or.inr hx
  · rw [capacity_put] at hroom
    have hpos := validateIndex_position ha.padded h ha.shaped hroom rfl
    have hshaped := shaped_validateIndex h ha.shaped
    refine .of_room (padded_put (padded_validateIndex ha.padded h hroom) _ hpos) hshaped (fun _ => ?_)
      (by rwa [capacity_put])
    rw [capacity_put]
    exact capacity_validateIndex_le ha.padded h ha.capacity_le hmax

omit hmax in
theorem revision_clear (position : Nat) : Revision bound a [] (a.clear position).2 := by
  rcases clear_cases a position with ⟨hpos, hle, heq⟩ | ⟨_, heq⟩
  · rw [heq]
    refine ⟨fun x hx => ?_, fun hroom => ?_⟩
    · exact (mem_allItems_put hx).imp_right fun h => h
    · rw [capacity_put] at hroom
      refine .of_room (padded_put ha.padded none (by omega)) ha.shaped (fun _ => ?_)
        (by rwa [capacity_put])
      rw [capacity_put]
      exact ha.capacity_le
  · rw [heq]
    exact ha.revision_self

theorem revision_ensureSpace {size : Nat} (h : a.ensureSpace size limits = .ok b) :
    Revision bound a [] b := by
  cases ensureSpace_eq_ok h
  refine ⟨fun x hx => ?_, fun hroom => ?_⟩
  · obtain ⟨i, _, hslot⟩ := mem_allItems.mp hx
    rw [slotAt_withRoom ha.padded] at hslot
    exact Or.inl (ha.padded.mem_allItems hslot)
  · refine .of_room (padded_withRoom ha.padded size limits) ?_ (fun _ => ?_) hroom
    · unfold withRoom
      split <;> exact ha.shaped
    · exact capacity_withRoom_le ha.padded size limits ha.capacity_le hmax

theorem revision_append {value : α} {position : Nat}
    (h : a.append value limits = .ok (position, b)) : Revision bound a [value] b := by
  refine ⟨fun x hx => ?_, fun hroom => ?_⟩
  · obtain ⟨i, _, hslot⟩ := mem_allItems.mp hx
    rw [slotAt_append ha.padded h] at hslot
    split at hslot
    · cases hslot
      exact Or.inr (List.mem_singleton.mpr rfl)
    · exact Or.inl (ha.padded.mem_allItems hslot)
  · exact .of_room (padded_append ha.padded h hroom) (shaped_append h)
      (fun _ => capacity_append_le ha.padded h ha.capacity_le hmax) hroom

theorem revision_insert {value : Option α} {target : InsertAt} {position : Nat}
    (h : a.insert value target limits = .ok (position, b)) :
    Revision bound a value.toList b := by
  refine ⟨fun x hx => ?_, fun hroom => ?_⟩
  · obtain ⟨_, _, e, g, he, hg, rfl⟩ := insert_eq_ok h
    refine (mem_allItems_put hx).imp_left fun hx => ?_
    obtain ⟨i, _, hslot⟩ := mem_allItems.mp hx
    exact mem_allItems_of_openGap ha.padded hg hslot
  · exact .of_room (padded_insert ha.padded h (size_insert ha.padded h hroom)) (shaped_insert h)
      (fun hword => capacity_insert_le ha.padded h ha.capacity_le hmax hword) hroom

omit hmax in
theorem revision_delete {position : Nat} {removed : Option α}
    (h : a.delete position = .ok (removed, b)) : Revision bound a [] b := by
  obtain ⟨hcap, _⟩ := capacity_delete ha.padded h
  refine ⟨fun x hx => ?_, fun hroom => ?_⟩
  · obtain ⟨i, _, hslot⟩ := mem_allItems.mp hx
    rw [slotAt_delete ha.padded h] at hslot
    split at hslot
    · exact Or.inl (ha.padded.mem_allItems hslot)
    · split at hslot
      · exact Or.inl (ha.padded.mem_allItems hslot)
      · cases hslot
  · exact .of_room (padded_delete ha.padded h) (shaped_delete h)
      (fun _ => by rw [hcap]; exact ha.capacity_le) hroom

omit hmax in
theorem revision_overlay (value : Option α)
    (hstorage : b.storage = Array.replicate a.size value ++ a.storage.extract a.size)
    (hsize : b.size = a.size) (hshape : b.shape = a.shape) : Revision bound a value.toList b := by
  have hcap : b.capacity = a.capacity := by
    rw [capacity, hstorage]
    exact size_overlay ha.padded.size_le value
  refine ⟨fun x hx => ?_, fun hroom => ?_⟩
  · obtain ⟨i, _, hslot⟩ := mem_allItems.mp hx
    rw [slotAt, hstorage, cell_overlay] at hslot
    split at hslot
    · exact Or.inr (by simp [hslot])
    · exact Or.inl (ha.padded.mem_allItems hslot)
  · refine .of_room (padded_overlay ha.padded hstorage hsize) ?_
      (fun _ => by rw [hcap]; exact ha.capacity_le) hroom
    intro s hs
    rw [hshape] at hs
    rw [hsize]
    exact ha.shaped s hs

omit hmax in
theorem revision_sorted {ε σ : Type} (stable : Bool) (compare : Sorting.Comparator ε σ α)
    (memory : σ) : Revision bound a [] (a.sorted stable compare memory) := by
  refine ⟨fun x hx => Or.inl (mem_allItems_sorted stable compare memory ha.padded hx), fun hroom => ?_⟩
  have hpad := padded_sorted stable compare memory ha.padded
  obtain ⟨storage, heq, hsize, _⟩ := sorted_cases a stable compare memory
  rw [heq] at hpad hroom ⊢
  exact .of_room hpad ha.shaped (fun _ => by rw [capacity, hsize]; exact ha.capacity_le) hroom

end

end Managed.SlotArray
