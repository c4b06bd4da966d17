import Managed.Proofs.SlotArray.Bulk
import Managed.Proofs.SlotArray.Sequence

/-!
# Appending and storage

What an append makes of an array depends on its slots and counts, and not on how much storage it has to
spare (`Housed.append`). So items can be appended one by one to an array or to the same array in other
storage, and the outcome is the same (`Congruent.appended`). If they can be appended at all there are
slots or there is room within the limit for all of them, so making that room beforehand does not fail
(`appended_iff_of_ensureSpace`). If they cannot, none of them is appended unless the array stops
half-way, and then some are (`trimmed_of_appendAll_error`).
-/

namespace Managed

namespace SlotArray

variable {α : Type} {a b c d : SlotArray α} {limits : ArrayLimits} {x : α} {items : List α}

/-! ## One item -/

/-- A padded array with no more storage than can be counted. -/
structure Housed (a : SlotArray α) : Prop where
  padded : a.Padded
  capacity_le : a.capacity ≤ Word.max

theorem grownCapacity_le_max (limits : ArrayLimits) (size : Nat) :
    limits.grownCapacity size ≤ Word.max :=
  Nat.le_trans (Nat.min_le_left _ _) (Nat.min_le_right _ _)

theorem Housed.withRoom (ha : a.Housed) (size : Nat) (limits : ArrayLimits) :
    (a.withRoom size limits).Housed := by
  refine ⟨padded_withRoom ha.padded size limits, ?_⟩
  unfold SlotArray.withRoom
  split
  · exact ha.capacity_le
  · rw [capacity_reallocate ha.padded.size_le]
    exact Nat.max_le.mpr
      ⟨Nat.le_trans ha.padded.size_le ha.capacity_le, grownCapacity_le_max limits size⟩

/-- An array that has to grow for an item behind its last one. Of an array that takes up all words only
the count goes up. -/
theorem Housed.extend_behind (ha : a.Housed) (hfull : a.size ≤ a.last)
    (h : a.extend (a.last + 1 - a.size) limits = .ok b) :
    b.Housed ∧ b.size = Word.addSat a.last 1 ∧ b.items = a.items ∧ b.last = a.last := by
  have hsize : Word.addSat a.size (a.last + 1 - a.size) = Word.addSat a.last 1 := by
    simp only [Word.addSat]
    omega
  have hslot := slotAt_extend ha.padded h
  obtain ⟨_, hmax, rfl⟩ := extend_eq_ok h
  rw [hsize] at hmax hslot ⊢
  have hroom := ha.withRoom (Word.addSat a.last 1) limits
  have hgrows : a.size ≤ Word.addSat a.last 1 := by
    have hword := Nat.le_trans ha.padded.size_le ha.capacity_le
    simp only [Word.addSat]
    omega
  refine ⟨⟨⟨?_, fun i hi => ?_⟩, hroom.capacity_le⟩, rfl, ?_, ?_⟩
  · exact le_capacity_withRoom ha.padded _ limits hmax (Nat.min_le_right _ _)
  · rw [hslot]
    exact ha.padded.spare i (Nat.le_trans hgrows hi)
  · exact items_withRoom a _ limits
  · exact last_withRoom a _ limits

/-- What an append makes of an array, in terms of its slots and counts. -/
structure AppendOf (a : SlotArray α) (x : α) (b : SlotArray α) : Prop where
  housed : b.Housed
  size : b.size = max a.size (Word.addSat a.last 1)
  items : b.items = a.items + 1 - (a.slotAt a.last).isSome.toNat
  last : b.last = a.last + 1
  shape : b.shape = none
  slot : ∀ i, b.slotAt i = if i = a.last ∧ i < b.size then some x else a.slotAt i

/-- An item is put in an array that has grown for it. -/
theorem Housed.put_behind (ha : a.Housed) (hshape : a.shape = none)
    (hroom : Word.addSat a.last 1 ≤ a.size) (x : α) :
    AppendOf a x (a.put (a.last + 1) (some x)) := by
  -- an item that gets no slot gets no storage either: the size is the largest word then
  have hbound : a.last < a.capacity ↔ a.last < a.size := by
    have hle := ha.padded.size_le
    have hcap := ha.capacity_le
    simp only [Word.addSat] at hroom
    omega
  have hslot : ∀ i, (a.put (a.last + 1) (some x)).slotAt i =
      if i = a.last ∧ i < a.size then some x else a.slotAt i := by
    intro i
    rw [slotAt_put, Nat.add_sub_cancel]
    by_cases hi : i = a.last
    · subst hi
      simp only [hbound, true_and]
    · rw [if_neg fun h => hi h.1, if_neg fun h => hi h.1]
  refine ⟨⟨⟨?_, fun i hi => ?_⟩, ?_⟩, (Nat.max_eq_left hroom).symm, rfl, ?_, hshape, hslot⟩
  · rw [capacity_put]
    exact ha.padded.size_le
  · rw [hslot, if_neg fun h => Nat.not_lt_of_le hi h.2, ha.padded.spare i hi]
  · rw [capacity_put]
    exact ha.capacity_le
  · exact Nat.max_eq_right (Nat.le_succ _)

theorem Housed.append (ha : a.Housed) {position : Nat}
    (h : a.append x limits = .ok (position, b)) : AppendOf a x b := by
  obtain ⟨hshape, _, e, he, rfl⟩ := append_eq_ok h
  have hword := Nat.le_trans ha.padded.size_le ha.capacity_le
  rcases he with ⟨hlt, rfl⟩ | ⟨hfull, he⟩
  · refine ha.put_behind hshape ?_ x
    simp only [Word.addSat]
    omega
  · obtain ⟨hhoused, hsize, hitems, hlast⟩ := ha.extend_behind hfull he
    have hslot := slotAt_extend ha.padded he
    have hput := hhoused.put_behind (linear_extend he) (Nat.le_of_eq (by rw [hlast, hsize])) x
    rw [hlast] at hput
    refine ⟨hput.housed, ?_, ?_, ?_, hput.shape, fun i => ?_⟩
    · rw [hput.size, hlast, hsize, Nat.max_self]
      refine (Nat.max_eq_right ?_).symm
      simp only [Word.addSat]
      omega
    · rw [hput.items, hitems, hslot, hlast]
    · rw [hput.last, hlast]
    · rw [hput.slot, hslot, hlast]

/-! ## The same array in other storage -/

/-- Arrays that differ at most in the storage they have to spare. -/
structure Congruent (a b : SlotArray α) : Prop where
  size : a.size = b.size
  items : a.items = b.items
  last : a.last = b.last
  shape : a.shape = b.shape
  slot : ∀ i, a.slotAt i = b.slotAt i

theorem Congruent.symm (h : Congruent a b) : Congruent b a :=
  ⟨h.size.symm, h.items.symm, h.last.symm, h.shape.symm, fun i => (h.slot i).symm⟩

theorem congruent_withRoom (ha : a.Padded) (size : Nat) (limits : ArrayLimits) :
    Congruent a (a.withRoom size limits) where
  size := (size_withRoom a size limits).symm
  items := (items_withRoom a size limits).symm
  last := (last_withRoom a size limits).symm
  shape := (shape_withRoom a size limits).symm
  slot i := (slotAt_withRoom ha size limits i).symm

theorem Congruent.slots (h : Congruent a b) (ha : a.Padded) (hb : b.Padded) : a.slots = b.slots := by
  apply Array.toList_inj.mp
  apply List.ext_getElem?
  intro i
  rw [getElem?_slots ha, getElem?_slots hb, h.size, h.slot]

/-- Appending to congruent arrays gives congruent arrays. -/
theorem Congruent.append (h : Congruent a b) (ha : a.Housed) (hb : b.Housed) {position : Nat}
    (hc : a.append x limits = .ok (position, c)) :
    ∃ d, b.append x limits = .ok (position, d) ∧ Congruent c d := by
  have hok := append_isOk_iff.mp ⟨position, c, hc⟩
  rw [h.shape, h.last, h.size] at hok
  obtain ⟨q, d, hd⟩ := append_isOk_iff.mpr hok
  have hposition : q = position := by
    rw [(append_eq_ok hd).2.1, (append_eq_ok hc).2.1, h.last]
  subst hposition
  have hc' := ha.append hc
  have hd' := hb.append hd
  have hsize : c.size = d.size := by rw [hc'.size, hd'.size, h.size, h.last]
  refine ⟨d, hd, hsize, ?_, ?_, ?_, fun i => ?_⟩
  · rw [hc'.items, hd'.items, h.items, h.slot, h.last]
  · rw [hc'.last, hd'.last, h.last]
  · rw [hc'.shape, hd'.shape]
  · rw [hc'.slot, hd'.slot, h.last, hsize, h.slot]

theorem Congruent.appended (h : Congruent a b) (ha : a.Housed) (hb : b.Housed)
    (hc : Appended limits a items c) : ∃ d, Appended limits b items d ∧ Congruent c d := by
  induction hc generalizing b with
  | nil a => exact ⟨b, .nil b, h⟩
  | cons head _ ih =>
    obtain ⟨b', hb', hcong⟩ := h.append ha hb head
    obtain ⟨d, hd, hcd⟩ := ih hcong (ha.append head).housed (hb.append hb').housed
    exact ⟨d, .cons hb' hd, hcd⟩

/-! ## Room for all items -/

namespace Appended

theorem housed (h : Appended limits a items c) (ha : a.Housed) : c.Housed := by
  induction h with
  | nil => exact ha
  | cons head _ ih => exact ih (ha.append head).housed

theorem capacity_le_of_le (h : Appended limits a items c) (ha : a.Housed) {bound : Nat}
    (hcap : a.capacity ≤ bound) (hmax : limits.maxElements ≤ bound) : c.capacity ≤ bound := by
  induction h with
  | nil => exact hcap
  | cons head _ ih =>
    exact ih (ha.append head).housed (capacity_append_le ha.padded head hcap hmax)

theorem last (h : Appended limits a items c) (ha : a.Housed) : c.last = a.last + items.length := by
  induction h with
  | nil => rfl
  | cons head _ ih =>
    have hb := ha.append head
    rw [ih hb.housed, hb.last, List.length_cons]
    omega

/-- Items that were appended one by one have slots in the array from the start, or fit within the limit
all together. -/
theorem room (h : Appended limits a items c) (ha : a.Housed)
    (hlast : a.last ≤ a.size ∨ Word.addSat a.last 0 ≤ limits.maxElements) :
    a.last + items.length ≤ a.size ∨ Word.addSat a.last items.length ≤ limits.maxElements := by
  induction h with
  | nil => exact hlast
  | @cons a b c x rest position head _ ih =>
    have hb := ha.append head
    have hword := Nat.le_trans ha.padded.size_le ha.capacity_le
    have hsize := hb.size
    have hone := (append_isOk_iff.mp ⟨position, b, head⟩).2
    -- the array is larger than before only if the item lies behind its slots
    have hrest := ih hb.housed (by
      simp only [hb.last, Word.addSat] at hone hsize ⊢
      omega)
    simp only [hb.last, Word.addSat, List.length_cons] at hone hsize hrest ⊢
    omega

end Appended

theorem ensureSpace_of_le {size : Nat} (h : size ≤ a.capacity ∨ size ≤ limits.maxElements) :
    a.ensureSpace size limits = .ok (a.withRoom size limits) := by
  rw [ensureSpace_eq, SlotArray.withRoom]
  split
  · rfl
  · next hlt =>
    rw [ArrayLimits.check, if_neg (Nat.not_lt_of_le (h.resolve_left hlt))]
    rfl

section

variable (ha : a.Housed) (hlast : a.last ≤ a.size)
include ha hlast

/-- Items can be appended if there are none, or if the array has one dimension and either has slots for
all of them or may grow for all of them. -/
theorem appended_iff :
    (∃ d, Appended limits a items d) ↔ items = [] ∨ a.shape = none ∧
      (a.last + items.length ≤ a.size ∨ Word.addSat a.last items.length ≤ limits.maxElements) := by
  constructor
  · rintro ⟨d, hd⟩
    have hroom := hd.room ha (Or.inl hlast)
    cases hd with
    | nil => exact Or.inl rfl
    | cons head _ => exact Or.inr ⟨(append_eq_ok head).1, hroom⟩
  · rintro (rfl | ⟨hshape, hroom | hroom⟩)
    · exact ⟨a, .nil a⟩
    · exact appended_of_size hshape hroom
    · exact appended_of_room hshape hroom

/-- Items that can be appended one by one can be appended after space has been made for all of them. -/
theorem Appended.after_ensureSpace (hd : Appended limits a items d) :
    ∃ b c, a.ensureSpace (Word.addSat a.last items.length) limits = .ok b ∧
      Appended limits b items c ∧ Congruent d c := by
  obtain ⟨c, hc, hcong⟩ := (congruent_withRoom ha.padded _ limits).appended ha (ha.withRoom _ _) hd
  have hspace : Word.addSat a.last items.length ≤ a.capacity ∨
      Word.addSat a.last items.length ≤ limits.maxElements := by
    refine (hd.room ha (Or.inl hlast)).imp_left fun hsize => ?_
    exact Nat.le_trans (Nat.min_le_left _ _) (Nat.le_trans hsize ha.padded.size_le)
  exact ⟨_, c, ensureSpace_of_le hspace, hc, hcong⟩

theorem appended_iff_of_ensureSpace :
    (∃ d, Appended limits a items d) ↔
      ∃ b c, a.ensureSpace (Word.addSat a.last items.length) limits = .ok b ∧
        Appended limits b items c := by
  constructor
  · rintro ⟨d, hd⟩
    obtain ⟨b, c, hb, hc, _⟩ := hd.after_ensureSpace ha hlast
    exact ⟨b, c, hb, hc⟩
  · rintro ⟨b, c, hb, hc⟩
    cases ensureSpace_eq_ok hb
    have hcong := congruent_withRoom ha.padded (Word.addSat a.last items.length) limits
    obtain ⟨d, hd, _⟩ := hcong.symm.appended (ha.withRoom _ _) ha hc
    exact ⟨d, hd⟩

end

/-- Arrays that differ in spare storage look the same. -/
theorem Congruent.trimmed (h : Congruent a b) (ha : a.Padded) (hb : b.Padded) :
    a.trimmed = b.trimmed := by
  simp only [SlotArray.trimmed, h.slots ha hb, h.size, h.items, h.last, h.shape]

end SlotArray

/-! ## All items at once -/

namespace ArrayM

open SlotArray

variable {α : Type} {a c : SlotArray α} {limits : ArrayLimits} {items : List α} {e : Fault}

section

variable (ha : a.Housed) (hlast : a.last ≤ a.size)
include ha hlast

/-- All items are taken at once exactly if the array takes them one by one. -/
theorem appendAll_isOk_iff :
    (∃ c, appendAll items limits a = .ok () c) ↔ ∃ d, Appended limits a items d := by
  rw [appended_iff_of_ensureSpace ha hlast]
  constructor
  · rintro ⟨c, hrun⟩
    rcases appendAll_cases items limits a with ⟨b, c, hb, hc, _⟩ | ⟨e, herr⟩ | ⟨e, b, _, herr⟩ |
      ⟨e, b, c, taken, _, _, _, _, _, herr⟩
    · exact ⟨b, c, hb, hc⟩
    all_goals
      rw [hrun] at herr
      cases herr
  · rintro ⟨b, c, hb, hc⟩
    refine ⟨c, ?_⟩
    rw [appendAll_apply, hb]
    exact appendEach_of_appended hc

/-- An array that stops half-way has taken an item. -/
theorem last_lt_of_stopsHalfway (hstops : a.StopsHalfway items.length limits)
    (hrun : appendAll items limits a = .error e c) : a.last < c.last := by
  obtain ⟨hshape, hfirst, hslots, _, hcap⟩ := hstops
  have hspace : a.ensureSpace (Word.addSat a.last items.length) limits = .ok a := by
    rw [ensureSpace_of_le (Or.inl hcap), withRoom, if_pos hcap]
  replace hrun : appendEach items limits a = .error e c := by
    rwa [appendAll_apply, hspace] at hrun
  cases items with
  | nil => exact absurd hslots (Nat.not_lt_of_le hlast)
  | cons x rest =>
    obtain ⟨position, b, hb⟩ := append_isOk_iff (x := x) |>.mpr ⟨hshape, hfirst⟩
    replace hrun : appendEach rest limits b = .error e c := by
      rwa [appendEach_cons, hb] at hrun
    obtain ⟨taken, d, hd, ⟨_, hall⟩ | ⟨e', _, hsome⟩⟩ := appendEach_cases rest limits b
    · rw [hrun] at hall
      cases hall
    · rw [hrun] at hsome
      cases hsome
      have hb' := ha.append hb
      rw [hd.last hb'.housed, hb'.last]
      omega

/-- A failure leaves the array as it was, apart from spare storage, unless it stops half-way. -/
theorem trimmed_of_appendAll_error (hrun : appendAll items limits a = .error e c) :
    c.trimmed = a.trimmed ↔ ¬a.StopsHalfway items.length limits := by
  constructor
  · intro hseen hstops
    have hlt := last_lt_of_stopsHalfway ha hlast hstops hrun
    exact absurd (congrArg SlotArray.last hseen) (Nat.ne_of_gt hlt)
  · intro hnot
    rcases appendAll_cases items limits a with ⟨b, c, _, _, hok⟩ | ⟨e, herr⟩ | ⟨e, b, hb, herr⟩ |
      ⟨e, b, c, taken, hstops, _⟩
    · rw [hrun] at hok
      cases hok
    · rw [hrun] at herr
      cases herr
      rfl
    · rw [hrun] at herr
      cases herr
      cases ensureSpace_eq_ok hb
      exact trimmed_withRoom ha.padded _ _
    · exact absurd hstops hnot

end

/-- However many items it takes, the array gets no more storage than the limit allows for. -/
theorem capacity_left_appendAll_le (ha : a.Housed) {bound : Nat} (hcap : a.capacity ≤ bound)
    (hmax : limits.maxElements ≤ bound) : ((appendAll items limits).left a).capacity ≤ bound := by
  have hroom : ∀ {b size}, a.ensureSpace size limits = .ok b → b.Housed ∧ b.capacity ≤ bound := by
    intro b size hb
    cases ensureSpace_eq_ok hb
    exact ⟨ha.withRoom _ _, capacity_withRoom_le ha.padded _ _ hcap hmax⟩
  rw [left]
  rcases appendAll_cases items limits a with ⟨b, c, hb, hc, hrun⟩ | ⟨e, hrun⟩ | ⟨e, b, hb, hrun⟩ |
    ⟨e, b, c, taken, _, _, _, hb, hc, hrun⟩ <;> rw [hrun]
  · exact hc.capacity_le_of_le (hroom hb).1 (hroom hb).2 hmax
  · exact hcap
  · exact (hroom hb).2
  · exact hc.capacity_le_of_le (hroom hb).1 (hroom hb).2 hmax

end ArrayM

end Managed
