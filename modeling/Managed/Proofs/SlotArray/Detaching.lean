import Managed.Proofs.SlotArray.Growing
import Managed.Proofs.SlotArray.Renamed

/-!
# Arrays whose storage is away

While an array is sorted its storage is away, and the array itself has no slots but still its
dimensions. It may be used and changed in that state, and its storage may be put back later, sorted any
number of times. Such arrays are not built in the sense of `Built`: the sizes of their dimensions need
not multiply to their size, which is zero.

If storage is only put back where it fills the dimensions (`Detached.Fills`), what addressing relies on
holds of these arrays as well (`laidOut_of_reached`): the slots lie in the storage, and the sizes of the
dimensions multiply to a number within the limits, which is the size of the array unless that is zero.
-/

namespace Managed

/-- Storage that can be put back in an array: it has no slots, or as many as the dimensions of the array
ask for, if there are several. -/
def Detached.Fills {α : Type} (d : Detached α) (a : SlotArray α) : Prop :=
  ∀ s, a.shape = some s → d.size ≠ 0 → s.sizes.prod = d.size

namespace SlotArray

variable {α : Type}

/-- The storage taken from an array, sorted any number of times. -/
inductive Taken (a : SlotArray α) : Detached α → Prop where
  | detach {d : Detached α} {emptied : SlotArray α} : a.detach = .ok (d, emptied) → Taken a d
  | sort {d : Detached α} {ε σ : Type} (stable : Bool) (compare : Sorting.Comparator ε σ α)
    (memory : σ) : Taken a d → Taken a (Detached.settled (Detached.sort stable compare (d, memory)))

/-- The arrays that come about under limits of a certain kind if storage may also be taken away, and put
back in arrays that admit it. -/
inductive Reached (allowed : ArrayLimits → Prop) (admits : Detached α → SlotArray α → Prop) :
    SlotArray α → Prop where
  | built {a : SlotArray α} : Built allowed a → Reached allowed admits a
  | slice {a b : SlotArray α} {start : Nat} {count : Option Nat} {limits : ArrayLimits} :
    Reached allowed admits a → allowed limits → a.sliceFrom start count limits = .ok b →
      Reached allowed admits b
  | join {a b c : SlotArray α} {limits : ArrayLimits} :
    Reached allowed admits a → Reached allowed admits b → allowed limits → a.join b limits = .ok c →
      Reached allowed admits c
  | change {a : SlotArray α} (c : Change α) :
    Reached allowed admits a → c.Proper a → (∀ limits ∈ c.limits?, allowed limits) →
      Reached allowed admits (c.applyTo a)
  | detached {a emptied : SlotArray α} {d : Detached α} :
    Reached allowed admits a → a.detach = .ok (d, emptied) → Reached allowed admits emptied
  | attached {a b : SlotArray α} {d : Detached α} :
    Reached allowed admits a → Taken a d → Reached allowed admits b → admits d b →
      Reached allowed admits (b.attach d)

/-! ## Sorted storage -/

/-- A sort does not change which slots are occupied, so what could be sorted can be sorted again. -/
theorem densePrefix_sorted {ε σ : Type} (a : SlotArray α) (stable : Bool)
    (compare : Sorting.Comparator ε σ α) (memory : σ) :
    (a.sorted stable compare memory).densePrefix = a.densePrefix := by
  have hslot := isSome_slotAt_sorted a stable compare memory
  obtain ⟨storage, heq, hsize, _⟩ := sorted_cases a stable compare memory
  rw [heq] at hslot ⊢
  have hholes : storage.map (Option.map fun _ => ()) = a.storage.map (Option.map fun _ => ()) := by
    refine Array.ext (by simpa [capacity] using hsize) fun i hi hi' => ?_
    have hsome := hslot i
    simp only [Array.size_map] at hi hi'
    simp only [slotAt, cell, Array.getElem?_eq_getElem hi, Array.getElem?_eq_getElem hi',
      Option.join_some] at hsome
    rw [Array.getElem_map, Array.getElem_map]
    cases hx : storage[i] <;> cases hy : a.storage[i] <;> simp_all
  rw [← densePrefix_map (fun _ => ()) a, ← densePrefix_map (fun _ => ()) { a with storage }, map, map,
    hholes]

theorem detach_sorted {ε σ : Type} {a emptied : SlotArray α} {d : Detached α}
    (h : a.detach = .ok (d, emptied)) (stable : Bool) (compare : Sorting.Comparator ε σ α)
    (memory : σ) :
    (a.sorted stable compare memory).detach =
      .ok (Detached.settled (Detached.sort stable compare (d, memory)), emptied) := by
  have hsorted : a.sorted stable compare memory =
      emptied.attach (Detached.settled (Detached.sort stable compare (d, memory))) := by
    rw [sorted, h]
  obtain ⟨n, hn, _⟩ := bind_eq_ok h
  obtain ⟨_, _, hemptied⟩ := detach_eq_ok h
  rw [detach, densePrefix_sorted, hn, hsorted, hemptied]
  rfl

/-- Storage that is put back makes an array that it can be taken from. -/
theorem Taken.exists_detach {a : SlotArray α} {d : Detached α} (h : Taken a d)
    (Kept : SlotArray α → Prop) (ha : Kept a)
    (hsort : ∀ (b : SlotArray α) {ε σ : Type} (stable : Bool) (compare : Sorting.Comparator ε σ α)
      (memory : σ), Kept b → Kept (b.sorted stable compare memory)) :
    ∃ b, Kept b ∧ b.detach = .ok (d, { shape := a.shape }) := by
  induction h with
  | detach hd =>
    obtain ⟨_, _, rfl⟩ := detach_eq_ok hd
    exact ⟨a, ha, hd⟩
  | sort stable compare memory _ ih =>
    obtain ⟨b, hb, hd⟩ := ih
    exact ⟨_, hsort b stable compare memory hb, detach_sorted hd stable compare memory⟩

/-! ## Slots and dimensions -/

/-- What addressing relies on. The sizes of the dimensions of an array without slots may multiply to
another number. -/
structure LaidOut (bound : Nat) (a : SlotArray α) : Prop where
  padded : a.Padded
  counted : a.Counted
  capacity_le : a.capacity ≤ bound
  dimensions : ∀ s, a.shape = some s → s.sizes.prod ≤ bound ∧ (a.size ≠ 0 → s.sizes.prod = a.size)

theorem LaidOut.size_le {bound : Nat} {a : SlotArray α} (ha : a.LaidOut bound) : a.size ≤ bound :=
  Nat.le_trans ha.padded.size_le ha.capacity_le

section

variable {bound : Nat} (hbound : bound < Word.max)
include hbound

theorem Valid.laidOut {a : SlotArray α} (ha : a.Valid bound) : a.LaidOut bound := by
  refine ⟨ha.padded, ha.counted, ha.capacity_le, fun s hs => ?_⟩
  have hprod := ((ha.sized hbound).dimensions s hs).2
  rw [hprod]
  exact ⟨Nat.le_trans ha.padded.size_le ha.capacity_le, fun _ => rfl⟩

theorem laidOut_result {a b : SlotArray α} (ha : a.LaidOut bound) {c : Change α}
    (hproper : c.Proper a) (hlimits : ∀ limits ∈ c.limits?, limits.maxElements ≤ bound)
    (h : c.result a = .ok b) : b.LaidOut bound := by
  have hcap := capacity_result_le hbound ha.padded ha.capacity_le hlimits h
  obtain ⟨hpad, hcount⟩ :=
    counted_result ha.padded ha.counted hproper h (Nat.lt_of_le_of_lt hcap hbound)
  rcases dimensions_result h with ⟨hsize, hshape⟩ | hlinear | ⟨limits, hl, s, t, hle, rfl⟩
  · refine ⟨hpad, hcount, hcap, fun s hs => ?_⟩
    rw [hshape] at hs
    rw [hsize]
    exact ha.dimensions s hs
  · refine ⟨hpad, hcount, hcap, fun s hs => ?_⟩
    rw [hlinear] at hs
    cases hs
  · exact Valid.laidOut hbound ⟨hpad, hcount, shaped_moveTo a s t, hcap⟩

theorem laidOut_applyTo {a : SlotArray α} (ha : a.LaidOut bound) {c : Change α} (hproper : c.Proper a)
    (hlimits : ∀ limits ∈ c.limits?, limits.maxElements ≤ bound) : (c.applyTo a).LaidOut bound := by
  cases h : c.result a with
  | ok b =>
    rw [Change.applyTo_of_ok h]
    exact laidOut_result hbound ha hproper hlimits h
  | error e =>
    rw [Change.applyTo_of_error h]
    exact ha

/-- The dimensions stay when the storage is taken away. -/
theorem laidOut_of_detach {a emptied : SlotArray α} {d : Detached α} (ha : a.LaidOut bound)
    (h : a.detach = .ok (d, emptied)) : emptied.LaidOut bound := by
  obtain ⟨_, _, rfl⟩ := detach_eq_ok h
  have hempty : ({} : SlotArray α).LaidOut bound :=
    Valid.laidOut hbound (coherent_empty.valid (Nat.zero_le bound))
  have hcounted : ({ shape := a.shape } : SlotArray α).Counted :=
    hempty.counted.congr (fun _ => rfl) rfl rfl
  exact ⟨⟨hempty.padded.size_le, hempty.padded.spare⟩, hcounted, hempty.capacity_le, fun s hs =>
    ⟨(ha.dimensions s hs).1, fun hne => absurd rfl hne⟩⟩

/-- Slots are those of the array that the storage was taken from, and dimensions those of the array that
it is put back in. -/
theorem laidOut_attach {a b : SlotArray α} {d : Detached α} (ha : a.LaidOut bound) (htaken : Taken a d)
    (hb : b.LaidOut bound) (hfills : d.Fills b) : (b.attach d).LaidOut bound := by
  obtain ⟨c, hc, hd⟩ := htaken.exists_detach (LaidOut bound) ha
    fun c _ _ stable compare memory hc =>
      laidOut_applyTo hbound hc (c := .sort stable compare memory) trivial fun _ h => by cases h
  obtain ⟨_, rfl, _⟩ := detach_eq_ok hd
  refine ⟨⟨hc.padded.size_le, hc.padded.spare⟩, hc.counted.congr (fun _ => rfl) rfl rfl,
    hc.capacity_le, fun s hs => ⟨(hb.dimensions s hs).1, hfills s hs⟩⟩

theorem laidOut_of_reached {allowed : ArrayLimits → Prop}
    (hallowed : ∀ limits, allowed limits → limits.maxElements ≤ bound) {a : SlotArray α}
    (ha : Reached allowed Detached.Fills a) : a.LaidOut bound := by
  induction ha with
  | built hb => exact Valid.laidOut hbound (valid_of_built hbound hallowed hb)
  | slice _ hl h _ =>
    rcases sliceFrom_eq_ok h with rfl | ⟨stop, _, h⟩
    · exact Valid.laidOut hbound (coherent_empty.valid (Nat.zero_le bound))
    · exact Valid.laidOut hbound (valid_ofSlots h (hallowed _ hl))
  | join _ _ hl h _ _ => exact Valid.laidOut hbound (valid_ofSlots (join_eq_ok h) (hallowed _ hl))
  | change c _ hproper hl ih =>
    exact laidOut_applyTo hbound ih hproper fun limits h => hallowed limits (hl limits h)
  | detached _ h ih => exact laidOut_of_detach hbound ih h
  | attached _ htaken _ hfills ih ih' => exact laidOut_attach hbound ih htaken ih' hfills

end

end SlotArray

end Managed
