import Managed.Proofs.SlotArray.Navigation
import Managed.Proofs.Space.ArraySort
import Managed.Proofs.Space.Coherence

/-!
# Arrays without holes

An array can be sorted if there is no hole before its last item. To see whether there is one, it is
enough to look at as many slots as there are items: the items fill these slots if and only if the
last item is in the last of them (`dense_iff`). The first hole found is the first one there is, and an
array with a hole is left as it is (`densePrefix_finds_first_hole`).
-/

namespace Managed

namespace SlotArray

variable {α : Type} {a : SlotArray α}

/-- Every position up to the last item is occupied. -/
def Dense (a : SlotArray α) : Prop :=
  ∀ p, 1 ≤ p → p ≤ a.last → (a.get? p).isSome = true

/-! ## Counting up to the last item -/

theorem dense_iff_slots (ha : a.Padded) : a.Dense ↔ ∀ i < a.last, (a.slotAt i).isSome = true := by
  constructor
  · intro h i hi
    rw [← get?_succ ha]
    exact h (i + 1) (by omega) hi
  · intro h p hpos hle
    obtain ⟨i, rfl⟩ := Nat.exists_eq_add_of_le' hpos
    rw [get?_succ ha]
    exact h i hle

/-- All items are in the slots up to the last one. -/
theorem Counted.items_eq_front (hc : a.Counted) (ha : a.Padded) :
    a.items = held (a.storage.extract 0 a.last) := by
  have hlast : a.last ≤ a.storage.size := Nat.le_trans (hc.last_le_size ha) ha.size_le
  have hrest : held (a.storage.extract a.last a.storage.size) = 0 := by
    refine held_eq_zero fun i => ?_
    rw [cell_extract]
    split
    · cases hslot : cell a.storage (a.last + i) with
      | none => rfl
      | some x =>
        have hlt := hc.lt_last (a.last + i) (by rw [slotAt, hslot]; rfl)
        omega
    · rfl
  have hsplit : held (a.storage.extract 0 a.storage.size) =
      held (a.storage.extract 0 a.last) + held (a.storage.extract a.last a.storage.size) :=
    held_extract (Nat.zero_le a.last) hlast
  rw [hrest, Nat.add_zero, Array.extract_size] at hsplit
  rw [hc.items_eq, hsplit]

theorem held_eq_size_iff {block : Array (Option α)} :
    held block = block.size ↔ ∀ i < block.size, (cell block i).isSome = true := by
  rw [held, Array.countP_eq_size]
  constructor
  · intro h i hi
    rw [cell, Array.getElem?_eq_getElem hi]
    exact h _ (Array.getElem_mem hi)
  · intro h slot hslot
    obtain ⟨i, hi, rfl⟩ := Array.mem_iff_getElem.mp hslot
    have hsome := h i hi
    rwa [cell, Array.getElem?_eq_getElem hi] at hsome

theorem Counted.items_le_last (hc : a.Counted) (ha : a.Padded) : a.items ≤ a.last := by
  have hle : held (a.storage.extract 0 a.last) ≤ _ := Array.countP_le_size
  rw [Array.size_extract] at hle
  rw [hc.items_eq_front ha]
  omega

/-- An array is dense if its items are as many as the positions up to the last one. -/
theorem dense_iff (ha : a.Padded) (hc : a.Counted) : a.Dense ↔ a.items = a.last := by
  have hlast : a.last ≤ a.storage.size := Nat.le_trans (hc.last_le_size ha) ha.size_le
  have hsize : (a.storage.extract 0 a.last).size = a.last := by
    rw [Array.size_extract]
    omega
  rw [dense_iff_slots ha, hc.items_eq_front ha]
  conv => rhs; rhs; rw [← hsize]
  rw [held_eq_size_iff, hsize]
  refine forall₂_congr fun i hi => ?_
  rw [cell_extract, Nat.zero_add, if_pos hi]
  rfl

/-! ## Looking for a hole -/

theorem densePrefix_of_dense (ha : a.Padded) (hc : a.Counted) (hdense : a.Dense) :
    a.densePrefix = .ok a.last := by
  have hitems := (dense_iff ha hc).mp hdense
  rcases densePrefix_cases hc with ⟨hok, _⟩ | ⟨hole, hlt, _, hnone, _⟩
  · rw [hok, hitems]
  · have hsome := (dense_iff_slots ha).mp hdense hole (by omega)
    rw [hnone] at hsome
    cases hsome

theorem Dense.detach_eq (hdense : a.Dense) (ha : a.Padded) (hc : a.Counted) :
    a.detach = .ok ({ storage := a.storage, size := a.size, items := a.items, last := a.last },
      { shape := a.shape }) := by
  rw [SlotArray.detach_eq, densePrefix_of_dense ha hc hdense]
  rfl

/-- The first hole, if there is one before the last item. -/
theorem densePrefix_of_not_dense (ha : a.Padded) (hc : a.Counted) (hsparse : ¬a.Dense) :
    ∃ p, IsLeast {k | 1 ≤ k ∧ a.get? k = none} p ∧ p < a.last ∧
      a.densePrefix = .error (.sparse p) := by
  rcases densePrefix_cases hc with ⟨_, hfront⟩ | ⟨hole, hlt, herr, hnone, hbefore⟩
  · -- items in all slots looked at leave none for the other slots, so the last one is among them
    refine absurd ((dense_iff_slots ha).mpr fun i hi => hfront i ?_) hsparse
    have hheld := hc.last_held (by omega)
    by_contra hle
    rw [hole_of_dense hc hfront (by omega)] at hheld
    cases hheld
  · have hitems := hc.items_le_last ha
    have hheld := hc.last_held (by omega)
    have hne : hole ≠ a.last - 1 := by
      rintro rfl
      rw [hnone] at hheld
      cases hheld
    refine ⟨hole + 1, ⟨⟨by omega, (get?_succ ha hole).trans hnone⟩, ?_⟩, by omega, herr⟩
    rintro k ⟨hpos, hk⟩
    obtain ⟨i, rfl⟩ := Nat.exists_eq_add_of_le' hpos
    rw [get?_succ ha] at hk
    by_contra hlt
    have hsome := hbefore i (by omega)
    rw [hk] at hsome
    cases hsome

end SlotArray

namespace Space

variable {a : SlotArray Ref}

/-- Whether an array can be sorted is told by the slots up to its last item, and they are what is
taken from it. Otherwise the answer is the first hole, and the array stays, with all of its space. -/
theorem densePrefix_finds_first_hole (ha : a.Coherent) :
    ((∃ n, a.densePrefix = .ok n) ↔ a.Dense) ∧
    ((∃ taken, a.detach = .ok taken) ↔ a.Dense) ∧
    (a.Dense ↔ a.items = a.last) ∧
    (∀ n, a.densePrefix = .ok n → ∀ p, (a.get? p).isSome = true ↔ 1 ≤ p ∧ p ≤ n) ∧
    (a.Dense → a.densePrefix = .ok a.last ∧
      a.detach = .ok ({ storage := a.storage, size := a.size, items := a.items, last := a.last },
        { shape := a.shape })) ∧
    (¬a.Dense → ∃ p, IsLeast {k | 1 ≤ k ∧ a.get? k = none} p ∧ p < a.last ∧
      a.densePrefix = .error (.sparse p) ∧ a.detach = .error (.sparse p) ∧
      ∀ (s : Space) (r : Ref), s.array r = .ok a →
        ∀ (σ : Type) (stable : Bool) (compare : Space → Sorting.Comparator Fault σ Ref) (memory : σ),
          sortBy r stable compare (s, memory) = .error (.sparse p) (s, memory)) := by
  obtain ⟨hpad, hcount, _⟩ := ha
  have hfull : a.Dense → a.densePrefix = .ok a.last := SlotArray.densePrefix_of_dense hpad hcount
  have hhole := SlotArray.densePrefix_of_not_dense hpad hcount
  have hok : ∀ n, a.densePrefix = .ok n → a.Dense := by
    intro n hn
    by_contra hsparse
    obtain ⟨p, _, _, herr⟩ := hhole hsparse
    rw [herr] at hn
    cases hn
  refine ⟨⟨fun ⟨n, hn⟩ => hok n hn, fun hdense => ⟨_, hfull hdense⟩⟩,
    ⟨?_, fun hdense => ⟨_, hdense.detach_eq hpad hcount⟩⟩, SlotArray.dense_iff hpad hcount, fun n hn p => ?_,
    fun hdense => ⟨hfull hdense, hdense.detach_eq hpad hcount⟩, fun hsparse => ?_⟩
  · rintro ⟨taken, htaken⟩
    obtain ⟨n, hn, _⟩ := bind_eq_ok htaken
    exact hok n hn
  · have hdense := hok n hn
    rw [hfull hdense] at hn
    cases hn
    constructor
    · intro hp
      obtain ⟨hpos, hheld⟩ := (SlotArray.isSome_get?_iff hpad).mp hp
      exact ⟨hpos, hcount.le_last hheld⟩
    · rintro ⟨hpos, hle⟩
      exact hdense p hpos hle
  · obtain ⟨p, hleast, hlt, herr⟩ := hhole hsparse
    have hdetach : a.detach = .error (.sparse p) := by
      rw [SlotArray.detach_eq, herr]
      rfl
    refine ⟨p, hleast, hlt, herr, hdetach, fun s r hr σ stable compare memory => ?_⟩
    exact sortBy_of_error (by rw [hr]; exact hdetach) stable compare memory

/-- The second of three positions is a hole, and the sort stops at it. -/
theorem densePrefix_finds_first_hole_second :
    let x : Ref := ⟨1, 1⟩
    let a : SlotArray Ref := { storage := #[some x, none, some x], size := 3, items := 2, last := 3 }
    a.Coherent ∧ ¬a.Dense ∧ a.densePrefix = .error (.sparse 2) ∧
      IsLeast {k | 1 ≤ k ∧ a.get? k = none} 2 := by
  intro x a
  have hslots : SlotArray.ofSlots #[some x, none, some x] {} = .ok a := by rfl
  have ha : a.Coherent := SlotArray.coherent_ofSlots hslots
  have hsparse : ¬a.Dense := by
    intro hdense
    have hheld : (a.get? 2).isSome = true := hdense 2 (by decide) (by decide)
    cases hheld
  obtain ⟨_, _, _, _, _, hhole⟩ := densePrefix_finds_first_hole ha
  obtain ⟨p, hleast, hlt, herr, _⟩ := hhole hsparse
  have hone : p ≠ 1 := by
    rintro rfl
    exact absurd hleast.1.2 (by decide)
  obtain rfl : p = 2 := by
    have hpos := hleast.1.1
    have hlast : p < 3 := hlt
    omega
  exact ⟨ha, hsparse, herr, hleast⟩

end Space

end Managed
