import Mathlib.Data.List.Nodup
import Managed.Proofs.Heap.Session

/-!
# The live objects of a heap

The handles of the live objects, each listed once, are what a heap counts. Two heaps whose slots are
occupied alike have equally many, an allocation adds one (`Allocated.length_liveRefs`), and a
collection takes away as many as its sweep frees (`length_liveRefs_collect`). The objects that a sweep
makes old are those that were young before and are old afterwards (`mem_maturing_walked`).
-/

namespace Managed.Heap

variable {α : Type}

/-! ## Listing -/

theorem nodup_liveRefs (h : Heap α) : h.liveRefs.Nodup := by
  refine nodup_filterMap_zipIdx Ref.index fun s i r hr => ?_
  obtain ⟨_, _, rfl⟩ := Option.map_eq_some_iff.mp hr
  rfl

theorem nodup_maturing (h : Heap α) : h.maturing.Nodup := by
  refine nodup_filterMap_zipIdx Ref.index fun s i r hr => ?_
  dsimp only at hr
  split at hr
  · obtain ⟨_, _, rfl⟩ := Option.map_eq_some_iff.mp hr
    rfl
  · cases hr

theorem length_liveRefs (h : Heap α) : h.liveRefs.length = h.slots.countP (·.entry.isSome) := by
  rw [liveRefs_eq, List.length_filterMap_eq_countP, ← Array.countP_toList]
  conv => rhs; rw [← List.zipIdx_map_fst 0 h.slots.toList, List.countP_map]
  congr 1
  funext p
  exact Option.isSome_map

theorem length_liveRefs_le (h : Heap α) : h.liveRefs.length ≤ h.slots.size := by
  rw [length_liveRefs]
  exact Array.countP_le_size

/-- Lists of live objects are compared by what they list. -/
theorem length_liveRefs_eq {h : Heap α} {refs : List Ref} (hnodup : refs.Nodup)
    (hmem : ∀ x, x ∈ refs ↔ h.contains x = true) : h.liveRefs.length = refs.length := by
  refine List.Perm.length_eq ((List.perm_ext_iff_of_nodup h.nodup_liveRefs hnodup).mpr fun x => ?_)
  rw [mem_liveRefs, hmem]

theorem SamePlaces.length_liveRefs {h h' : Heap α} (hs : SamePlaces h h') :
    h'.liveRefs.length = h.liveRefs.length :=
  length_liveRefs_eq h.nodup_liveRefs fun x => by rw [mem_liveRefs, hs.contains]

theorem Allocated.length_liveRefs {h h' : Heap α} {v : α} {r : Ref} (ha : Allocated h v r h') :
    h'.liveRefs.length = h.liveRefs.length + 1 := by
  have hnew : r ∉ h.liveRefs := by
    rw [mem_liveRefs, Heap.contains, ha.stale]
    exact Bool.false_ne_true
  refine length_liveRefs_eq (List.nodup_cons.mpr ⟨hnew, h.nodup_liveRefs⟩) fun x => ?_
  rw [List.mem_cons, mem_liveRefs, ha.contains, Bool.or_eq_true, beq_iff_eq]

/-- If no slot is free, all slots hold live objects. -/
theorem size_le_length_liveRefs {h : Heap α} (hfull : ∀ i, ¬ h.Vacant i) :
    h.slots.size ≤ h.liveRefs.length := by
  rw [length_liveRefs]
  refine Nat.le_of_eq (Array.countP_eq_size.mpr fun s hs => ?_).symm
  obtain ⟨i, hi⟩ := Array.mem_iff_getElem?.mp hs
  have hser : h.serial? i = some s.serial := by simp [serial?, hi]
  cases he : s.entry with
  | some e => rfl
  | none =>
    refine absurd ⟨s.serial, hser, ?_⟩ (hfull i)
    simp [resolve?, hi, Slot.entryFor?_eq, he]

/-! ## Generations -/

theorem needsBarrier_of_isYoung {h : Heap α} {r : Ref} (hy : h.isYoung r = true) :
    h.needsBarrier r = false := by
  obtain ⟨e, he, hy⟩ := isYoung_iff.mp hy
  rw [needsBarrier, he, Option.any_some, beq_eq_false_iff_ne]
  intro hold
  rw [hold] at hy
  cases hy

theorem contains_of_isYoung {h : Heap α} {r : Ref} (hy : h.isYoung r = true) :
    h.contains r = true := by
  obtain ⟨e, he, _⟩ := isYoung_iff.mp hy
  exact contains_iff.mpr ⟨e, he⟩

/-- The objects that are young in `h` and old in `h'`. -/
def promotions (h h' : Heap α) : List Ref :=
  h.liveRefs.filter fun r => h.isYoung r && h'.needsBarrier r

theorem mem_promotions {h h' : Heap α} {r : Ref} :
    r ∈ h.promotions h' ↔ h.isYoung r = true ∧ h'.needsBarrier r = true := by
  rw [promotions, List.mem_filter, mem_liveRefs, Bool.and_eq_true, and_iff_right_iff_imp]
  exact fun hr => contains_of_isYoung hr.1

theorem length_promotions {h h' : Heap α} {refs : List Ref} (hnodup : refs.Nodup)
    (hmem : ∀ r, r ∈ refs ↔ h.isYoung r = true ∧ h'.needsBarrier r = true) :
    (h.promotions h').length = refs.length := by
  refine List.Perm.length_eq
    ((List.perm_ext_iff_of_nodup (h.nodup_liveRefs.filter _) hnodup).mpr fun r => ?_)
  exact mem_promotions.trans (hmem r).symm

/-- No promotion happens where all old objects were old before. -/
theorem length_promotions_eq_zero {h h' : Heap α}
    (hold : ∀ r, h'.needsBarrier r = true → h.needsBarrier r = true) :
    (h.promotions h').length = 0 := by
  refine length_promotions List.nodup_nil fun r => ⟨fun hr => ?_, fun ⟨hy, hr⟩ => ?_⟩
  · cases hr
  · have hr' := hold r hr
    rw [needsBarrier_of_isYoung hy] at hr'
    cases hr'

/-! ## Collections -/

theorem dying_eq (kind : CollectionKind) (h : Heap α) :
    h.dying kind = (h.liveRefs.filter (h.dies kind)).map Ref.index := by
  unfold dying
  rw [liveRefs_eq, List.filter_filterMap, List.map_filterMap]
  refine List.filterMap_congr fun p hp => ?_
  obtain ⟨s, i⟩ := p
  have hs : h.slots[i]? = some s := by
    rw [← Array.getElem?_toList]
    exact List.mem_zipIdx_iff_getElem?.mp hp
  cases he : s.entry with
  | none => simp [Slot.dies, he]
  | some e =>
    have hd : h.dies kind ⟨i, s.serial⟩ = s.dies kind := dies_slot hs
    cases hd' : s.dies kind <;> simp [Option.filter, hd, hd', he]

variable [Traced α]

section

variable {h : Heap α} (ht : h.Tidy) (kind : CollectionKind) (roots : RootSet)
include ht

/-- A collection leaves as many objects as its sweep does not free. -/
theorem length_liveRefs_collect :
    (h.collect kind roots).liveRefs.length + ((h.walked kind roots).dying kind).length =
      h.liveRefs.length := by
  have hw := sameObjects_walked ht kind roots
  have hkept : (h.collect kind roots).liveRefs.length =
      (h.liveRefs.filter (h.spares kind roots)).length := by
    refine length_liveRefs_eq (h.nodup_liveRefs.filter _) fun x => ?_
    rw [List.mem_filter, mem_liveRefs, contains_collect ht, Bool.and_eq_true]
  have hdead : ((h.walked kind roots).dying kind).length =
      (h.liveRefs.filter fun x => !h.spares kind roots x).length := by
    rw [dying_eq, List.length_map]
    refine List.Perm.length_eq ((List.perm_ext_iff_of_nodup
      ((h.walked kind roots).nodup_liveRefs.filter _) (h.nodup_liveRefs.filter _)).mpr fun x => ?_)
    rw [List.mem_filter, List.mem_filter, mem_liveRefs, mem_liveRefs, hw.contains, spares,
      Bool.not_not]
  rw [hkept, hdead, ← List.countP_eq_length_filter, ← List.countP_eq_length_filter,
    List.length_eq_countP_add_countP (h.spares kind roots)]
  simp

theorem isYoung_of_mem_maturing {x : Ref} (hx : x ∈ (h.walked kind roots).maturing) :
    h.isYoung x = true := by
  obtain ⟨e, he, _, hy, _⟩ := mem_maturing.mp hx
  rw [← (sameObjects_walked ht kind roots).isYoung]
  exact isYoung_iff.mpr ⟨e, he, hy⟩

theorem needsBarrier_of_mem_maturing {x : Ref} (hx : x ∈ (h.walked kind roots).maturing) :
    (h.collect kind roots).needsBarrier x = true := by
  obtain ⟨e, he, hm, hy, hold⟩ := mem_maturing.mp hx
  have hc : kind.covers e.header.generation = true := by
    cases kind with
    | minor => exact hy
    | major => rfl
  rw [(sameObjects_collect ht kind roots).needsBarrier]
  refine needsBarrier_iff.mpr
    ⟨{ e with header := e.header.survive (h.walked kind roots).limits.nurseryThreshold }, ?_, hold⟩
  rw [resolve?_sweep, he, Option.bind_some, Entry.swept, if_pos hc, if_pos hm]

/-- The objects that a collection makes old. -/
theorem mem_maturing_walked {x : Ref} :
    x ∈ (h.walked kind roots).maturing ↔
      h.isYoung x = true ∧ (h.collect kind roots).needsBarrier x = true := by
  constructor
  · intro hx
    exact ⟨isYoung_of_mem_maturing ht kind roots hx, needsBarrier_of_mem_maturing ht kind roots hx⟩
  · rintro ⟨hy, hold⟩
    rcases needsBarrier_of_collect ht kind roots hold with hold | hx
    · rw [needsBarrier_of_isYoung hy] at hold
      cases hold
    · exact hx

theorem length_promotions_collect :
    (h.promotions (h.collect kind roots)).length = (h.walked kind roots).maturing.length :=
  length_promotions (nodup_maturing _) fun _ => mem_maturing_walked ht kind roots

end

end Managed.Heap
