import Managed.Proofs.Heap.Remembered

/-!
# What a sweep leaves

A sweep acts on each slot by itself. An object that the collection covers and that bears no mark is
gone afterwards and its slot has the next serial; every other object keeps its value
(`resolve?_sweep`). Slots whose objects die become free (`mem_dying`).
-/

namespace Managed

/-- An entry after a sweep, if it is still there. -/
def Entry.swept {α : Type} (kind : CollectionKind) (threshold : UInt32) (e : Entry α) :
    Option (Entry α) :=
  if kind.covers e.header.generation then
    if e.header.marked then some { e with header := e.header.survive threshold } else none
  else some e

theorem Slot.entry_sweep {α : Type} (kind : CollectionKind) (threshold : UInt32) (s : Slot α) :
    (s.sweep kind threshold).entry = s.entry.bind (Entry.swept kind threshold) := by
  rw [sweep]
  cases he : s.entry with
  | none => simp [dies, he]
  | some e =>
    by_cases hc : kind.covers e.header.generation = true
    · by_cases hm : e.header.marked = true <;> simp [dies, he, hc, hm, Entry.swept]
    · simp [dies, he, hc, Entry.swept]

namespace Header

theorem survive_marked (threshold : UInt32) {k : Header} :
    (k.survive threshold).marked = false := by
  unfold survive
  split
  · rfl
  · split <;> rfl

theorem survive_remembered (threshold : UInt32) (k : Header) :
    (k.survive threshold).remembered = k.remembered := by
  unfold survive
  split
  · rfl
  · split <;> rfl

/-- Surviving makes no object younger. -/
theorem isYoung_of_survive {threshold : UInt32} {k : Header}
    (hy : (k.survive threshold).generation.isYoung = true) : k.generation.isYoung = true := by
  unfold survive at hy
  split at hy
  · exact hy
  · next g hg => simp [Generation.isYoung, hg]

end Header

namespace Heap

variable {α : Type}

/-! ## Lists of slots -/

theorem mem_filterMap_zipIdx {β : Type} {p : Slot α → Bool} {f : Slot α → Nat → β} {h : Heap α}
    {b : β} :
    (b ∈ h.slots.toList.zipIdx.filterMap fun (s, i) => if p s then some (f s i) else none) ↔
      ∃ s i, h.slots[i]? = some s ∧ p s = true ∧ f s i = b := by
  simp only [List.mem_filterMap, Prod.exists, List.mem_zipIdx_iff_getElem?, Array.getElem?_toList]
  constructor
  · rintro ⟨s, i, hs, hb⟩
    split at hb
    · next hp => exact ⟨s, i, hs, hp, Option.some.inj hb⟩
    · cases hb
  · rintro ⟨s, i, hs, hp, rfl⟩
    exact ⟨s, i, hs, by rw [if_pos hp]⟩

/-- A list made slot by slot, of things that tell the index of their slot, has no repetitions. -/
theorem nodup_filterMap_zipIdx {β : Type} {f : Slot α × Nat → Option β} {h : Heap α} (key : β → Nat)
    (hkey : ∀ s i b, f (s, i) = some b → key b = i) : (h.slots.toList.zipIdx.filterMap f).Nodup := by
  have hindexes : h.slots.toList.zipIdx.Pairwise fun p q => p.2 ≠ q.2 := by
    rw [← List.pairwise_map, List.zipIdx_map_snd]
    exact List.nodup_range'
  refine hindexes.filterMap f fun p q hne b hb c hc heq => hne ?_
  rw [← hkey p.1 p.2 b hb, ← hkey q.1 q.2 c hc, heq]

/-- Whether a sweep frees the object that `r` names. -/
def dies (kind : CollectionKind) (h : Heap α) (r : Ref) : Bool :=
  h.covered kind r && !h.hasMark r

theorem dies_slot {kind : CollectionKind} {h : Heap α} {i : Nat} {s : Slot α}
    (hs : h.slots[i]? = some s) : h.dies kind ⟨i, s.serial⟩ = s.dies kind := by
  have hr : h.resolve? ⟨i, s.serial⟩ = s.entry := by
    simp [resolve?, hs, Slot.entryFor?_eq]
  simp only [dies, covered, hasMark, hr, Slot.dies]
  cases s.entry <;> rfl

theorem mem_dying {kind : CollectionKind} {h : Heap α} {i : Nat} :
    i ∈ h.dying kind ↔ ∃ u, h.serial? i = some u ∧ h.dies kind ⟨i, u⟩ = true := by
  unfold dying
  rw [mem_filterMap_zipIdx (f := fun _ i => i)]
  constructor
  · rintro ⟨s, _, hs, hd, rfl⟩
    exact ⟨s.serial, by simp [serial?, hs], by rw [dies_slot hs, hd]⟩
  · rintro ⟨u, hu, hd⟩
    obtain ⟨s, hs, rfl⟩ := Option.map_eq_some_iff.mp hu
    exact ⟨s, i, hs, by rw [← dies_slot hs, hd], rfl⟩

theorem nodup_dying (kind : CollectionKind) (h : Heap α) : (h.dying kind).Nodup := by
  refine nodup_filterMap_zipIdx id fun s i j hj => ?_
  dsimp only at hj
  split at hj
  · cases hj
    rfl
  · cases hj

/-- The handles of the maturing objects carry the serials of their slots. -/
theorem maturing_eq (h : Heap α) : h.maturing = h.slots.toList.zipIdx.filterMap fun (s, i) =>
    if s.matures h.limits.nurseryThreshold then some ⟨i, s.serial⟩ else none := by
  unfold maturing
  congr 1
  funext ⟨s, i⟩
  dsimp only
  split
  · next hm =>
    obtain ⟨e, he, _⟩ := (Option.any_eq_true _ _).mp hm
    rw [s.occupant_map_serial fun u => (⟨i, u⟩ : Ref), he, Option.map_some]
  · rfl

theorem liveRefs_eq (h : Heap α) : h.liveRefs =
    h.slots.toList.zipIdx.filterMap fun (s, i) => s.entry.map fun _ => ⟨i, s.serial⟩ := by
  unfold liveRefs
  congr 1
  funext ⟨s, i⟩
  exact s.occupant_map_serial fun u => (⟨i, u⟩ : Ref)

theorem mem_maturing {h : Heap α} {r : Ref} :
    r ∈ h.maturing ↔ ∃ e, h.resolve? r = some e ∧ e.header.marked = true ∧
      e.header.generation.isYoung = true ∧
      (e.header.survive h.limits.nurseryThreshold).generation = .old := by
  rw [maturing_eq, mem_filterMap_zipIdx (f := fun s i => (⟨i, s.serial⟩ : Ref))]
  simp only [Slot.matures, Option.any_eq_true, Bool.and_eq_true, beq_iff_eq, resolve?_eq_some]
  constructor
  · rintro ⟨s, i, hs, ⟨e, he, ⟨hm, hy⟩, ho⟩, rfl⟩
    exact ⟨e, ⟨s, hs, rfl, he⟩, hm, hy, ho⟩
  · rintro ⟨e, ⟨s, hs, hser, he⟩, hm, hy, ho⟩
    exact ⟨s, r.index, hs, ⟨e, he, ⟨hm, hy⟩, ho⟩, by rw [hser]⟩

theorem mem_liveRefs {h : Heap α} {r : Ref} : r ∈ h.liveRefs ↔ h.contains r = true := by
  simp only [liveRefs_eq, List.mem_filterMap, Prod.exists, List.mem_zipIdx_iff_getElem?,
    Array.getElem?_toList, Option.map_eq_some_iff, contains_iff, resolve?_eq_some]
  constructor
  · rintro ⟨s, i, hs, e, he, rfl⟩
    exact ⟨e, s, hs, rfl, he⟩
  · rintro ⟨e, s, hs, hser, he⟩
    exact ⟨s, r.index, hs, e, he, by rw [hser]⟩

/-! ## Sweeping -/

theorem resolve?_sweep (kind : CollectionKind) (h : Heap α) (x : Ref) :
    (h.sweep kind).resolve? x =
      (h.resolve? x).bind (Entry.swept kind h.limits.nurseryThreshold) := by
  simp only [resolve?, sweep, Array.getElem?_map]
  cases h.slots[x.index]? with
  | none => rfl
  | some s =>
    simp only [Option.map_some, Option.bind_some, Slot.entryFor?_eq, Slot.entry_sweep]
    by_cases hd : s.dies kind = true
    · have hgone : s.entry.bind (Entry.swept kind h.limits.nurseryThreshold) = none := by
        rw [← Slot.entry_sweep, Slot.sweep, if_pos hd, Slot.entry_vacant]
      rw [hgone, ite_self]
      split
      · exact hgone.symm
      · rfl
    · have hserial : (s.sweep kind h.limits.nurseryThreshold).serial = s.serial := by
        rw [Slot.sweep, if_neg hd, Slot.serial_map]
      rw [hserial]
      split <;> rfl

theorem serial?_sweep (kind : CollectionKind) (h : Heap α) (i : Nat) :
    (h.sweep kind).serial? i =
      (h.serial? i).map fun u => if h.dies kind ⟨i, u⟩ then u + 1 else u := by
  simp only [serial?, sweep, Array.getElem?_map, Option.map_map]
  cases hs : h.slots[i]? with
  | none => rfl
  | some s =>
    simp only [Option.map_some, Function.comp_apply, dies_slot hs, Option.some.injEq]
    rw [Slot.sweep]
    split <;> rfl

theorem resolve?_sweep_of_dies {kind : CollectionKind} {h : Heap α} {x : Ref}
    (hd : h.dies kind x = true) : (h.sweep kind).resolve? x = none := by
  rw [resolve?_sweep]
  cases he : h.resolve? x with
  | none => rfl
  | some e =>
    simp only [dies, covered, hasMark, he, Option.any_some, Bool.and_eq_true, Bool.not_eq_true'] at hd
    simp [Entry.swept, hd.1, hd.2]

/-- An object that does not die keeps its value; what happens to its generation is decided by its
header alone. -/
theorem resolve?_sweep_of_not_dies {kind : CollectionKind} {h : Heap α} {x : Ref} {e : Entry α}
    (he : h.resolve? x = some e) (hd : h.dies kind x = false) :
    ∃ e', (h.sweep kind).resolve? x = some e' ∧ e'.value = e.value ∧
      e'.header.remembered = e.header.remembered ∧
      (e'.header.marked = true → kind.covers e.header.generation = false ∧ e.header.marked = true) ∧
      (e'.header.generation.isYoung = true → e.header.generation.isYoung = true) ∧
      (e'.header.generation = .old → e.header.generation = .old ∨ x ∈ h.maturing) := by
  rw [resolve?_sweep, he, Option.bind_some, Entry.swept]
  simp only [dies, covered, hasMark, he, Option.any_some] at hd
  by_cases hc : kind.covers e.header.generation = true
  · have hm : e.header.marked = true := by simpa [hc] using hd
    rw [if_pos hc, if_pos hm]
    refine ⟨_, rfl, rfl, Header.survive_remembered _ _, ?_, Header.isYoung_of_survive, fun ho => ?_⟩
    · intro hm'
      rw [Header.survive_marked] at hm'
      cases hm'
    · cases hg : e.header.generation with
      | old => exact Or.inl rfl
      | nursery => exact Or.inr (mem_maturing.mpr ⟨e, he, hm, by rw [hg]; rfl, ho⟩)
      | survivor => exact Or.inr (mem_maturing.mpr ⟨e, he, hm, by rw [hg]; rfl, ho⟩)
  · rw [if_neg hc]
    exact ⟨e, rfl, rfl, rfl, fun hm => ⟨by simpa using hc, hm⟩, fun hy => hy, Or.inl⟩

theorem resolve?_of_sweep {kind : CollectionKind} {h : Heap α} {x : Ref} {e' : Entry α}
    (he' : (h.sweep kind).resolve? x = some e') :
    ∃ e, h.resolve? x = some e ∧ h.dies kind x = false := by
  cases hd : h.dies kind x with
  | true =>
    rw [resolve?_sweep_of_dies hd] at he'
    cases he'
  | false =>
    cases he : h.resolve? x with
    | none =>
      rw [resolve?_sweep, he] at he'
      cases he'
    | some e => exact ⟨e, rfl, rfl⟩

theorem vacant_sweep_of_mem_dying {kind : CollectionKind} {h : Heap α} {i : Nat}
    (hi : i ∈ h.dying kind) : (h.sweep kind).Vacant i := by
  obtain ⟨u, hu, hd⟩ := mem_dying.mp hi
  refine ⟨u + 1, by simp [serial?_sweep, hu, hd], ?_⟩
  cases hr : (h.sweep kind).resolve? ⟨i, u + 1⟩ with
  | none => rfl
  | some e' =>
    -- the slot had the serial `u`, so nothing resolved under the next one
    obtain ⟨e, he, _⟩ := resolve?_of_sweep hr
    have hser := serial?_of_resolve? he
    rw [hu, Option.some.injEq] at hser
    simp at hser

theorem vacant_sweep {kind : CollectionKind} {h : Heap α} {i : Nat} (hv : h.Vacant i) :
    (h.sweep kind).Vacant i := by
  obtain ⟨u, hu, hnone⟩ := hv
  have hd : h.dies kind ⟨i, u⟩ = false := by simp [dies, covered, hnone]
  exact ⟨u, by simp [serial?_sweep, hu, hd], by rw [resolve?_sweep, hnone]; rfl⟩

theorem not_vacant_of_mem_dying {kind : CollectionKind} {h : Heap α} {i : Nat}
    (hi : i ∈ h.dying kind) : ¬ h.Vacant i := by
  rintro hv
  obtain ⟨u, hu, hd⟩ := mem_dying.mp hi
  have hnone : h.resolve? ⟨i, u⟩ = none := resolve?_of_vacant hv
  simp [dies, covered, hnone] at hd

end Heap

end Managed
