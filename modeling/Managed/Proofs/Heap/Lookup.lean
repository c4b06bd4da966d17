import Managed.Heap.Collection

/-!
# What a heap shows through its handles

A heap is looked at in two ways: by the entry that a handle resolves to and by the serial that a slot
has now. This file says how each change to a heap changes the two, so that later proofs need not look
at the table of slots.

* `resolve?_modifyEntry`, `resolve?_place`: a change is seen through one handle only.
* `alloc_cases`: a new object gets a handle that resolved to nothing before.
* `SameObjects`: two heaps with the same objects, which may differ in marks and in what they
  remember. Such heaps answer alike to everything a mutator can ask.
-/

namespace Managed.Heap

variable {α : Type}

/-! ## Slots -/

/-- The serial that slot `i` has now. -/
def serial? (h : Heap α) (i : Nat) : Option UInt32 :=
  h.slots[i]?.map Slot.serial

theorem entryFor?_eq_some {s : Slot α} {u : UInt32} {e : Entry α} :
    s.entryFor? u = some e ↔ s.serial = u ∧ s.entry = some e := by
  simp [Slot.entryFor?_eq]

theorem resolve?_eq_some {h : Heap α} {r : Ref} {e : Entry α} :
    h.resolve? r = some e ↔
      ∃ s, h.slots[r.index]? = some s ∧ s.serial = r.serial ∧ s.entry = some e := by
  simp [resolve?, Option.bind_eq_some_iff, entryFor?_eq_some]

theorem serial?_of_resolve? {h : Heap α} {r : Ref} {e : Entry α} (he : h.resolve? r = some e) :
    h.serial? r.index = some r.serial := by
  obtain ⟨s, hs, hser, _⟩ := resolve?_eq_some.mp he
  simp [serial?, hs, hser]

theorem contains_iff {h : Heap α} {r : Ref} : h.contains r = true ↔ ∃ e, h.resolve? r = some e := by
  simp [contains, Option.isSome_iff_exists]

theorem get?_eq_some {h : Heap α} {r : Ref} {v : α} :
    h.get? r = some v ↔ ∃ e, h.resolve? r = some e ∧ e.value = v := by
  simp [get?, Option.map_eq_some_iff]

theorem contains_iff_get? {h : Heap α} {r : Ref} : h.contains r = true ↔ ∃ v, h.get? r = some v := by
  rw [contains, get?, ← Option.isSome_map (f := Entry.value), Option.isSome_iff_exists]

theorem get?_of_resolve? {h : Heap α} {r : Ref} {e : Entry α} (he : h.resolve? r = some e) :
    h.get? r = some e.value := by
  simp [get?, he]

theorem isYoung_iff {h : Heap α} {r : Ref} :
    h.isYoung r = true ↔ ∃ e, h.resolve? r = some e ∧ e.header.generation.isYoung = true := by
  simp [isYoung, Option.any_eq_true]

theorem needsBarrier_iff {h : Heap α} {r : Ref} :
    h.needsBarrier r = true ↔ ∃ e, h.resolve? r = some e ∧ e.header.generation = .old := by
  simp [needsBarrier, Option.any_eq_true]

/-- A live object that is not young is old. -/
theorem needsBarrier_of_not_isYoung {h : Heap α} {r : Ref} (hlive : h.contains r = true)
    (hy : h.isYoung r = false) : h.needsBarrier r = true := by
  obtain ⟨e, he⟩ := contains_iff.mp hlive
  refine needsBarrier_iff.mpr ⟨e, he, ?_⟩
  rw [isYoung, he, Option.any_some] at hy
  cases hg : e.header.generation with
  | old => rfl
  | nursery =>
    rw [hg] at hy
    cases hy
  | survivor =>
    rw [hg] at hy
    cases hy

/-! ## Changing one entry -/

theorem resolve?_modifyEntry (h : Heap α) (r : Ref) (f : Entry α → Entry α) (x : Ref) :
    (h.modifyEntry r f).resolve? x = if x = r then (h.resolve? r).map f else h.resolve? x := by
  simp only [resolve?, modifyEntry, Array.getElem?_modify, Slot.modifyFor_eq]
  by_cases hi : r.index = x.index
  · rw [if_pos hi, hi]
    cases h.slots[x.index]? with
    | none => simp
    | some s =>
      by_cases hx : x = r
      · subst hx
        by_cases hs : s.serial = x.serial <;> simp [Slot.entryFor?_eq, hs]
      · have hne : x.serial ≠ r.serial := by
          intro hs
          apply hx
          cases x
          cases r
          simp_all
        by_cases hs : s.serial = r.serial
        · have hsx : ¬ s.serial = x.serial := fun h' => hne (h'.symm.trans hs)
          simp [Slot.entryFor?_eq, hs, hx, Ne.symm hne]
        · simp [hs, hx]
  · rw [if_neg hi, if_neg]
    intro hx
    exact hi (by rw [hx])

@[simp]
theorem remembered_modifyEntry (h : Heap α) (r : Ref) (f : Entry α → Entry α) :
    (h.modifyEntry r f).remembered = h.remembered := rfl

@[simp]
theorem serial?_modifyEntry (h : Heap α) (r : Ref) (f : Entry α → Entry α) (i : Nat) :
    (h.modifyEntry r f).serial? i = h.serial? i := by
  simp only [serial?, modifyEntry, Array.getElem?_modify, Slot.modifyFor_eq]
  split
  · cases h.slots[i]? with
    | none => rfl
    | some s => simp only [Option.map_some]; split <;> rfl
  · rfl

theorem contains_modifyEntry (h : Heap α) (r : Ref) (f : Entry α → Entry α) (x : Ref) :
    (h.modifyEntry r f).contains x = h.contains x := by
  simp only [contains, resolve?_modifyEntry]
  split
  · next hx => subst hx; simp
  · rfl

theorem resolve?_modifyHeader (h : Heap α) (r : Ref) (f : Header → Header) (x : Ref) :
    (h.modifyHeader r f).resolve? x =
      if x = r then (h.resolve? r).map (fun e => { e with header := f e.header })
      else h.resolve? x :=
  resolve?_modifyEntry h r _ x

theorem set_eq_ok {h h' : Heap α} {r : Ref} {v : α} (hs : h.set r v = .ok h') :
    h.contains r = true ∧ h' = h.modifyEntry r fun e => { e with value := v } := by
  unfold set at hs
  split at hs
  · next hr => cases hs; exact ⟨hr, rfl⟩
  · cases hs

/-! ## Allocation -/

/-- The empty slot `i` is the one whose entry is missing now. -/
def Vacant (h : Heap α) (i : Nat) : Prop :=
  ∃ u, h.serial? i = some u ∧ h.resolve? ⟨i, u⟩ = none

theorem resolve?_of_vacant {h : Heap α} {r : Ref} (hv : h.Vacant r.index) : h.resolve? r = none := by
  obtain ⟨u, hu, hnone⟩ := hv
  cases hr : h.resolve? r with
  | none => rfl
  | some e =>
    have hser := serial?_of_resolve? hr
    rw [hu, Option.some.injEq] at hser
    subst hser
    rw [hnone] at hr
    cases hr

theorem place_fst {h : Heap α} {i : Nat} {u : UInt32} (hu : h.serial? i = some u) (v : α) :
    (h.place i v).1 = ⟨i, u⟩ := by
  simp only [serial?] at hu
  simp [place, hu]

theorem resolve?_place {h : Heap α} {i : Nat} {u : UInt32} (hu : h.serial? i = some u)
    (hnone : h.resolve? ⟨i, u⟩ = none) (v : α) (x : Ref) :
    (h.place i v).2.resolve? x = if x = ⟨i, u⟩ then some { value := v } else h.resolve? x := by
  obtain ⟨s, hs, rfl⟩ := Option.map_eq_some_iff.mp hu
  simp only [place, resolve?, Array.getElem?_modify]
  by_cases hi : i = x.index
  · subst hi
    have hse : s.entry = none := by
      simpa [resolve?, hs, Slot.entryFor?_eq] using hnone
    rw [if_pos rfl, hs]
    by_cases hx : x = ⟨x.index, s.serial⟩
    · rw [if_pos hx]
      have hser : s.serial = x.serial := by rw [hx]
      simp [Slot.entryFor?_eq, hser]
    · rw [if_neg hx]
      have hser : ¬ s.serial = x.serial := by
        intro h'
        apply hx
        rw [h']
      simp [Slot.entryFor?_eq, hser]
  · rw [if_neg hi, if_neg]
    rintro rfl
    exact hi rfl

@[simp]
theorem serial?_place (h : Heap α) (i : Nat) (v : α) (j : Nat) :
    (h.place i v).2.serial? j = h.serial? j := by
  simp only [serial?, place, Array.getElem?_modify]
  split
  · cases h.slots[j]? <;> rfl
  · rfl

/-- A heap whose table has one more slot, which is empty. -/
theorem resolve?_push (h : Heap α) (x : Ref) :
    ({ h with slots := h.slots.push (.vacant 0) } : Heap α).resolve? x = h.resolve? x := by
  simp only [resolve?, Array.getElem?_push]
  split
  · next hx =>
    rw [Array.getElem?_eq_none (by omega)]
    simp [Slot.entryFor?_eq]
  · rfl

theorem serial?_push (h : Heap α) (i : Nat) :
    ({ h with slots := h.slots.push (.vacant 0) } : Heap α).serial? i =
      if i = h.slots.size then some 0 else h.serial? i := by
  simp only [serial?, Array.getElem?_push]
  split <;> rfl

theorem serial?_eq_none {h : Heap α} {i : Nat} : h.serial? i = none ↔ h.slots.size ≤ i := by
  simp [serial?]

/-- What an allocation does: it takes the first free slot or a new one, and the new object is seen
through a handle that resolved to nothing before. -/
structure Allocated (h : Heap α) (v : α) (r : Ref) (h' : Heap α) : Prop where
  stale : h.resolve? r = none
  resolve : ∀ x, h'.resolve? x = if x = r then some { value := v } else h.resolve? x
  remembered : h'.remembered = h.remembered
  slot :
    (h.free = r.index :: h'.free ∧ h.serial? r.index = some r.serial ∧
      ∀ i, h'.serial? i = h.serial? i) ∨
    (h.free = [] ∧ h'.free = [] ∧ h.serial? r.index = none ∧ r.serial = 0 ∧
      ∀ i, h'.serial? i = if i = r.index then some 0 else h.serial? i)

theorem alloc_cases {h h' : Heap α} {v : α} {r : Ref} (ha : h.alloc v = .ok (r, h'))
    (hfree : ∀ i ∈ h.free, h.Vacant i) : Allocated h v r h' := by
  unfold alloc at ha
  split at ha
  · cases ha
  split at ha
  · next i rest hf =>
    obtain ⟨u, hu, hnone⟩ := hfree i (by rw [hf]; exact List.mem_cons_self)
    have hu' : ({ h with free := rest } : Heap α).serial? i = some u := hu
    have hr := place_fst hu' v
    have hp := Except.ok.inj ha
    rw [hp] at hr
    simp only at hr
    subst hr
    obtain rfl : _ = h' := congrArg Prod.snd hp
    exact ⟨hnone, resolve?_place hu' hnone v, rfl, Or.inl ⟨hf, hu, serial?_place _ i v⟩⟩
  · next hf =>
    split at ha
    · have hu : ({ h with slots := h.slots.push (.vacant 0) } : Heap α).serial? h.slots.size = some 0 := by
        rw [serial?_push, if_pos rfl]
      have hnone : h.resolve? ⟨h.slots.size, 0⟩ = none := by
        rw [resolve?, Array.getElem?_eq_none (Nat.le_refl _)]
        rfl
      have hr := place_fst hu v
      have hp := Except.ok.inj ha
      rw [hp] at hr
      simp only at hr
      subst hr
      obtain rfl : _ = h' := congrArg Prod.snd hp
      refine ⟨hnone, fun x => ?_, rfl,
        Or.inr ⟨hf, hf, serial?_eq_none.mpr (Nat.le_refl _), rfl, fun i => ?_⟩⟩
      · rw [resolve?_place hu ((resolve?_push h _).trans hnone), resolve?_push]
      · rw [serial?_place, serial?_push]
    · cases ha

theorem Allocated.get? {h h' : Heap α} {v : α} {r : Ref} (ha : Allocated h v r h') (x : Ref) :
    h'.get? x = if x = r then some v else h.get? x := by
  rw [Heap.get?, ha.resolve]
  split <;> rfl

/-- What was there is still there. -/
theorem Allocated.resolve_of_resolve {h h' : Heap α} {v : α} {r x : Ref} {e : Entry α}
    (ha : Allocated h v r h') (hx : h.resolve? x = some e) : h'.resolve? x = some e := by
  rw [ha.resolve, if_neg, hx]
  rintro rfl
  rw [ha.stale] at hx
  cases hx

theorem Allocated.get?_of_get? {h h' : Heap α} {v w : α} {r x : Ref} (ha : Allocated h v r h')
    (hx : h.get? x = some w) : h'.get? x = some w := by
  obtain ⟨e, he, hw⟩ := get?_eq_some.mp hx
  exact get?_eq_some.mpr ⟨e, ha.resolve_of_resolve he, hw⟩

end Managed.Heap

/-- What does not depend on a collection that may be under way: the generation and the value. -/
def Managed.Entry.face {α : Type} (e : Managed.Entry α) : Managed.Generation × α :=
  (e.header.generation, e.value)

namespace Managed.Heap

variable {α : Type}

/-- Two heaps with the same objects in the same slots. They may differ in marks, ages and in what
they remember. -/
structure SameObjects (h h' : Heap α) : Prop where
  limits : h'.limits = h.limits
  free : h'.free = h.free
  serial : ∀ i, h'.serial? i = h.serial? i
  face : ∀ x, (h'.resolve? x).map Entry.face = (h.resolve? x).map Entry.face

namespace SameObjects

theorem refl (h : Heap α) : SameObjects h h :=
  ⟨rfl, rfl, fun _ => rfl, fun _ => rfl⟩

theorem trans {h₁ h₂ h₃ : Heap α} (h : SameObjects h₁ h₂) (h' : SameObjects h₂ h₃) :
    SameObjects h₁ h₃ :=
  ⟨h'.limits.trans h.limits, h'.free.trans h.free, fun i => (h'.serial i).trans (h.serial i),
    fun x => (h'.face x).trans (h.face x)⟩

variable {h h' : Heap α}

theorem get? (hs : SameObjects h h') (x : Ref) : h'.get? x = h.get? x := by
  have hf := congrArg (Option.map Prod.snd) (hs.face x)
  rw [Option.map_map, Option.map_map] at hf
  exact hf

theorem contains (hs : SameObjects h h') (x : Ref) : h'.contains x = h.contains x := by
  have hf := congrArg Option.isSome (hs.face x)
  rw [Option.isSome_map, Option.isSome_map] at hf
  exact hf

theorem isYoung (hs : SameObjects h h') (x : Ref) : h'.isYoung x = h.isYoung x := by
  have hf := congrArg (Option.any fun f => f.1.isYoung) (hs.face x)
  rw [Option.any_map, Option.any_map] at hf
  exact hf

theorem needsBarrier (hs : SameObjects h h') (x : Ref) : h'.needsBarrier x = h.needsBarrier x := by
  have hf := congrArg (Option.any fun f => f.1 == Generation.old) (hs.face x)
  rw [Option.any_map, Option.any_map] at hf
  exact hf

theorem children [Traced α] (hs : SameObjects h h') (x : Ref) : h'.children x = h.children x := by
  rw [Heap.children, Heap.children, hs.get? x]

theorem vacant (hs : SameObjects h h') {i : Nat} (hv : h.Vacant i) : h'.Vacant i := by
  obtain ⟨u, hu, hnone⟩ := hv
  refine ⟨u, (hs.serial i).trans hu, ?_⟩
  have hf := hs.face ⟨i, u⟩
  rw [hnone] at hf
  simpa using hf

end SameObjects

/-- A change of a header that leaves the generation alone. -/
theorem sameObjects_modifyHeader (h : Heap α) (r : Ref) {f : Header → Header}
    (hf : ∀ k, (f k).generation = k.generation) : SameObjects h (h.modifyHeader r f) := by
  refine ⟨rfl, rfl, serial?_modifyEntry h r _, fun x => ?_⟩
  rw [resolve?_modifyHeader]
  split
  · next hx =>
    subst hx
    cases h.resolve? x with
    | none => rfl
    | some e => simp [Entry.face, hf]
  · rfl

end Managed.Heap
