import Managed.Proofs.Space.Effect

/-!
# Arrays of a space

The parts of every array agree, in every space that a program can get to. It gets there by the
operations of a space and by putting objects of its own in the place of others (`Reachable`). Arrays
of its own come from the operations on arrays, so their parts agree as well.

So an array that is sorted has its items in the first slots and nothing behind them. A sort changes
their order and nothing else in the space (`sort_changes_order_alone`).
-/

namespace Managed

namespace SlotArray

variable {ε σ α : Type}

/-- `b` is `a` with its items, which fill the first slots, in another order. -/
structure Reordered (a b : SlotArray α) : Prop where
  size : b.size = a.size
  capacity : b.capacity = a.capacity
  shape : b.shape = a.shape
  items : b.items = a.items
  last : b.last = a.last
  perm : (b.storage.toList.take a.items).Perm (a.storage.toList.take a.items)
  holes : ∀ i, a.items ≤ i → b.slotAt i = none

theorem Counted.items_le {a : SlotArray α} (ha : a.Counted) : a.items ≤ a.storage.size := by
  rw [ha.items_eq]
  exact Array.countP_le_size

/-- Only as many slots as there are items are looked at. -/
theorem densePrefix_cases {a : SlotArray α} (hc : a.Counted) :
    a.densePrefix = .ok a.items ∧ (∀ i < a.items, (a.slotAt i).isSome = true) ∨
      ∃ hole < a.items, a.densePrefix = .error (.sparse (hole + 1)) ∧ a.slotAt hole = none ∧
        ∀ i < hole, (a.slotAt i).isSome = true := by
  have hle := hc.items_le
  have hsize : (a.storage.extract 0 a.items).size = a.items := by
    rw [Array.size_extract]
    omega
  have hslot : ∀ i (h : i < (a.storage.extract 0 a.items).size),
      (a.storage.extract 0 a.items)[i] = a.slotAt i := by
    intro i h
    have hcell := cell_extract a.storage 0 a.items i
    rw [cell, Array.getElem?_eq_getElem h, Nat.zero_add, if_pos (by omega)] at hcell
    exact hcell
  unfold densePrefix
  cases hfind : (a.storage.extract 0 a.items).findIdx? Option.isNone with
  | none =>
    refine Or.inl ⟨rfl, fun i hi => ?_⟩
    have hsome := Array.findIdx?_eq_none_iff.mp hfind _ (Array.getElem_mem (by omega : i < _))
    rw [hslot] at hsome
    exact Option.isNone_eq_false_iff.mp hsome
  | some hole =>
    obtain ⟨hlt, hnone, hbefore⟩ := Array.findIdx?_eq_some_iff_getElem.mp hfind
    rw [hslot] at hnone
    refine Or.inr ⟨hole, by omega, rfl, Option.isNone_iff_eq_none.mp hnone, fun i hi => ?_⟩
    have hsome := hbefore i hi
    rw [hslot] at hsome
    exact Option.isNone_eq_false_iff.mp (Bool.not_eq_true _ ▸ hsome)

theorem detach_eq (a : SlotArray α) :
    a.detach = (fun _ => ({ storage := a.storage, size := a.size, items := a.items, last := a.last },
      { shape := a.shape })) <$> a.densePrefix := by
  unfold detach
  cases a.densePrefix <;> rfl

/-- An array is sorted only if its items fill the first slots. -/
theorem detach_cases {a : SlotArray α} (ha : a.Counted) :
    (∃ i < a.items, a.slotAt i = none) ∧ (∃ e, a.detach = .error e) ∨
      (∀ i < a.items, (a.slotAt i).isSome = true) ∧
        a.detach = .ok ({ storage := a.storage, size := a.size, items := a.items, last := a.last },
          { shape := a.shape }) := by
  rw [detach_eq]
  rcases densePrefix_cases ha with ⟨hok, hfront⟩ | ⟨hole, hlt, herr, hnone, _⟩
  · rw [hok]
    exact Or.inr ⟨hfront, rfl⟩
  · rw [herr]
    exact Or.inl ⟨⟨hole, hlt, hnone⟩, _, rfl⟩

/-- Items that are counted right and fill the first slots leave none for the other slots. -/
theorem hole_of_dense {a : SlotArray α} (ha : a.Counted)
    (hdense : ∀ i < a.items, (a.slotAt i).isSome = true) {i : Nat} (hi : a.items ≤ i) :
    a.slotAt i = none := by
  have hle := ha.items_le
  have hfront : (a.storage.toList.take a.items).countP Option.isSome = a.items := by
    have hall : ∀ slot ∈ a.storage.toList.take a.items, slot.isSome = true := by
      intro slot hslot
      obtain ⟨j, hj, rfl⟩ := List.mem_take_iff_getElem.mp hslot
      have hsome := hdense j (by omega)
      rwa [slotAt, cell_toList, List.getElem?_eq_getElem (by omega)] at hsome
    rw [List.countP_eq_length.mpr hall, List.length_take, Array.length_toList]
    omega
  have hcount : a.storage.toList.countP Option.isSome = a.items := by
    rw [Array.countP_toList]
    exact ha.items_eq.symm
  rw [← List.take_append_drop a.items a.storage.toList, List.countP_append, hfront] at hcount
  have hrest := List.countP_eq_zero.mp (by omega :
    (a.storage.toList.drop a.items).countP Option.isSome = 0)
  rw [slotAt, cell_toList]
  cases hget : a.storage.toList[i]? with
  | none => rfl
  | some slot =>
    have hmem : slot ∈ a.storage.toList.drop a.items := by
      refine List.mem_iff_getElem?.mpr ⟨i - a.items, ?_⟩
      rw [List.getElem?_drop, Nat.add_sub_cancel' hi, hget]
    simpa using hrest slot hmem

theorem detach_of_dense {a : SlotArray α} (ha : a.Counted)
    (hdense : ∀ i < a.items, (a.slotAt i).isSome = true) :
    a.detach = .ok ({ storage := a.storage, size := a.size, items := a.items, last := a.last },
      { shape := a.shape }) := by
  rcases detach_cases ha with ⟨⟨i, hi, hnone⟩, _⟩ | ⟨_, hd⟩
  · have hsome := hdense i hi
    rw [hnone] at hsome
    cases hsome
  · exact hd

theorem reordered_sorted {a : SlotArray α} (ha : a.Counted)
    (hdense : ∀ i < a.items, (a.slotAt i).isSome = true) (stable : Bool)
    (compare : Sorting.Comparator ε σ α) (s : σ) : a.Reordered (a.sorted stable compare s) := by
  obtain ⟨storage, front, heq, hperm, hlist⟩ := Detached.settled_sort stable compare
    { storage := a.storage, size := a.size, items := a.items, last := a.last } s
  have hmin : min a.items a.storage.size = a.items := Nat.min_eq_left ha.items_le
  dsimp only at hperm hlist
  rw [hmin] at hperm hlist
  have hfront : front.length = a.items := by
    rw [hperm.length_eq, List.length_take, Array.length_toList, hmin]
  have hsorted : a.sorted stable compare s = { a with storage } := by
    rw [sorted, detach_of_dense ha hdense]
    dsimp only
    rw [heq]
    rfl
  rw [hsorted]
  refine ⟨rfl, ?_, rfl, rfl, rfl, ?_, fun i hi => ?_⟩
  · have hlen := congrArg List.length hlist
    rw [List.length_append, hfront, List.length_drop, Array.length_toList,
      Array.length_toList] at hlen
    have hle := ha.items_le
    simp only [capacity]
    omega
  · rw [hlist, ← hfront, List.take_left, hfront]
    exact hperm
  · change cell storage i = none
    rw [cell_toList, hlist, List.getElem?_append_right (by omega), hfront, List.getElem?_drop,
      Nat.add_sub_cancel' hi, ← cell_toList]
    exact hole_of_dense ha hdense hi

end SlotArray

namespace Space

/-- The parts of all arrays agree. -/
def Coherent (s : Space) : Prop :=
  ∀ r a, s.array r = .ok a → a.Coherent

/-- No array takes up all words. -/
def Roomy (s : Space) : Prop :=
  ∀ r a, s.array r = .ok a → a.capacity < Word.max

/-- The spaces that a program can get to. Whatever an operation does, there is no array of more slots
than can be counted. -/
inductive Reachable : Space → Prop where
  | start (limits : SpaceLimits) : Reachable (.ofLimits limits)
  | run {s : Space} (op : Operation) :
    Reachable s → (∀ a, op = .alloc (.array a) → a.Coherent) → (left (op.run s)).Roomy →
    Reachable (left (op.run s))
  | replace {s : Space} (r : Ref) (o : Object) :
    Reachable s → (∀ a, o = .array a → a.Coherent) → Reachable (s.setObject r o)

section

variable {s t : Space} {op : Operation} {ended : Bool}

/-- A space in which one array is different, or new. -/
theorem Coherent.of_get? (hs : s.Coherent) {r : Ref} {o : Object}
    (hget : ∀ x, t.heap.get? x = if x = r then some o else s.heap.get? x)
    (ho : ∀ a, o = .array a → a.Coherent) : t.Coherent := by
  intro x a ha
  rw [array_eq_ok, hget] at ha
  split at ha
  · exact ho a (Option.some.inj ha)
  · exact hs x a (array_eq_ok.mpr ha)

theorem coherent_makes (h : Makes s t) (ht : s.heap.Tidy) (hs : s.Coherent) : t.Coherent := by
  induction h with
  | refl => exact hs
  | alloc ho ha _ ih =>
    have halloc := Heap.alloc_cases ha ht.free_vacant
    refine ih (halloc.tidy ht) (hs.of_get? halloc.get? ?_)
    rintro a rfl
    cases ho with
    | array ha => exact ha
    | copy ha => exact hs _ a ha

theorem coherent_effect (h : Effect s op ended t) (ht : s.heap.Tidy) (hs : s.Coherent)
    (hop : ∀ a, op = .alloc (.array a) → a.Coherent) (hroom : t.Roomy) : t.Coherent := by
  cases h with
  | made hm => exact coherent_makes hm ht hs
  | given hgiven ha =>
    refine hs.of_get? (Heap.alloc_cases ha ht.free_vacant).get? ?_
    rintro a rfl
    exact hop a hgiven
  | @altered _ r old new handles hr halters =>
    have hget := get?_stored ht hr new handles
    refine hs.of_get? hget ?_
    rintro c rfl
    cases halters with
    | array hc _ =>
      refine hc (hs r _ (array_eq_ok.mpr hr)) (hroom r c (array_eq_ok.mpr ?_))
      rw [hget, if_pos rfl]
  | tenured hten =>
    intro x a ha
    refine hs x a (array_eq_ok.mpr ?_)
    rw [array_eq_ok] at ha
    rcases Heap.tenure_cases hten with rfl | rfl
    · exact ha
    · rwa [(Heap.sameObjects_rememberHolder _ _).get?, Heap.get?_tenured] at ha
  | rooted _ => exact hs
  | collected _ =>
    intro x a ha
    refine hs x a (array_eq_ok.mpr ?_)
    rw [array_eq_ok, Heap.get?_collect ht] at ha
    split at ha
    · exact ha
    · cases ha

end

theorem coherent_setObject {s : Space} (hs : s.Coherent) (r : Ref) {o : Object}
    (ho : ∀ a, o = .array a → a.Coherent) : (s.setObject r o).Coherent := by
  cases hr : s.heap.get? r with
  | some old => exact hs.of_get? (get?_setObject hr o) ho
  | none =>
    rwa [setObject_of_stale hr]

theorem coherent_of_reachable {s : Space} (hs : s.Reachable) : s.heap.Tidy ∧ s.Coherent := by
  induction hs with
  | start limits =>
    refine ⟨(Session.sound_start limits.heap).tidy, fun r a ha => ?_⟩
    rw [array_eq_ok] at ha
    simp [ofLimits, Heap.get?, Heap.resolve?] at ha
  | @run s op _ hop hroom ih =>
    have heffect := effect_run op s
    exact ⟨tidy_effect heffect ih.1, coherent_effect heffect ih.1 ih.2 hop hroom⟩
  | @replace s r o _ ho ih =>
    have htidy := tidy_stored ih.1 r o []
    rw [stored_nil] at htidy
    exact ⟨htidy, coherent_setObject ih.2 r ho⟩

/-- A sort of an array whose items do not fill the first slots is refused. Any other sort changes the
order of the items and nothing else, whatever the comparator says and wherever it fails: neither the
rest of the array nor other objects, the roots or the remembered set. All that the comparator gets to
see is a space with an empty array and all other objects as before. -/
theorem sort_changes_order_alone {σ : Type} {s : Space} (hs : s.Reachable) {r : Ref}
    {a : SlotArray Ref} (ha : s.array r = .ok a) (stable : Bool)
    (compare : Space → Sorting.Comparator Fault σ Ref) (memory : σ) :
    ((∃ i < a.items, a.slotAt i = none) →
      ∃ e, sortBy r stable compare (s, memory) = .error e (s, memory)) ∧
    ((∀ i < a.items, (a.slotAt i).isSome = true) →
      (∃ t memory',
        (sortBy r stable compare (s, memory) = .ok () (t, memory') ∨
          ∃ e, sortBy r stable compare (s, memory) = .error e (t, memory')) ∧
        (∃ b, t.array r = .ok b ∧ a.Reordered b) ∧ SameBut r s t ∧
        t.heap.remembered = s.heap.remembered) ∧
      ∃ calls, sortBy r stable (recording compare) (s, memory, []) =
          recorded calls (sortBy r stable compare (s, memory)) ∧
        ∀ u ∈ calls, (∃ b, u.array r = .ok b ∧ b.size = 0 ∧ b.items = 0) ∧ SameBut r s u ∧
          u.heap.remembered = s.heap.remembered) := by
  have hcount := ((coherent_of_reachable hs).2 r a ha).counted
  have hobj := array_eq_ok.mp ha
  have hrem : ∀ o, (s.setObject r o).heap.remembered = s.heap.remembered := by
    intro o
    rw [setObject_of_live hobj]
    exact Heap.remembered_modifyEntry _ _ _
  refine ⟨fun ⟨i, hi, hnone⟩ => ?_, fun hdense => ?_⟩
  · rcases SlotArray.detach_cases hcount with ⟨_, e, he⟩ | ⟨hall, _⟩
    · exact ⟨e, sortBy_of_error (by rw [ha]; exact he) stable compare memory⟩
    · have hsome := hall i hi
      rw [hnone] at hsome
      cases hsome
  · have hd := SlotArray.detach_of_dense hcount hdense
    have hd' : s.array r >>= SlotArray.detach = a.detach := by
      rw [ha]
      rfl
    rw [hd] at hd'
    obtain ⟨memory', hrun⟩ := sortBy_sorted ha hd stable compare memory
    obtain ⟨calls, hrecord, hcalls⟩ := sortBy_recording hd' stable compare memory
    refine ⟨⟨_, memory', hrun, ⟨_, array_setObject hobj _, ?_⟩, sameBut_setObject hobj _, hrem _⟩,
      calls, hrecord, fun u hu => ?_⟩
    · exact SlotArray.reordered_sorted hcount hdense stable _ memory
    · rw [hcalls u hu]
      exact ⟨⟨_, array_setObject hobj _, rfl, rfl⟩, sameBut_setObject hobj _, hrem _⟩

/-- A comparator calls the first pair descending and then fails. -/
theorem sort_changes_order_alone_failing :
    let s := left ((Operation.arrayOfStrings ["c", "b", "a"]).run (.ofLimits {}))
    let r : Ref := ⟨3, 0⟩
    let moody : Space → Sorting.Comparator Fault Nat Ref := fun _ _ _ calls =>
      if calls = 0 then .ok .gt 1 else .error .comparatorSilent calls
    s.Reachable ∧ ∃ a, s.array r = .ok a ∧ (∀ i < a.items, (a.slotAt i).isSome = true) ∧
      ∃ t memory', (sortBy r true moody (s, 0) = .ok () (t, memory') ∨
          ∃ e, sortBy r true moody (s, 0) = .error e (t, memory')) ∧
        (∃ b, t.array r = .ok b ∧ a.Reordered b) ∧ SameBut r s t := by
  intro s r moody
  have hs : s.Reachable := by
    refine .run _ (.start {}) nofun fun x b hb => ?_
    exact Track.capacity_of_roomy (s := s) (by decide +kernel) hb
  have hcheck : (s.array r).toOption.any
      (fun a => decide (∀ i < a.items, (a.slotAt i).isSome = true)) = true := by decide +kernel
  cases ha : s.array r with
  | error e =>
    rw [ha] at hcheck
    cases hcheck
  | ok a =>
    rw [ha] at hcheck
    have hdense := of_decide_eq_true hcheck
    obtain ⟨t, memory', hrun, hb, hsame, _⟩ :=
      ((sort_changes_order_alone hs ha true moody 0).2 hdense).1
    exact ⟨hs, a, rfl, hdense, t, memory', hrun, hb, hsame⟩

end Space

end Managed
