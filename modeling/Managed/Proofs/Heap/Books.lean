import Managed.Proofs.Heap.Orderly

/-!
# The books of a heap

After every run of a heap, whatever handles and values it uses and whether or not its stores go
through the barrier, the parts of the heap agree with each other and with what has happened
(`structure_of_run`). One lemma says what an action enters in the books (`booked_onHeap`); `Kept` is
what every action keeps.
-/

namespace Managed

namespace Heap

variable {α : Type}

/-! ## Actions -/

section

variable [Traced α]

theorem tenure_eq_ok {h h' : Heap α} {r : Ref} (ht : h.tenure r = .ok h') :
    h' = h ∨ h.isYoung r = true ∧ h' = (h.tenured r).rememberHolder r := by
  unfold tenure at ht
  split at ht
  · cases ht
  · next e he =>
    split at ht
    · exact Or.inl (Except.ok.inj ht).symm
    · next hg =>
      refine Or.inr ⟨isYoung_iff.mpr ⟨e, he, ?_⟩, (Except.ok.inj ht).symm⟩
      cases hgen : e.header.generation with
      | old => exact absurd hgen hg
      | nursery => rfl
      | survivor => rfl

theorem orderly_onHeap {h : Heap α} (ho : h.Orderly) (roots : RootSet) (a : Action α) :
    (a.onHeap h roots).Orderly := by
  cases a with
  | alloc v =>
    simp only [Action.onHeap]
    split
    · next r h' ha => exact orderly_alloc ho ha
    · exact ho
  | store owner v stored =>
    simp only [Action.onHeap]
    split
    · next h' hset =>
      obtain ⟨_, rfl⟩ := set_eq_ok hset
      exact orderly_writeBarriers (orderly_setValue ho owner v) owner stored
    · exact ho
  | barrier owner v => exact orderly_writeBarrier ho owner v
  | tenure r =>
    simp only [Action.onHeap]
    split
    · next h' hten =>
      rcases tenure_eq_ok hten with rfl | ⟨_, rfl⟩
      · exact ho
      · exact orderly_rememberHolder (orderly_tenured ho r) r
    · exact ho
  | collect kind => exact orderly_collect ho kind roots
  | pushStack _ => exact ho
  | clearStack => exact ho
  | addGlobal _ => exact ho
  | removeGlobal _ => exact ho

theorem length_promotions_tenured {h : Heap α} {r : Ref} (hy : h.isYoung r = true) :
    (h.promotions ((h.tenured r).rememberHolder r)).length = 1 := by
  refine length_promotions (List.nodup_singleton r) fun x => ?_
  rw [List.mem_singleton, (sameObjects_rememberHolder _ r).needsBarrier]
  constructor
  · rintro rfl
    obtain ⟨e, he, _⟩ := isYoung_iff.mp hy
    refine ⟨hy, ?_⟩
    rw [needsBarrier, resolve?_tenured, if_pos rfl, he]
    rfl
  · rintro ⟨hx, hold⟩
    by_contra hne
    rw [needsBarrier_tenured hne, needsBarrier_of_isYoung hx] at hold
    cases hold

/-- An action that gives out the handles `given` is entered in the books: an object more for each of
them, live or freed, and a promotion more for each object that has become old. -/
structure Booked (h : Heap α) (given : List Ref) (h' : Heap α) : Prop where
  limits : h'.limits = h.limits
  balance : h'.live + h'.tally.freed = h.live + h.tally.freed + given.length
  promoted : h'.tally.promoted = h.tally.promoted + (h.promotions h').length

omit [Traced α] in
theorem SameBooks.booked {h h' : Heap α} (hb : SameBooks h h')
    (hold : ∀ r, h'.needsBarrier r = true → h.needsBarrier r = true) : Booked h [] h' where
  limits := hb.limits
  balance := by rw [hb.live, hb.tally, List.length_nil, Nat.add_zero]
  promoted := by rw [hb.tally, length_promotions_eq_zero hold, Nat.add_zero]

theorem booked_collect {h : Heap α} (ho : h.Orderly) (kind : CollectionKind) (roots : RootSet) :
    Booked h [] (h.collect kind roots) := by
  obtain ⟨hlimits, hlive, hfreed, hpromoted⟩ := books_collect kind h roots
  have hlength := length_liveRefs_collect ho.tidy kind roots
  refine ⟨hlimits, ?_, ?_⟩
  · rw [hlive, hfreed, ho.live_eq, List.length_nil]
    omega
  · rw [hpromoted, length_promotions_collect ho.tidy]

theorem booked_onHeap {h : Heap α} (ho : h.Orderly) (roots : RootSet) (a : Action α) :
    Booked h (a.gives h) (a.onHeap h roots) := by
  have hsame : Booked h [] h := (SameBooks.refl h).booked fun _ hr => hr
  cases a with
  | alloc v =>
    simp only [Action.onHeap, Action.gives]
    cases ha : h.alloc v with
    | error e => exact hsame
    | ok p =>
      obtain ⟨_, hlimits, hlive, htally, _⟩ := books_alloc ha
      have hal := alloc_cases ha ho.tidy.free_vacant
      refine ⟨hlimits, ?_, ?_⟩
      · rw [hlive, htally, List.length_singleton]
        omega
      · rw [htally, length_promotions_eq_zero fun _ hx => (hal.needsBarrier hx).2, Nat.add_zero]
  | store owner v stored =>
    simp only [Action.onHeap]
    split
    · next h' hset =>
      obtain ⟨_, rfl⟩ := set_eq_ok hset
      have hb := (sameBooks_modifyEntry h owner fun e => { e with value := v }).trans
        (.foldl (fun h x => sameBooks_writeBarrier h owner x) _ stored)
      have ht : (h.modifyEntry owner fun e => { e with value := v }).Tidy :=
        tidy_modifyEntry ho.tidy owner (fun _ => rfl) fun _ => rfl
      have hs := (foldl_writeBarrier ht.recorded owner stored).1
      refine hb.booked fun x hx => ?_
      rwa [hs.needsBarrier, needsBarrier_setValue] at hx
    · exact hsame
  | barrier owner v =>
    refine (sameBooks_writeBarrier h owner v).booked fun x hx => ?_
    rwa [(sameObjects_writeBarrier h owner v).needsBarrier] at hx
  | tenure r =>
    simp only [Action.onHeap]
    split
    · next h' hten =>
      rcases tenure_eq_ok hten with rfl | ⟨hy, rfl⟩
      · exact hsame
      · have hb := sameBooks_rememberHolder (h.tenured r) r
        refine ⟨hb.limits, ?_, ?_⟩
        · rw [hb.live, hb.tally]
          rfl
        · rw [hb.tally, length_promotions_tenured hy]
          rfl
    · exact hsame
  | collect kind => exact booked_collect ho kind roots
  | pushStack _ => exact hsame
  | clearStack => exact hsame
  | addGlobal _ => exact hsame
  | removeGlobal _ => exact hsame

end

end Heap

/-! ## Runs -/

namespace Session

variable {α : Type}

/-- The handle of the latest object that was placed in slot `i`. -/
def latest? (s : Session α) (i : Nat) : Option Ref :=
  s.issued.reverse.find? (·.index == i)

/-- What holds after every action: the heap is orderly, every object was freed or is live, and a live
object is the latest of its slot. -/
structure Kept (s : Session α) : Prop where
  orderly : s.heap.Orderly
  issued : s.issued.length = s.heap.live + s.heap.tally.freed
  latest : ∀ r, s.heap.contains r = true → s.latest? r.index = some r

variable [Traced α]

theorem kept_start (limits : HeapLimits) : (start limits : Session α).Kept := by
  refine ⟨⟨(sound_start limits).tidy, fun i hv => ?_, rfl, Nat.zero_le _, List.nodup_nil,
    fun r hr => ?_⟩, rfl, fun r hr => ?_⟩
  · obtain ⟨u, hu, _⟩ := hv
    cases hu
  · exact absurd hr (Array.not_mem_empty r)
  · cases hr

variable {s : Session α}

omit [Traced α] in
/-- A live object keeps its slot: a new one is placed elsewhere. -/
theorem latest?_alloc (hk : s.Kept) {v : α} {r new : Ref} {h' : Heap α}
    (ha : Heap.Allocated s.heap v new h') (hr : h'.contains r = true) :
    (s.issued ++ [new]).reverse.find? (·.index == r.index) = some r := by
  rw [List.reverse_append, List.reverse_singleton, List.singleton_append, List.find?_cons]
  rw [ha.contains, Bool.or_eq_true, beq_iff_eq] at hr
  rcases hr with rfl | hr
  · rw [beq_self_eq_true]
  · have hne : (new.index == r.index) = false := by
      rw [beq_eq_false_iff_ne]
      intro heq
      obtain ⟨e, he⟩ := Heap.contains_iff.mp hr
      rcases ha.slot with ⟨hfree, _⟩ | ⟨_, _, hnone, _⟩
      · have hv := hk.orderly.tidy.free_vacant new.index (by rw [hfree]; exact List.mem_cons_self)
        rw [heq] at hv
        rw [Heap.resolve?_of_vacant hv] at he
        cases he
      · rw [heq, Heap.serial?_of_resolve? he] at hnone
        cases hnone
    rw [hne]
    exact hk.latest r hr

theorem latest?_act (hk : s.Kept) (a : Action α) {r : Ref}
    (hr : (s.act a).heap.contains r = true) : (s.act a).latest? r.index = some r := by
  have ht := hk.orderly.tidy
  by_cases halloc : ∃ v, a = .alloc v
  · obtain ⟨v, rfl⟩ := halloc
    rcases act_alloc_cases ht v with heq | ⟨new, h', hal, heq⟩
    · rw [heq] at hr ⊢
      exact hk.latest r hr
    · rw [heq] at hr ⊢
      exact latest?_alloc hk hal hr
  have halloc' : ∀ v, a ≠ .alloc v := fun v h => halloc ⟨v, h⟩
  rw [latest?, issued_of_not_alloc s halloc']
  by_cases hcollect : ∃ kind, a = .collect kind
  · obtain ⟨kind, rfl⟩ := hcollect
    change (s.heap.collect kind s.roots).contains r = true at hr
    rw [Heap.contains_collect ht, Bool.and_eq_true] at hr
    exact hk.latest r hr.1
  · have hs := Heap.samePlaces_onHeap s.heap s.roots ht halloc' fun kind h => hcollect ⟨kind, h⟩
    exact hk.latest r ((hs.contains r).symm.trans hr)

theorem kept_act (hk : s.Kept) (a : Action α) : (s.act a).Kept where
  orderly := Heap.orderly_onHeap hk.orderly s.roots a
  issued := by
    have hbalance := (Heap.booked_onHeap hk.orderly s.roots a).balance
    change (s.issued ++ a.gives s.heap).length = _
    rw [List.length_append, hk.issued]
    exact hbalance.symm
  latest _ hr := latest?_act hk a hr

theorem kept_run (hk : s.Kept) (actions : List (Action α)) : (s.run actions).Kept := by
  induction actions generalizing s with
  | nil => exact hk
  | cons a rest ih => exact ih (kept_act hk a)

theorem limits_run (hk : s.Kept) (actions : List (Action α)) :
    (s.run actions).heap.limits = s.heap.limits := by
  induction actions generalizing s with
  | nil => rfl
  | cons a rest ih =>
    exact (ih (kept_act hk a)).trans (Heap.booked_onHeap hk.orderly s.roots a).limits

/-- How often an object becomes old in a run. -/
def promotions (s : Session α) : List (Action α) → Nat
  | [] => 0
  | a :: rest => (s.heap.promotions (s.act a).heap).length + (s.act a).promotions rest

theorem promoted_run (hk : s.Kept) (actions : List (Action α)) :
    (s.run actions).heap.tally.promoted = s.heap.tally.promoted + s.promotions actions := by
  induction actions generalizing s with
  | nil => rfl
  | cons a rest ih =>
    have hone : (s.act a).heap.tally.promoted = _ :=
      (Heap.booked_onHeap hk.orderly s.roots a).promoted
    change ((s.act a).run rest).heap.tally.promoted = _
    rw [ih (kept_act hk a), hone, promotions, Nat.add_assoc]
    rfl

/-- The parts of a heap agree after every run, whatever handles and values it uses, whether or not its
stores go through the barrier and whatever roots its collections start from. The free stack lists the
empty slots, each once. The object in a slot was given out under the serial that the slot has now. The
number of objects is that of occupied slots, and neither it nor the table gets beyond the limit. No
object is left with a mark. The remembered set lists, each once, the objects whose headers say so, all
of which are old. Every object given out is live or counted as freed, and every time an object became
old is counted. -/
theorem structure_of_run (limits : HeapLimits) (actions : List (Action α)) :
    let s := (Session.start limits).run actions
    let h := s.heap
    (h.free.Nodup ∧ ∀ i, i ∈ h.free ↔ ∃ slot, h.slots[i]? = some slot ∧ slot.entry = none) ∧
    (∀ i slot e, h.slots[i]? = some slot → slot.entry = some e →
      s.latest? i = some ⟨i, slot.serial⟩) ∧
    (h.live = h.slots.countP (·.entry.isSome) ∧ h.live ≤ limits.maxObjects ∧
      h.slots.size ≤ limits.maxObjects) ∧
    (∀ slot ∈ h.slots, ∀ e, slot.entry = some e → e.header.marked = false) ∧
    (h.remembered.refs.toList.Nodup ∧
      ∀ r, r ∈ h.remembered.refs ↔ ∃ e, h.resolve? r = some e ∧ e.header.remembered = true) ∧
    (∀ r ∈ h.remembered.refs, h.generation r = .ok .old) ∧
    s.issued.length = h.live + h.tally.freed ∧
    h.tally.promoted = (Session.start limits).promotions actions := by
  intro s h
  have hk : s.Kept := kept_run (kept_start limits) actions
  have ho : h.Orderly := hk.orderly
  have hlimits : h.limits = limits := limits_run (kept_start limits) actions
  have hfound : ∀ {i slot}, h.slots[i]? = some slot → h.resolve? ⟨i, slot.serial⟩ = slot.entry := by
    intro i slot hs
    simp [Heap.resolve?, hs, Slot.entryFor?_eq]
  have hvacant : ∀ i, h.Vacant i ↔ ∃ slot, h.slots[i]? = some slot ∧ slot.entry = none := by
    intro i
    constructor
    · rintro ⟨u, hu, hnone⟩
      obtain ⟨slot, hs, rfl⟩ := Option.map_eq_some_iff.mp hu
      exact ⟨slot, hs, (hfound hs).symm.trans hnone⟩
    · rintro ⟨slot, hs, hnone⟩
      exact ⟨slot.serial, by simp [Heap.serial?, hs], (hfound hs).trans hnone⟩
  refine ⟨⟨ho.tidy.free_nodup, fun i => ?_⟩, fun i slot e hs he => ?_, ⟨?_, ?_, ?_⟩,
    fun slot hs e he => ?_, ⟨ho.remembered_nodup, fun r => ?_⟩, fun r hr => ?_, hk.issued, ?_⟩
  · rw [← hvacant]
    exact ⟨ho.tidy.free_vacant i, ho.free_of_vacant i⟩
  · exact hk.latest ⟨i, slot.serial⟩ (Heap.contains_iff.mpr ⟨e, (hfound hs).trans he⟩)
  · rw [ho.live_eq, Heap.length_liveRefs]
  · rw [ho.live_eq, ← hlimits]
    exact Nat.le_trans h.length_liveRefs_le ho.size_le
  · rw [← hlimits]
    exact ho.size_le
  · obtain ⟨i, hi⟩ := Array.mem_iff_getElem?.mp hs
    have hm := ho.tidy.unmarked ⟨i, slot.serial⟩
    rwa [Heap.hasMark, hfound hi, he, Option.any_some] at hm
  · rw [← ho.tidy.recorded r, Heap.remembers, Option.any_eq_true]
  · exact Heap.generation_eq_old.mpr (ho.remembered_old r hr)
  · have hpromoted := promoted_run (kept_start limits) actions
    rwa [show (start limits : Session α).heap.tally.promoted = 0 from rfl, Nat.zero_add] at hpromoted

end Session

end Managed
