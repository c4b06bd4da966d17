import Managed.Proofs.Heap.Census
import Managed.Proofs.Heap.Generations

/-!
# Orderly heaps

Free stack, marks, remembered set and counters of a heap are kept by different parts of the operations.
`Orderly` says that they agree. Marks, free slots and the remembered bits are treated in `Tidy` already.
What remains are the counters (`SameBooks` says which steps leave them alone), that nothing is missing
from the free stack, and that the remembered set lists old objects only, each once. Allocations, stores
with or without barriers, tenuring and collections all keep a heap orderly.
-/

namespace Managed

namespace Heap

variable {α : Type}

/-! ## Counters -/

/-- Two heaps with the same limits and counters. -/
structure SameBooks (h h' : Heap α) : Prop where
  limits : h'.limits = h.limits
  live : h'.live = h.live
  tally : h'.tally = h.tally

namespace SameBooks

theorem refl (h : Heap α) : SameBooks h h :=
  ⟨rfl, rfl, rfl⟩

theorem trans {h₁ h₂ h₃ : Heap α} (h : SameBooks h₁ h₂) (h' : SameBooks h₂ h₃) :
    SameBooks h₁ h₃ :=
  ⟨h'.limits.trans h.limits, h'.live.trans h.live, h'.tally.trans h.tally⟩

theorem foldl {β : Type} {f : Heap α → β → Heap α} (hf : ∀ h b, SameBooks h (f h b)) (h : Heap α)
    (bs : List β) : SameBooks h (bs.foldl f h) := by
  induction bs generalizing h with
  | nil => exact refl h
  | cons b rest ih => exact (hf h b).trans (ih (f h b))

end SameBooks

theorem sameBooks_modifyEntry (h : Heap α) (r : Ref) (f : Entry α → Entry α) :
    SameBooks h (h.modifyEntry r f) :=
  ⟨rfl, rfl, rfl⟩

theorem sameBooks_remember (h : Heap α) (owner : Ref) : SameBooks h (h.remember owner) := by
  unfold remember
  split
  · exact ⟨rfl, rfl, rfl⟩
  · exact .refl h

theorem sameBooks_writeBarrier (h : Heap α) (owner value : Ref) :
    SameBooks h (h.writeBarrier owner value) := by
  unfold writeBarrier
  split
  · exact sameBooks_remember h owner
  · exact .refl h

theorem sameBooks_forgetAll (h : Heap α) : SameBooks h h.forgetAll := by
  unfold forgetAll
  rw [← Array.foldl_toList]
  have htaken : SameBooks h { h with remembered := h.remembered.taken } := ⟨rfl, rfl, rfl⟩
  exact htaken.trans (.foldl (fun h owner => sameBooks_modifyEntry h owner _) _ _)

section

variable [Traced α]

theorem sameBooks_markFrom (kind : CollectionKind) (h : Heap α) (work : List Ref) :
    SameBooks h (h.markFrom kind work) := by
  fun_induction markFrom kind h work with
  | case1 h => exact .refl h
  | case2 h r rest hn ih => exact ih
  | case3 h r rest e he ih => exact (sameBooks_modifyEntry h r _).trans ih

theorem sameBooks_walked (kind : CollectionKind) (h : Heap α) (roots : RootSet) :
    SameBooks h (h.walked kind roots) :=
  (sameBooks_forgetAll h).trans (sameBooks_markFrom kind _ _)

theorem sameBooks_rememberHolder (h : Heap α) (owner : Ref) :
    SameBooks h (h.rememberHolder owner) := by
  rw [rememberHolder_eq]
  split
  · exact sameBooks_remember h owner
  · exact .refl h

/-- The counters after a collection. -/
theorem books_collect (kind : CollectionKind) (h : Heap α) (roots : RootSet) :
    (h.collect kind roots).limits = h.limits ∧
      (h.collect kind roots).live = h.live - ((h.walked kind roots).dying kind).length ∧
      (h.collect kind roots).tally.freed =
        h.tally.freed + ((h.walked kind roots).dying kind).length ∧
      (h.collect kind roots).tally.promoted =
        h.tally.promoted + (h.walked kind roots).maturing.length := by
  have hw := sameBooks_walked kind h roots
  have hr : SameBooks ((h.walked kind roots).sweep kind)
      (((h.walked kind roots).sweep kind).rememberHolders (h.holdersOf kind roots)) :=
    .foldl sameBooks_rememberHolder _ _
  have hlimits := hr.limits.trans hw.limits
  have hlive : _ = h.live - _ := hr.live.trans (congrArg (· - _) hw.live)
  have htally := hr.tally.trans hw.tally
  cases kind <;>
    exact ⟨hlimits, hlive, congrArg (Tally.freed · + _) htally,
      congrArg (Tally.promoted · + _) htally⟩

end

/-! ## The remembered set -/

theorem not_mem_refs_of_remember {h : Heap α} (hr : h.Recorded) {owner : Ref}
    (hnot : (h.resolve? owner).any (!·.header.remembered) = true) :
    owner ∉ h.remembered.refs := by
  rw [← hr owner, remembers]
  cases he : h.resolve? owner with
  | none => simp [he] at hnot
  | some e =>
    rw [he, Option.any_some, Bool.not_eq_true'] at hnot
    simp [hnot]

theorem nodup_remember {h : Heap α} (hr : h.Recorded) (hn : h.remembered.refs.toList.Nodup)
    (owner : Ref) : (h.remember owner).remembered.refs.toList.Nodup := by
  unfold remember
  split
  · next hnot =>
    have hnew := not_mem_refs_of_remember hr hnot
    change (h.remembered.refs.push owner).toList.Nodup
    rw [Array.toList_push, List.nodup_append]
    refine ⟨hn, List.nodup_singleton owner, ?_⟩
    rintro x hx _ hy rfl
    cases List.mem_singleton.mp hy
    exact hnew (Array.mem_toList_iff.mp hx)
  · exact hn

theorem nodup_writeBarrier {h : Heap α} (hr : h.Recorded) (hn : h.remembered.refs.toList.Nodup)
    (owner value : Ref) : (h.writeBarrier owner value).remembered.refs.toList.Nodup := by
  unfold writeBarrier
  split
  · exact nodup_remember hr hn owner
  · exact hn

theorem needsBarrier_of_mem_writeBarrier {h : Heap α} (hr : h.Recorded)
    (hold : ∀ x ∈ h.remembered.refs, h.needsBarrier x = true) {owner value x : Ref}
    (hx : x ∈ (h.writeBarrier owner value).remembered.refs) :
    (h.writeBarrier owner value).needsBarrier x = true := by
  rw [(sameObjects_writeBarrier h owner value).needsBarrier]
  unfold writeBarrier at hx
  split at hx
  · next hb =>
    rw [Bool.and_eq_true] at hb
    rcases (mem_remember_refs hr owner x).mp hx with hx | ⟨rfl, _⟩
    · exact hold x hx
    · exact hb.1
  · exact hold x hx

theorem nodup_rememberHolders [Traced α] {h : Heap α} (hr : h.Recorded)
    (hn : h.remembered.refs.toList.Nodup) (owners : List Ref) :
    (h.rememberHolders owners).remembered.refs.toList.Nodup := by
  unfold rememberHolders
  induction owners generalizing h with
  | nil => exact hn
  | cons o rest ih =>
    rw [List.foldl_cons]
    refine ih (rememberHolders_spec hr [o]).2.1 ?_
    rw [rememberHolder_eq]
    split
    · exact nodup_remember hr hn o
    · exact hn

/-! ## Orderly heaps -/

/-- A heap whose parts agree with each other. -/
structure Orderly (h : Heap α) : Prop where
  tidy : h.Tidy
  free_of_vacant : ∀ i, h.Vacant i → i ∈ h.free
  live_eq : h.live = h.liveRefs.length
  size_le : h.slots.size ≤ h.limits.maxObjects
  remembered_nodup : h.remembered.refs.toList.Nodup
  remembered_old : ∀ r ∈ h.remembered.refs, h.needsBarrier r = true

theorem size_eq_of_serial? {h h' : Heap α} (hser : ∀ i, h'.serial? i = h.serial? i) :
    h'.slots.size = h.slots.size := by
  have hle : ∀ i, h'.slots.size ≤ i ↔ h.slots.size ≤ i := fun i => by
    rw [← serial?_eq_none, ← serial?_eq_none, hser]
  exact Nat.le_antisymm ((hle _).mpr (Nat.le_refl _)) ((hle _).mp (Nat.le_refl _))

theorem SamePlaces.symm {h h' : Heap α} (hs : SamePlaces h h') : SamePlaces h' h :=
  ⟨hs.free.symm, fun i => (hs.serial i).symm, fun x => (hs.contains x).symm⟩

/-- A change that leaves all objects in place and nothing to count. -/
theorem Orderly.of_samePlaces {h h' : Heap α} (ho : h.Orderly) (hs : SamePlaces h h')
    (hlimits : h'.limits = h.limits) (hlive : h'.live = h.live) (ht : h'.Tidy)
    (hnodup : h'.remembered.refs.toList.Nodup)
    (hold : ∀ r ∈ h'.remembered.refs, h'.needsBarrier r = true) : h'.Orderly where
  tidy := ht
  free_of_vacant i hv := by
    rw [hs.free]
    exact ho.free_of_vacant i (hs.symm.vacant hv)
  live_eq := by rw [hlive, hs.length_liveRefs, ho.live_eq]
  size_le := by
    rw [size_eq_of_serial? hs.serial, hlimits]
    exact ho.size_le
  remembered_nodup := hnodup
  remembered_old := hold

theorem orderly_setValue {h : Heap α} (ho : h.Orderly) (r : Ref) (v : α) :
    (h.modifyEntry r fun e => { e with value := v }).Orderly :=
  ho.of_samePlaces (samePlaces_modifyEntry h r _) rfl rfl
    (tidy_modifyEntry ho.tidy r (fun _ => rfl) fun _ => rfl) ho.remembered_nodup fun x hx => by
      rw [needsBarrier_setValue]
      exact ho.remembered_old x hx

theorem orderly_writeBarrier {h : Heap α} (ho : h.Orderly) (owner value : Ref) :
    (h.writeBarrier owner value).Orderly := by
  have hs := sameObjects_writeBarrier h owner value
  have hr := ho.tidy.recorded
  exact ho.of_samePlaces hs.samePlaces hs.limits (sameBooks_writeBarrier h owner value).live
    (ho.tidy.of_sameObjects hs (hasMark_writeBarrier h owner value)
      (recorded_writeBarrier hr owner value))
    (nodup_writeBarrier hr ho.remembered_nodup owner value)
    fun _ hx => needsBarrier_of_mem_writeBarrier hr ho.remembered_old hx

theorem orderly_writeBarriers {h : Heap α} (ho : h.Orderly) (owner : Ref) (stored : List Ref) :
    (stored.foldl (fun h x => h.writeBarrier owner x) h).Orderly := by
  induction stored generalizing h with
  | nil => exact ho
  | cons x rest ih => exact ih (orderly_writeBarrier ho owner x)

/-- What an allocation does to the counters. -/
theorem books_alloc {h h' : Heap α} {v : α} {r : Ref} (ha : h.alloc v = .ok (r, h')) :
    h.live < h.limits.maxObjects ∧ h'.limits = h.limits ∧ h'.live = h.live + 1 ∧
      h'.tally = h.tally ∧ h'.slots.size = h.slots.size + if h.free = [] then 1 else 0 := by
  unfold alloc at ha
  split at ha
  · cases ha
  next hlt =>
  split at ha
  · next i rest hf =>
    obtain ⟨rfl, rfl⟩ := Prod.mk.inj (Except.ok.inj ha)
    refine ⟨Nat.lt_of_not_le hlt, rfl, rfl, rfl, ?_⟩
    simp [hf]
  · next hf =>
    split at ha
    · obtain ⟨rfl, rfl⟩ := Prod.mk.inj (Except.ok.inj ha)
      refine ⟨Nat.lt_of_not_le hlt, rfl, rfl, rfl, ?_⟩
      simp [hf]
    · cases ha

/-- The table never gets more slots than there are indexes. -/
theorem size_alloc {h h' : Heap α} {v : α} {r : Ref} (ha : h.alloc v = .ok (r, h'))
    (hsize : h.slots.size ≤ maxSlots) : h'.slots.size ≤ maxSlots := by
  rw [(books_alloc ha).2.2.2.2]
  split
  · next hf =>
    by_contra hfull
    have hlt : ¬ h.slots.size < maxSlots := by omega
    simp only [alloc, hf, if_neg hlt, ite_self] at ha
    cases ha
  · exact hsize

theorem orderly_alloc {h h' : Heap α} {v : α} {r : Ref} (ho : h.Orderly)
    (ha : h.alloc v = .ok (r, h')) : h'.Orderly := by
  have hal := alloc_cases ha ho.tidy.free_vacant
  obtain ⟨hlt, hlimits, hlive, _, hsize⟩ := books_alloc ha
  refine ⟨hal.tidy ho.tidy, fun i hv => ?_, ?_, ?_, ?_, fun x hx => ?_⟩
  · obtain ⟨u, hu, hnone⟩ := hv
    rw [hal.resolve] at hnone
    split at hnone
    · cases hnone
    next hne =>
    -- the slot was free before, and it is not the one that has been taken
    have hser : ∀ w, h'.serial? r.index = some w → w = r.serial := by
      intro w hw
      rcases hal.slot with ⟨_, hser, hkeep⟩ | ⟨_, _, _, hzero, hnew⟩
      · rw [hkeep, hser] at hw
        exact (Option.some.inj hw).symm
      · rw [hnew, if_pos rfl] at hw
        rw [hzero]
        exact (Option.some.inj hw).symm
    have hi : i ≠ r.index := by
      rintro rfl
      exact hne (by rw [hser u hu])
    rcases hal.slot with ⟨hfree, _, hkeep⟩ | ⟨hfree, _, _, _, hnew⟩
    · have hmem := ho.free_of_vacant i ⟨u, by rwa [← hkeep], hnone⟩
      rw [hfree] at hmem
      exact (List.mem_cons.mp hmem).resolve_left hi
    · rw [hnew, if_neg hi] at hu
      have hmem := ho.free_of_vacant i ⟨u, hu, hnone⟩
      rw [hfree] at hmem
      cases hmem
  · rw [hlive, hal.length_liveRefs, ho.live_eq]
  · rw [hsize, hlimits]
    split
    · next hfree =>
      -- without a free slot the table is full, and the objects in it are fewer than allowed
      have hfull : ∀ i, ¬ h.Vacant i := fun i hv => by
        have hmem := ho.free_of_vacant i hv
        rw [hfree] at hmem
        cases hmem
      have hle := size_le_length_liveRefs hfull
      rw [← ho.live_eq] at hle
      omega
    · exact ho.size_le
  · rw [hal.remembered]
    exact ho.remembered_nodup
  · rw [hal.remembered] at hx
    have hold := ho.remembered_old x hx
    obtain ⟨e, he, hg⟩ := needsBarrier_iff.mp hold
    exact needsBarrier_iff.mpr ⟨e, hal.resolve_of_resolve he, hg⟩

/-- Another object is made if the limit allows for it and there are handles enough. -/
theorem Orderly.alloc {h : Heap α} (ho : h.Orderly) (hlive : h.live < h.limits.maxObjects)
    (hslots : h.live < maxSlots) (v : α) : ∃ r h', h.alloc v = .ok (r, h') := by
  unfold Heap.alloc
  rw [if_neg (Nat.not_le.mpr hlive)]
  split
  · exact ⟨_, _, rfl⟩
  · next hfree =>
    have hfull : ∀ i, ¬ h.Vacant i := fun i hv => by
      have hmem := ho.free_of_vacant i hv
      rw [hfree] at hmem
      cases hmem
    have hle := size_le_length_liveRefs hfull
    rw [← ho.live_eq] at hle
    rw [if_pos (by omega)]
    exact ⟨_, _, rfl⟩

theorem needsBarrier_tenured_of_old {h : Heap α} {r x : Ref} (hx : h.needsBarrier x = true) :
    (h.tenured r).needsBarrier x = true := by
  obtain ⟨e, he, hg⟩ := needsBarrier_iff.mp hx
  rw [needsBarrier, resolve?_tenured]
  split
  · next heq =>
    subst heq
    simp [he, Header.enter]
  · simp [he, hg]

theorem orderly_tenured {h : Heap α} (ho : h.Orderly) (r : Ref) : (h.tenured r).Orderly :=
  ho.of_samePlaces (samePlaces_tenured h r) rfl rfl (tidy_tenured ho.tidy r) ho.remembered_nodup
    fun x hx => needsBarrier_tenured_of_old (ho.remembered_old x hx)

/-- A slot that is empty after a sweep was empty before, or its object has died. -/
theorem vacant_of_sweep {kind : CollectionKind} {h : Heap α} {i : Nat}
    (hv : (h.sweep kind).Vacant i) : h.Vacant i ∨ i ∈ h.dying kind := by
  obtain ⟨_, hu, hnone⟩ := hv
  rw [serial?_sweep, Option.map_eq_some_iff] at hu
  obtain ⟨w, hw, rfl⟩ := hu
  cases hd : h.dies kind ⟨i, w⟩ with
  | true => exact Or.inr (mem_dying.mpr ⟨w, hw, hd⟩)
  | false =>
    refine Or.inl ⟨w, hw, ?_⟩
    rw [hd, if_neg Bool.false_ne_true] at hnone
    cases he : h.resolve? ⟨i, w⟩ with
    | none => rfl
    | some e =>
      obtain ⟨e', he', _⟩ := resolve?_sweep_of_not_dies he hd
      rw [hnone] at he'
      cases he'

section

variable [Traced α]

theorem orderly_rememberHolder {h : Heap α} (ho : h.Orderly) (owner : Ref) :
    (h.rememberHolder owner).Orderly := by
  obtain ⟨hs, hr, hm, hmem⟩ := rememberHolders_spec ho.tidy.recorded [owner]
  refine ho.of_samePlaces hs.samePlaces hs.limits (sameBooks_rememberHolder h owner).live
    (ho.tidy.of_sameObjects hs hm hr)
    (nodup_rememberHolders ho.tidy.recorded ho.remembered_nodup [owner]) fun x hx => ?_
  change (h.rememberHolders [owner]).needsBarrier x = true
  rw [hs.needsBarrier]
  rcases (hmem x).mp hx with hx | ⟨_, hy⟩
  · exact ho.remembered_old x hx
  · exact (holdsYoung_iff.mp hy).1

theorem size_collect {h : Heap α} (ht : h.Tidy) (kind : CollectionKind) (roots : RootSet) :
    (h.collect kind roots).slots.size = h.slots.size := by
  have hle : ∀ i, (h.collect kind roots).slots.size ≤ i ↔ h.slots.size ≤ i := fun i => by
    rw [← serial?_eq_none, ← serial?_eq_none, serial?_collect ht, Option.map_eq_none_iff]
  exact Nat.le_antisymm ((hle _).mpr (Nat.le_refl _)) ((hle _).mp (Nat.le_refl _))

theorem free_collect {h : Heap α} (ht : h.Tidy) (kind : CollectionKind) (roots : RootSet) :
    (h.collect kind roots).free = ((h.walked kind roots).dying kind).reverse ++ h.free := by
  rw [(sameObjects_collect ht kind roots).free]
  change _ ++ (h.walked kind roots).free = _
  rw [(sameObjects_walked ht kind roots).free]

theorem orderly_collect {h : Heap α} (ho : h.Orderly) (kind : CollectionKind) (roots : RootSet) :
    (h.collect kind roots).Orderly := by
  have ht := ho.tidy
  have hs := sameObjects_collect ht kind roots
  have hw := sameObjects_walked ht kind roots
  have hrec := recorded_sweep_walked ht kind roots
  have hrefs : ((h.walked kind roots).sweep kind).remembered.refs = #[] := refs_walked ht kind roots
  obtain ⟨hlimits, hlive, _⟩ := books_collect kind h roots
  obtain ⟨report, heq⟩ := collect_eq kind h roots
  refine ⟨tidy_collect ht kind roots, fun i hv => ?_, ?_, ?_, ?_, fun x hx => ?_⟩
  · rw [free_collect ht, List.mem_append, List.mem_reverse]
    have hback : SamePlaces (h.collect kind roots) ((h.walked kind roots).sweep kind) :=
      hs.samePlaces.symm
    rcases vacant_of_sweep (hback.vacant hv) with hv | hi
    · exact Or.inr (ho.free_of_vacant i (hw.samePlaces.symm.vacant hv))
    · exact Or.inl hi
  · have hlength := length_liveRefs_collect ht kind roots
    rw [hlive, ho.live_eq]
    omega
  · rw [size_collect ht, hlimits]
    exact ho.size_le
  · rw [heq]
    refine nodup_rememberHolders hrec ?_ _
    rw [hrefs]
    exact List.nodup_nil
  · -- what a collection remembers is old and holds a young object
    obtain ⟨_, _, _, hmem⟩ := rememberHolders_spec hrec (h.holdersOf kind roots)
    rw [hs.needsBarrier]
    rw [heq] at hx
    rcases (hmem x).mp hx with hx | ⟨_, hy⟩
    · rw [hrefs] at hx
      exact absurd hx (Array.not_mem_empty x)
    · exact (holdsYoung_iff.mp hy).1

end

end Heap

end Managed
