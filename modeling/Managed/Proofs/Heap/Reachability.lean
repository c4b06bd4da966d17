import Mathlib.Data.Set.Card
import Managed.Proofs.Heap.Books

/-!
# What exactly a collection keeps

In a heap whose parts agree (`Orderly`) a collection is described without its walk and its sweep. A
minor collection keeps the old objects and those young ones that can be reached from the roots, or from
what the remembered objects hold, without passing through an old object. A major collection keeps what
can be reached from the roots. Both say in their reports how many objects they found, freed and made
old, and leave in the remembered set the old objects that hold young ones: a minor collection if that
was so before, a major one always.

The walk takes one handle from its list at a time (`visit`). It ends, since a heap holds finitely many
handles and every object adds those it holds once (`iterate_visit`).
-/

namespace Managed.Heap

variable {α : Type}

/-! ## Counting objects -/

theorem encard_eq_length {s : Set Ref} {refs : List Ref} (hnodup : refs.Nodup)
    (hmem : ∀ x, x ∈ refs ↔ x ∈ s) : s.encard = refs.length := by
  have hs : s = (refs.toFinset : Set Ref) := by
    ext x
    rw [List.coe_toFinset, Set.mem_ofPred_eq, hmem]
  rw [hs, Set.encard_coe_eq_coe_finsetCard, List.toFinset_card_of_nodup hnodup]

theorem hasMark_slot {h : Heap α} {i : Nat} {s : Slot α} (hs : h.slots[i]? = some s) :
    h.hasMark ⟨i, s.serial⟩ = s.isMarked := by
  simp [hasMark, resolve?, hs, Slot.entryFor?_eq, Slot.isMarked]

theorem contains_of_hasMark {h : Heap α} {x : Ref} (hx : h.hasMark x = true) :
    h.contains x = true := by
  obtain ⟨e, he, _⟩ := (Option.any_eq_true _ _).mp hx
  exact contains_iff.mpr ⟨e, he⟩

/-- The count of marks is a count of live objects. -/
theorem marked_eq (h : Heap α) : h.marked = (h.liveRefs.filter h.hasMark).length := by
  unfold marked
  rw [liveRefs_eq, List.filter_filterMap, List.length_filterMap_eq_countP, ← Array.countP_toList]
  conv => lhs; rw [← List.zipIdx_map_fst 0 h.slots.toList, List.countP_map]
  refine List.countP_congr fun p hp => ?_
  obtain ⟨s, i⟩ := p
  have hs : h.slots[i]? = some s := by
    rw [← Array.getElem?_toList]
    exact List.mem_zipIdx_iff_getElem?.mp hp
  have hm := hasMark_slot hs
  cases he : s.entry with
  | none => simp [Slot.isMarked, he]
  | some e => simp [Option.filter, hm, he]

variable [Traced α]

/-! ## The steps of the walk -/

/-- One step of a walk: a heap and the handles still to be looked at. -/
def visit (kind : CollectionKind) (p : Heap α × List Ref) : Heap α × List Ref :=
  match p.2 with
  | [] => p
  | r :: rest =>
    match p.1.markable? kind r with
    | none => (p.1, rest)
    | some e => (p.1.mark r, Traced.refs e.value ++ rest)

/-- A walk has come to its end after as many steps as there are handles to look at. -/
theorem iterate_visit (kind : CollectionKind) (h : Heap α) (work : List Ref) {n : Nat}
    (hn : h.pending.length + work.length ≤ n) :
    (visit kind)^[n] (h, work) = (h.markFrom kind work, []) := by
  fun_induction markFrom kind h work generalizing n with
  | case1 h => exact Function.iterate_fixed rfl n
  | case2 h r rest hnone ih =>
    obtain ⟨m, rfl⟩ : ∃ m, n = m + 1 := ⟨n - 1, by simp only [List.length_cons] at hn; omega⟩
    have hstep : visit kind (h, r :: rest) = (h, rest) := by simp only [visit, hnone]
    rw [Function.iterate_succ_apply, hstep]
    refine ih ?_
    simp only [List.length_cons] at hn
    omega
  | case3 h r rest e he ih =>
    obtain ⟨m, rfl⟩ : ∃ m, n = m + 1 := ⟨n - 1, by simp only [List.length_cons] at hn; omega⟩
    have hstep : visit kind (h, r :: rest) = (h.mark r, Traced.refs e.value ++ rest) := by
      simp only [visit, he]
    have hpending := pending_mark he
    rw [Function.iterate_succ_apply, hstep]
    refine ih ?_
    simp only [List.length_cons] at hn
    rw [List.length_append]
    omega

/-- Where nothing is marked yet, a walk may come upon every handle that a live object holds. -/
theorem pending_eq {h : Heap α} (hm : ∀ x, h.hasMark x = false) :
    h.pending = h.liveRefs.flatMap h.children := by
  unfold pending
  rw [liveRefs_eq, List.filterMap_eq_flatMap_toList, List.flatMap_assoc]
  conv => lhs; rw [← List.zipIdx_map_fst 0 h.slots.toList, List.flatMap_map]
  refine List.flatMap_congr fun p hp => ?_
  obtain ⟨s, i⟩ := p
  have hs : h.slots[i]? = some s := by
    rw [← Array.getElem?_toList]
    exact List.mem_zipIdx_iff_getElem?.mp hp
  cases he : s.entry with
  | none => simp [Slot.pending, he]
  | some e =>
    have hr : h.resolve? ⟨i, s.serial⟩ = some e := resolve?_eq_some.mpr ⟨s, hs, rfl, he⟩
    have hmark : e.header.marked = false := by simpa [hasMark, hr] using hm ⟨i, s.serial⟩
    simp [Slot.pending, he, hmark, children_of_resolve? hr]

/-- The number of handles that a walk through a heap between collections may come upon. -/
theorem length_pending_forgetAll {h : Heap α} (ht : h.Tidy) :
    h.forgetAll.pending.length = (h.liveRefs.flatMap h.children).length := by
  obtain ⟨hsame, _, hmark, _⟩ := forgetAll_spec ht.recorded
  have hlive : h.forgetAll.liveRefs.Perm h.liveRefs :=
    (List.perm_ext_iff_of_nodup (nodup_liveRefs _) (nodup_liveRefs _)).mpr fun x => by
      rw [mem_liveRefs, mem_liveRefs, hsame.contains]
  rw [pending_eq fun x => (hmark x).trans (ht.unmarked x), funext hsame.children]
  exact (hlive.flatMap_right h.children).length_eq

/-! ## What is kept -/

theorem trail_contains_iff {h : Heap α} {start : List Ref} {x : Ref} :
    h.Trail h.contains start x ↔ h.Reaches start x := by
  refine ⟨fun hx => hx.reaches fun _ hr => hr, fun hx => ?_⟩
  induction hx with
  | root hr hc => exact .root hr hc
  | held _ hx hc ih => exact .held ih hx hc

section

variable {h : Heap α} (ht : h.Tidy) (kind : CollectionKind) (roots : RootSet)
include ht

/-- A collection keeps what it does not cover and what it reaches through objects that it covers. -/
theorem get?_collect_eq_some {x : Ref} {v : α} :
    (h.collect kind roots).get? x = some v ↔
      h.get? x = some v ∧
        (h.covered kind x = true → h.Trail (h.covered kind) (h.startOf kind roots) x) := by
  rw [get?_collect ht, ← hasMark_walked_iff ht, ← spares_iff ht]
  split
  · next hs => simp [hs]
  · next hs => simp [hs]

theorem hasMark_walked_iff_contains {x : Ref} :
    (h.walked kind roots).hasMark x = true ↔
      h.covered kind x = true ∧ (h.collect kind roots).contains x = true := by
  rw [contains_collect ht, Bool.and_eq_true, spares_iff ht]
  constructor
  · intro hx
    have hc := covered_of_hasMark_walked ht kind roots hx
    exact ⟨hc, contains_of_covered hc, fun _ => hx⟩
  · rintro ⟨hc, _, hx⟩
    exact hx hc

theorem marked_walked :
    ((h.walked kind roots).marked : ℕ∞) =
      Set.encard {x | h.covered kind x = true ∧ (h.collect kind roots).contains x = true} := by
  rw [marked_eq, encard_eq_length ((nodup_liveRefs _).filter _) fun x => ?_]
  rw [List.mem_filter, mem_liveRefs, Set.mem_ofPred_eq, ← hasMark_walked_iff_contains ht,
    and_iff_right_iff_imp]
  exact contains_of_hasMark

theorem length_dying_walked :
    (((h.walked kind roots).dying kind).length : ℕ∞) =
      Set.encard {x | h.covered kind x = true ∧ (h.collect kind roots).contains x = false} := by
  have hw := sameObjects_walked ht kind roots
  rw [dying_eq, List.length_map, encard_eq_length ((nodup_liveRefs _).filter _) fun x => ?_]
  rw [List.mem_filter, mem_liveRefs, Set.mem_ofPred_eq, hw.contains, contains_collect ht, spares,
    dies, hw.covered]
  cases hc : h.covered kind x with
  | false => simp
  | true => simp [contains_of_covered hc]

theorem length_maturing_walked :
    ((h.walked kind roots).maturing.length : ℕ∞) =
      Set.encard {x | h.isYoung x = true ∧ (h.collect kind roots).generation x = .ok .old} := by
  rw [encard_eq_length (nodup_maturing (h.walked kind roots)) fun x => ?_]
  rw [Set.mem_ofPred_eq, generation_eq_old]
  exact mem_maturing_walked ht kind roots

/-- After a collection the old objects that hold young ones are the remembered ones. A minor collection
relies on the remembered set that it finds, a major one does not. -/
theorem mem_remembered_collect (hb : kind = .minor → h.Barriered) {owner : Ref} :
    owner ∈ (h.collect kind roots).remembered.refs ↔
      (h.collect kind roots).generation owner = .ok .old ∧
        ∃ x ∈ (h.collect kind roots).children owner, (h.collect kind roots).isYoung x = true := by
  rw [generation_eq_old, ← holdsYoung_iff]
  refine ⟨fun hmem => ((mem_refs_collect ht kind roots).mp hmem).2, fun hy => ?_⟩
  cases kind with
  | minor => exact barriered_collect ht .minor roots (hb rfl) owner hy
  | major =>
    have hholder := mem_holdersOf_major ht roots (contains_of_holdsYoung hy)
    exact (mem_refs_collect ht .major roots).mpr ⟨hholder, hy⟩

end

/-! ## Minor collections -/

/-- The objects that a minor collection keeps are the old ones and the young ones that it reaches through
young ones. -/
theorem get?_minorCollect_eq_some {h : Heap α} (ht : h.Tidy) (roots : RootSet) {x : Ref} {v : α} :
    (h.minorCollect roots).2.get? x = some v ↔
      h.get? x = some v ∧ (h.generation x = .ok .old ∨
        h.Trail h.isYoung (roots.toList ++ h.remembered.refs.toList.flatMap h.children) x) := by
  refine (get?_collect_eq_some ht .minor roots).trans (and_congr_right fun hx => ?_)
  have hlive : h.contains x = true := contains_iff_get?.mpr ⟨v, hx⟩
  constructor
  · intro htrail
    cases hy : h.isYoung x with
    | false => exact Or.inl (generation_eq_old.mpr (needsBarrier_of_not_isYoung hlive hy))
    | true => exact Or.inr (htrail hy)
  · rintro (hold | htrail) hy
    · rw [generation_eq_old, needsBarrier_of_isYoung hy] at hold
      cases hold
    · exact htrail

/-- A minor collection keeps a live object, with its handle and its value, if the object is old or a path
of young objects leads to it from a root or from what a remembered object holds, and frees all others.
Its report counts the young objects that are left, those that are gone and those that became old. Only
for the remembered set that it leaves do barriers matter. -/
theorem minorCollect_frees_unreached_young {h : Heap α} (ho : h.Orderly) (roots : RootSet) :
    let report := (h.minorCollect roots).1
    let h' := (h.minorCollect roots).2
    (∀ x v, h'.get? x = some v ↔
      h.get? x = some v ∧ (h.generation x = .ok .old ∨
        h.Trail h.isYoung (roots.toList ++ h.remembered.refs.toList.flatMap h.children) x)) ∧
    (report.marked : ℕ∞) = Set.encard {x | h.isYoung x = true ∧ h'.contains x = true} ∧
    (report.freed : ℕ∞) = Set.encard {x | h.isYoung x = true ∧ h'.contains x = false} ∧
    (report.promoted : ℕ∞) =
      Set.encard {x | h.isYoung x = true ∧ h'.generation x = .ok .old} ∧
    (h.Barriered → h'.remembered.refs.toList.Nodup ∧
      ∀ owner, owner ∈ h'.remembered.refs ↔
        h'.generation owner = .ok .old ∧ ∃ x ∈ h'.children owner, h'.isYoung x = true) := by
  intro report h'
  have ht := ho.tidy
  refine ⟨fun x v => get?_minorCollect_eq_some ht roots, marked_walked ht .minor roots,
    length_dying_walked ht .minor roots, length_maturing_walked ht .minor roots, fun hb => ⟨?_, ?_⟩⟩
  · exact (orderly_collect ho .minor roots).remembered_nodup
  · intro owner
    exact mem_remembered_collect ht .minor roots fun _ => hb

/-- The objects `b` and `c` are young and hold each other, and the old `a` holds `b`. Nothing holds the
object that is allocated last. -/
theorem minorCollect_frees_unreached_young_cycle :
    let a : Ref := ⟨0, 0⟩
    let b : Ref := ⟨1, 0⟩
    let c : Ref := ⟨2, 0⟩
    let actions : List (Action Supplier) :=
      [.alloc {}, .tenure a, .alloc {}, .store a ⟨[b], [a], 0⟩ [b, a], .alloc ⟨[b], [b], 0⟩,
        .store b ⟨[c], [c], 0⟩ [c], .alloc ⟨[a], [b], 0⟩]
    let h := ((Session.start {}).run actions).heap
    let h' := (h.minorCollect {}).2
    h.Orderly ∧ h.Barriered ∧ h'.get? c = some ⟨[b], [b], 0⟩ ∧
      Set.encard {x | h.isYoung x = true ∧ h'.contains x = false} = 1 ∧ a ∈ h'.remembered.refs := by
  intro a b c actions h h'
  have ho : h.Orderly := (Session.kept_run (Session.kept_start {}) actions).orderly
  have hfew : ∀ i, ((Session.start {}).run actions).freed i < 2 ^ 32 := by
    intro i
    have hle : ((Session.start {}).run actions).freed i ≤ 0 + 7 := Session.freed_run_le _ actions i
    omega
  have hlaw : (Session.start {}).Lawful actions := by decide
  have hb : h.Barriered := (Session.sound_run (Session.sound_start {}) hlaw hfew).barriered
  obtain ⟨hkeeps, _, hfreed, _, hremembered⟩ := minorCollect_frees_unreached_young ho {}
  have hyoung : ∀ x ∈ [b, c], h.isYoung x = true := by decide +kernel
  have hb' : b ∈ RootSet.toList {} ++ h.remembered.refs.toList.flatMap h.children := by
    decide +kernel
  have hc' : c ∈ h.children b := by decide +kernel
  have hpath := (Trail.root hb' (hyoung b (by decide))).held hc' (hyoung c (by decide))
  have hvalue : h.get? c = some ⟨[b], [b], 0⟩ := by decide +kernel
  have hone : (h.minorCollect {}).1.freed = 1 := by decide +kernel
  rw [hone] at hfreed
  refine ⟨ho, hb, (hkeeps c _).mpr ⟨hvalue, Or.inr hpath⟩, hfreed.symm, ?_⟩
  refine ((hremembered hb).2 a).mpr ⟨generation_eq_old.mpr ?_, b, ?_, ?_⟩
  · decide +kernel
  · decide +kernel
  · decide +kernel

/-! ## Major collections -/

theorem get?_majorCollect_eq_some {h : Heap α} (ht : h.Tidy) (roots : RootSet) {x : Ref} {v : α} :
    (h.majorCollect roots).2.get? x = some v ↔
      h.get? x = some v ∧ h.Reaches roots.toList x := by
  refine (get?_collect_eq_some ht .major roots).trans (and_congr_right fun hx => ?_)
  have hlive : h.contains x = true := contains_iff_get?.mpr ⟨v, hx⟩
  rw [funext h.covered_major, trail_contains_iff]
  exact ⟨fun hr => hr hlive, fun hr _ => hr⟩

/-- A major collection ends, keeps the live objects that can be reached from the roots and frees all
others, whatever the remembered set was. Its report counts both, and the remembered set it leaves is
the right one. -/
theorem majorCollect_keeps_reachable {h : Heap α} (ho : h.Orderly) (roots : RootSet) :
    let report := (h.majorCollect roots).1
    let h' := (h.majorCollect roots).2
    let steps := (h.liveRefs.flatMap h.children).length + roots.toList.length
    (visit .major)^[steps] (h.forgetAll, roots.toList) =
      (h.forgetAll.markFrom .major roots.toList, []) ∧
    (∀ x v, h'.get? x = some v ↔ h.get? x = some v ∧ h.Reaches roots.toList x) ∧
    (report.marked : ℕ∞) = Set.encard {x | h.Reaches roots.toList x} ∧
    (report.freed : ℕ∞) = Set.encard {x | h.contains x = true ∧ ¬ h.Reaches roots.toList x} ∧
    h'.live + report.freed = h.live ∧
    h'.remembered.refs.toList.Nodup ∧
    (∀ owner, owner ∈ h'.remembered.refs ↔
      h'.generation owner = .ok .old ∧ ∃ x ∈ h'.children owner, h'.isYoung x = true) := by
  intro report h' steps
  have ht := ho.tidy
  have hlive : ∀ x, h'.contains x = true ↔ h.Reaches roots.toList x := by
    intro x
    rw [contains_iff_get?]
    constructor
    · rintro ⟨v, hv⟩
      exact ((get?_majorCollect_eq_some ht roots).mp hv).2
    · intro hr
      obtain ⟨v, hv⟩ := contains_iff_get?.mp (contains_of_reaches hr)
      exact ⟨v, (get?_majorCollect_eq_some ht roots).mpr ⟨hv, hr⟩⟩
  have ho' : h'.Orderly := orderly_collect ho .major roots
  refine ⟨iterate_visit .major _ _ (by rw [length_pending_forgetAll ht]),
    fun x v => get?_majorCollect_eq_some ht roots, ?_, ?_, ?_, ho'.remembered_nodup,
    fun owner => mem_remembered_collect ht .major roots fun hk => by cases hk⟩
  · refine (marked_walked ht .major roots).trans (congrArg Set.encard (Set.ext fun x => ?_))
    rw [Set.mem_ofPred_eq, Set.mem_ofPred_eq, covered_major]
    exact ⟨fun hx => (hlive x).mp hx.2, fun hr => ⟨contains_of_reaches hr, (hlive x).mpr hr⟩⟩
  · refine (length_dying_walked ht .major roots).trans (congrArg Set.encard (Set.ext fun x => ?_))
    rw [Set.mem_ofPred_eq, Set.mem_ofPred_eq, covered_major, ← hlive, Bool.not_eq_true]
    exact Iff.rfl
  · rw [ho'.live_eq, ho.live_eq]
    exact length_liveRefs_collect ht .major roots

/-- The old `a` holds the young `b`, which was stored in it without a barrier. -/
theorem majorCollect_keeps_reachable_unbarriered :
    let a : Ref := ⟨0, 0⟩
    let b : Ref := ⟨1, 0⟩
    let actions : List (Action Supplier) :=
      [.alloc {}, .tenure a, .alloc ⟨[a], [a], 0⟩, .store a ⟨[b], [a], 0⟩ [], .alloc ⟨[a], [b], 0⟩]
    let h := ((Session.start {}).run actions).heap
    let roots : RootSet := ⟨#[a, a], #[]⟩
    let h' := (h.majorCollect roots).2
    h.Orderly ∧ ¬ h.Barriered ∧ h'.get? b = some ⟨[a], [a], 0⟩ ∧
      Set.encard {x | h.contains x = true ∧ ¬ h.Reaches roots.toList x} = 1 ∧
      h'.live + 1 = h.live ∧ a ∈ h'.remembered.refs := by
  intro a b actions h roots h'
  have ho : h.Orderly := (Session.kept_run (Session.kept_start {}) actions).orderly
  have hb : ¬ h.Barriered := fun hb =>
    absurd (hb a (by decide +kernel)) (by decide +kernel : a ∉ h.remembered.refs)
  obtain ⟨_, hkeeps, _, hfreed, hcount, _, hremembered⟩ := majorCollect_keeps_reachable ho roots
  have hlive : ∀ x ∈ [a, b], h.contains x = true := by decide +kernel
  have hheld : b ∈ h.children a := by decide +kernel
  have hroot : a ∈ roots.toList := by decide
  have hreach := (Reaches.root hroot (hlive a (by decide))).held hheld (hlive b (by decide))
  have hvalue : h.get? b = some ⟨[a], [a], 0⟩ := by decide +kernel
  have hone : (h.majorCollect roots).1.freed = 1 := by decide +kernel
  rw [hone] at hfreed hcount
  refine ⟨ho, hb, (hkeeps b _).mpr ⟨hvalue, hreach⟩, hfreed.symm, hcount, ?_⟩
  refine (hremembered a).mpr ⟨generation_eq_old.mpr ?_, b, ?_, ?_⟩
  · decide +kernel
  · decide +kernel
  · decide +kernel

end Managed.Heap
