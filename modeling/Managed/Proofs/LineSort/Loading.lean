import Managed.LineSort.Run
import Managed.Proofs.Heap.Books
import Managed.Proofs.SlotArray.Packed
import Managed.Proofs.Space.Effect

/-!
# Loading lines

While lines are loaded there is nothing in the space but the array, which is a root, and the strings
that it holds (`Loaded`). So the minor collections, whenever they come, free nothing, and loading ends
well if and only if there is room for all lines, among the objects and in the array (`loadLines_ok`,
`loadLines_error`). If it has ended well, all lines are there (`loadLines_loaded`).
-/

namespace Managed.LineSort

open Space

/-- A space in which an array holds strings with the texts of lines, and which has nothing else. -/
structure Loaded (limits : SpaceLimits) (array : Ref) (refs : List Ref) (lines : List String)
    (s : Space) : Prop where
  orderly : s.heap.Orderly
  barriered : s.heap.Barriered
  objects : s.heap.limits = limits.heap
  arrays : s.limits = limits.arrays
  root : array ∈ s.roots.toList
  packed : ∃ spare, s.heap.get? array = some (.array (.packed refs spare))
  strings : List.Forall₂ (fun r line => s.heap.get? r = some (.string line)) refs lines
  only : ∀ x, s.heap.contains x = true → x = array ∨ x ∈ refs
  live : s.heap.live = lines.length + 1
  slots : s.heap.slots.size ≤ Heap.maxSlots

section

variable {limits : SpaceLimits} {array : Ref} {refs : List Ref} {lines : List String} {s t : Space}

theorem Loaded.length_eq (hs : Loaded limits array refs lines s) : refs.length = lines.length :=
  hs.strings.length_eq

theorem Loaded.children (hs : Loaded limits array refs lines s) : s.heap.children array = refs := by
  obtain ⟨spare, hpacked⟩ := hs.packed
  rw [Heap.children, hpacked]
  exact SlotArray.allItems_packed

theorem Loaded.string (hs : Loaded limits array refs lines s) {r : Ref} (hr : r ∈ refs) :
    ∃ line, s.heap.get? r = some (.string line) := by
  have hboth : List.Forall₂ (fun r line => (∃ line, s.heap.get? r = some (.string line)) ∧
      s.heap.get? r = some (.string line)) refs lines :=
    hs.strings.imp fun r line hr => ⟨⟨line, hr⟩, hr⟩
  exact ((List.forall₂_and_left _ _).mp hboth).1 r hr

/-- Everything is held by the root. -/
theorem Loaded.reaches (hs : Loaded limits array refs lines s) {x : Ref}
    (hx : s.heap.contains x = true) : s.heap.Reaches s.roots.toList x := by
  obtain ⟨spare, hpacked⟩ := hs.packed
  have harray : s.heap.Reaches s.roots.toList array :=
    .root hs.root (Heap.contains_iff_get?.mpr ⟨_, hpacked⟩)
  rcases hs.only x hx with rfl | hmem
  · exact harray
  · exact .held harray (by rwa [hs.children]) hx

/-- A space with the same objects. -/
theorem Loaded.of_get? (hs : Loaded limits array refs lines s) (ho : t.heap.Orderly)
    (hb : t.heap.Barriered) (hobjects : t.heap.limits = s.heap.limits) (harrays : t.limits = s.limits)
    (hroots : t.roots = s.roots) (hsize : t.heap.slots.size = s.heap.slots.size)
    (hget : ∀ x, t.heap.get? x = s.heap.get? x) : Loaded limits array refs lines t := by
  have hcontains : ∀ x, t.heap.contains x = true ↔ s.heap.contains x = true := by
    intro x
    rw [Heap.contains_iff_get?, Heap.contains_iff_get?, hget]
  refine ⟨ho, hb, hobjects.trans hs.objects, harrays.trans hs.arrays, ?_, ?_, ?_, fun x hx => ?_, ?_,
    by rw [hsize]; exact hs.slots⟩
  · rw [hroots]
    exact hs.root
  · obtain ⟨spare, hpacked⟩ := hs.packed
    exact ⟨spare, by rw [hget, hpacked]⟩
  · exact hs.strings.imp fun r line hr => by rw [hget, hr]
  · exact hs.only x ((hcontains x).mp hx)
  · rw [← hs.live, ho.live_eq, hs.orderly.live_eq]
    refine Heap.length_liveRefs_eq s.heap.nodup_liveRefs fun x => ?_
    rw [Heap.mem_liveRefs, hcontains]

/-- A collection finds nothing to free. -/
theorem loaded_collect (hs : Loaded limits array refs lines s) (kind : CollectionKind) :
    Loaded limits array refs lines { s with heap := s.heap.collect kind s.roots } := by
  have ht := hs.orderly.tidy
  refine hs.of_get? (Heap.orderly_collect hs.orderly kind s.roots)
    (Heap.barriered_collect ht kind s.roots hs.barriered)
    (Heap.booked_collect hs.orderly kind s.roots).limits rfl rfl
    (Heap.size_collect ht kind s.roots) fun x => ?_
  dsimp only
  rw [Heap.get?_collect ht]
  split
  · rfl
  · next hfreed =>
    cases hx : s.heap.get? x with
    | none => rfl
    | some o =>
      have hlive := Heap.contains_iff_get?.mpr ⟨o, hx⟩
      exact absurd (Heap.spared_of_reaches ht kind s.roots hs.barriered (hs.reaches hlive)) hfreed

/-! ## One line more -/

theorem sameBooks_stored {r : Ref} {old : Object} (hr : s.heap.get? r = some old) (o : Object)
    (handles : List Ref) : Heap.SameBooks s.heap (s.stored r o handles).heap := by
  rw [stored_of_live hr, setObject_of_live hr]
  exact (Heap.sameBooks_modifyEntry s.heap r _).trans
    (.foldl (fun h x => Heap.sameBooks_writeBarrier h r x) _ handles)

section

variable (hs : Loaded limits array refs lines s) {line : String} {r : Ref} {heap : Heap Object}
  (ha : s.heap.alloc (.string line) = .ok (r, heap))
include hs ha

/-- The array is not touched by the allocation. -/
theorem Loaded.packed_alloc : ∃ spare, heap.get? array = some (.array (.packed refs spare)) := by
  obtain ⟨spare, hpacked⟩ := hs.packed
  exact ⟨spare, (Heap.alloc_cases ha hs.orderly.tidy.free_vacant).get?_of_get? hpacked⟩

/-- A new string is held by nothing yet. -/
theorem Loaded.fresh : r ≠ array ∧ ∀ owner, r ∉ s.heap.children owner := by
  have hal := Heap.alloc_cases ha hs.orderly.tidy.free_vacant
  have hstale : ∀ o, s.heap.get? r ≠ some o := by
    intro o ho
    simp [Heap.get?, hal.stale] at ho
  have harray : r ≠ array := by
    rintro rfl
    obtain ⟨spare, hpacked⟩ := hs.packed
    exact hstale _ hpacked
  have hrefs : r ∉ refs := by
    intro hr
    obtain ⟨text, htext⟩ := hs.string hr
    exact hstale _ htext
  refine ⟨harray, fun owner hr => ?_⟩
  cases hlive : s.heap.contains owner with
  | false =>
    rw [Heap.children_of_not_contains hlive] at hr
    cases hr
  | true =>
    rcases hs.only owner hlive with rfl | howner
    · rw [hs.children] at hr
      exact hrefs hr
    · obtain ⟨text, htext⟩ := hs.string howner
      rw [Heap.children, htext] at hr
      cases hr

/-- When the array holds the new string too, there is one line more. -/
theorem loaded_stored (spare : Nat) :
    Loaded limits array (refs ++ [r]) (lines ++ [line])
      (({ s with heap } : Space).stored array (.array (.packed (refs ++ [r]) spare)) [r]) := by
  have hal := Heap.alloc_cases ha hs.orderly.tidy.free_vacant
  obtain ⟨_, hlimits, hlive, _⟩ := Heap.books_alloc ha
  obtain ⟨harray, hfresh⟩ := hs.fresh ha
  obtain ⟨_, hpacked⟩ := hs.packed_alloc ha
  have ho : heap.Orderly := Heap.orderly_alloc hs.orderly ha
  have ho' := Heap.orderly_onHeap ho s.roots (.store array (.array (.packed (refs ++ [r]) spare)) [r])
  have hplaces := Heap.samePlaces_onHeap heap s.roots ho.tidy
    (a := .store array (.array (.packed (refs ++ [r]) spare)) [r])
    (fun _ h => by cases h) (fun _ h => by cases h)
  have hbooks := sameBooks_stored (s := { s with heap }) hpacked
    (.array (.packed (refs ++ [r]) spare)) [r]
  have hget := get?_stored (s := { s with heap }) ho.tidy hpacked
    (.array (.packed (refs ++ [r]) spare)) [r]
  have hstring : ∀ x text, heap.get? x = some (.string text) →
      (({ s with heap } : Space).stored array (.array (.packed (refs ++ [r]) spare)) [r]).heap.get? x =
        some (.string text) := by
    intro x text hx
    rw [hget, if_neg, hx]
    rintro rfl
    rw [hpacked] at hx
    cases hx
  refine ⟨ho', fun owner => ?_, ?_, hs.arrays, hs.root, ⟨spare, ?_⟩, ?_, fun x hx => ?_, ?_, ?_⟩
  · rw [stored_of_live hpacked, setObject_of_live hpacked]
    refine Heap.guarded_store ho.tidy (hal.guarded (hs.barriered owner) (hfresh owner)) fun _ x hx => ?_
    change x ∈ (SlotArray.packed (refs ++ [r]) spare).allItems at hx
    rw [SlotArray.allItems_packed] at hx
    rw [hal.children, if_neg harray.symm, hs.children]
    exact List.mem_append.mp hx
  · exact hbooks.limits.trans (hlimits.trans hs.objects)
  · rw [hget, if_pos rfl]
  · refine List.rel_append (hs.strings.imp fun x text hx => ?_) (.cons ?_ .nil)
    · exact hstring x text (hal.get?_of_get? hx)
    · exact hstring r line (by rw [hal.get?, if_pos rfl])
  · obtain ⟨o, ho⟩ := Heap.contains_iff_get?.mp hx
    rw [hget] at ho
    split at ho
    · next harr => exact Or.inl harr
    · dsimp only at ho
      rw [hal.get?] at ho
      split at ho
      · next hxr => exact Or.inr (List.mem_append_right _ (List.mem_singleton.mpr hxr))
      · rcases hs.only x (Heap.contains_iff_get?.mpr ⟨o, ho⟩) with hx | hx
        · exact Or.inl hx
        · exact Or.inr (List.mem_append_left _ hx)
  · rw [hbooks.live, hlive, hs.live, List.length_append]
    rfl
  · exact Nat.le_trans (Nat.le_of_eq (Heap.size_eq_of_serial? hplaces.serial))
      (Heap.size_alloc ha hs.slots)

/-- The new string is appended, if the array may have another item. -/
theorem append_loaded (hword : lines.length + 1 ≤ Word.max)
    (hmax : lines.length + 1 ≤ limits.arrays.maxElements) :
    ∃ spare, append array r { s with heap } = .ok (lines.length + 1)
      (({ s with heap } : Space).stored array (.array (.packed (refs ++ [r]) spare)) [r]) := by
  obtain ⟨spare, hpacked⟩ := hs.packed_alloc ha
  have harr : ({ s with heap } : Space).array array = .ok (.packed refs spare) :=
    array_eq_ok.mpr hpacked
  rw [← hs.length_eq] at hword hmax ⊢
  rw [← hs.arrays] at hmax
  obtain ⟨spare', happend⟩ := SlotArray.append_packed spare r hword hmax
  refine ⟨spare', ?_⟩
  rw [append_eq harr]
  dsimp only
  rw [happend]

/-- Otherwise it is not. -/
theorem append_loaded_full (hword : lines.length + 1 ≤ Word.max)
    (hmax : limits.arrays.maxElements < lines.length + 1) :
    ∃ e, append array r { s with heap } = .error e { s with heap } := by
  obtain ⟨spare, hpacked⟩ := hs.packed_alloc ha
  have harr : ({ s with heap } : Space).array array = .ok (.packed refs spare) :=
    array_eq_ok.mpr hpacked
  rw [← hs.length_eq] at hword hmax
  rw [← hs.arrays] at hmax
  have happend := SlotArray.append_packed_full spare r hword hmax
  refine ⟨.capacityExceeded (refs.length + 1) s.limits.maxElements, ?_⟩
  rw [append_eq harr]
  dsimp only
  rw [happend]

end

/-! ## Adding a line -/

theorem maxSlots_le_max : Heap.maxSlots ≤ Word.max := by
  decide

theorem addLine_ok (hs : Loaded limits array refs lines s) (hslots : lines.length + 1 < Heap.maxSlots)
    (hobjects : lines.length + 2 ≤ limits.heap.maxObjects)
    (helements : lines.length + 1 ≤ limits.arrays.maxElements) (line : String) :
    ∃ r t, addLine array line s = .ok () t ∧
      Loaded limits array (refs ++ [r]) (lines ++ [line]) t := by
  have hlive : s.heap.live < s.heap.limits.maxObjects := by
    rw [hs.live, hs.objects]
    omega
  obtain ⟨r, heap, ha⟩ := hs.orderly.alloc hlive (by rw [hs.live]; omega) (.string line)
  have hnew : newString line s = .ok r { s with heap } := by
    simp only [newString, Space.alloc, ha]
  obtain ⟨spare, happend⟩ := append_loaded hs ha
    (Nat.le_trans (Nat.le_of_lt hslots) maxSlots_le_max) helements
  have hloaded := loaded_stored hs ha spare
  refine ⟨r, ?_⟩
  rw [addLine, bind_of_ok hnew, bind_of_ok happend]
  -- whether or not a collection is due, all is still there
  have hget : ∀ t : Space, (get : SpaceM Space) t = .ok t t := fun _ => rfl
  rw [bind_of_ok (hget _)]
  split
  · exact ⟨_, rfl, loaded_collect hloaded .minor⟩
  · exact ⟨_, rfl, hloaded⟩

theorem addLine_error (hs : Loaded limits array refs lines s)
    (hslots : lines.length + 1 < Heap.maxSlots)
    (hfull : ¬ (lines.length + 2 ≤ limits.heap.maxObjects ∧
      lines.length + 1 ≤ limits.arrays.maxElements)) (line : String) :
    ∃ e t, addLine array line s = .error e t := by
  cases ha : s.heap.alloc (.string line) with
  | error e =>
    have hnew : newString line s = .error (.heap e) s := by
      simp only [newString, Space.alloc, ha]
    exact ⟨_, _, by rw [addLine, bind_of_error hnew]⟩
  | ok p =>
    obtain ⟨r, heap⟩ := p
    have hnew : newString line s = .ok r { s with heap } := by
      simp only [newString, Space.alloc, ha]
    have hlive := (Heap.books_alloc ha).1
    rw [hs.live, hs.objects] at hlive
    obtain ⟨e, happend⟩ := append_loaded_full hs ha
      (Nat.le_trans (Nat.le_of_lt hslots) maxSlots_le_max) (by omega)
    exact ⟨_, _, by rw [addLine, bind_of_ok hnew, bind_of_error happend]⟩

/-- When a line has been added, it is there. -/
theorem addLine_loaded (hs : Loaded limits array refs lines s) {line : String}
    (hrun : addLine array line s = .ok () t) :
    ∃ r, Loaded limits array (refs ++ [r]) (lines ++ [line]) t := by
  have hslots : lines.length + 1 < Heap.maxSlots := by
    obtain ⟨r, u, hnew, _⟩ := bind_eq_ok_state hrun
    cases ha : s.heap.alloc (.string line) with
    | error e =>
      simp only [newString, Space.alloc, ha] at hnew
      cases hnew
    | ok p =>
      -- the new string has a slot of its own
      obtain ⟨r, heap⟩ := p
      have hlive := (Heap.books_alloc ha).2.2.1
      rw [(Heap.orderly_alloc hs.orderly ha).live_eq, hs.live] at hlive
      have hsize := Nat.le_trans heap.length_liveRefs_le (Heap.size_alloc ha hs.slots)
      omega
  by_cases hroom : lines.length + 2 ≤ limits.heap.maxObjects ∧
      lines.length + 1 ≤ limits.arrays.maxElements
  · obtain ⟨r, u, hok, hu⟩ := addLine_ok hs hslots hroom.1 hroom.2 line
    rw [hok] at hrun
    obtain ⟨_, rfl⟩ := EStateM.Result.ok.inj hrun
    exact ⟨r, hu⟩
  · obtain ⟨e, u, herror⟩ := addLine_error hs hslots hroom line
    rw [herror] at hrun
    cases hrun

/-! ## Adding lines -/

theorem addLines_ok (hs : Loaded limits array refs lines s) (rest : List String)
    (hslots : lines.length + rest.length < Heap.maxSlots)
    (hobjects : lines.length + rest.length + 1 ≤ limits.heap.maxObjects)
    (helements : lines.length + rest.length ≤ limits.arrays.maxElements) :
    ∃ refs' t, rest.forM (addLine array) s = .ok () t ∧
      Loaded limits array refs' (lines ++ rest) t := by
  induction rest generalizing refs lines s with
  | nil => exact ⟨refs, s, rfl, by rwa [List.append_nil]⟩
  | cons line rest ih =>
    rw [List.length_cons] at hslots hobjects helements
    obtain ⟨r, t, hline, ht⟩ := addLine_ok hs (by omega) (by omega) (by omega) line
    obtain ⟨refs', u, hrest, hu⟩ := ih ht (by simp; omega) (by simp; omega) (by simp; omega)
    refine ⟨refs', u, ?_, by rwa [List.append_cons]⟩
    rw [List.forM_eq_forM, List.forM_cons, bind_of_ok hline]
    exact hrest

theorem addLines_loaded (hs : Loaded limits array refs lines s) {rest : List String}
    (hrun : rest.forM (addLine array) s = .ok () t) :
    ∃ refs', Loaded limits array refs' (lines ++ rest) t := by
  induction rest generalizing refs lines s with
  | nil =>
    obtain ⟨_, rfl⟩ := EStateM.Result.ok.inj hrun
    exact ⟨refs, by rwa [List.append_nil]⟩
  | cons line rest ih =>
    rw [List.forM_eq_forM, List.forM_cons] at hrun
    obtain ⟨_, u, hline, hrest⟩ := bind_eq_ok_state hrun
    obtain ⟨r, hu⟩ := addLine_loaded hs hline
    obtain ⟨refs', ht⟩ := ih hu hrest
    exact ⟨refs', by rwa [List.append_cons]⟩

/-- Lines are added as long as there is room. -/
theorem addLines_error (hs : Loaded limits array refs lines s) (rest : List String)
    (hslots : lines.length + rest.length < Heap.maxSlots)
    (hobjects : lines.length + 1 ≤ limits.heap.maxObjects)
    (helements : lines.length ≤ limits.arrays.maxElements)
    (hfull : ¬ (lines.length + rest.length + 1 ≤ limits.heap.maxObjects ∧
      lines.length + rest.length ≤ limits.arrays.maxElements)) :
    ∃ e t, rest.forM (addLine array) s = .error e t := by
  induction rest generalizing refs lines s with
  | nil => exact absurd ⟨hobjects, helements⟩ hfull
  | cons line rest ih =>
    rw [List.length_cons] at hslots hfull
    rw [List.forM_eq_forM, List.forM_cons]
    by_cases hroom : lines.length + 2 ≤ limits.heap.maxObjects ∧
        lines.length + 1 ≤ limits.arrays.maxElements
    · obtain ⟨r, t, hline, ht⟩ := addLine_ok hs (by omega) hroom.1 hroom.2 line
      rw [bind_of_ok hline]
      exact ih ht (by simp; omega) (by simp; omega) (by simp; omega) (by simp; omega)
    · obtain ⟨e, t, hline⟩ := addLine_error hs (by omega) hroom line
      exact ⟨e, t, bind_of_error hline⟩

/-! ## Loading -/

theorem newArray_zero (s : Space) : newArray 0 s = Space.alloc (.array (.packed [] 0)) s :=
  rfl

/-- A new array is made and becomes a root, if there is room for an object. -/
theorem loaded_start (hobjects : 0 < limits.heap.maxObjects) :
    ∃ array s, (∀ lines, loadLines lines (.ofLimits limits) =
      (lines.forM (addLine array) >>= fun _ => pure array : SpaceM Ref) s) ∧
      Loaded limits array [] [] s := by
  have ho : ({ limits := limits.heap } : Heap Object).Orderly := (Session.kept_start _).orderly
  obtain ⟨r, heap, ha⟩ := ho.alloc hobjects (Nat.two_pow_pos 32) (.array (.packed [] 0))
  have hal := Heap.alloc_cases ha ho.tidy.free_vacant
  obtain ⟨_, hlimits, hlive, _⟩ := Heap.books_alloc ha
  have hnone : ∀ x, ({ limits := limits.heap } : Heap Object).get? x = none := by
    intro x
    simp [Heap.get?, Heap.resolve?]
  have hnew : newArray 0 (.ofLimits limits) = .ok r { ofLimits limits with heap } := by
    simp only [newArray_zero, Space.alloc, ofLimits, ha]
  refine ⟨r, { heap, roots := RootSet.addGlobal {} r, limits := limits.arrays }, ?_, ?_⟩
  · intro lines
    rw [loadLines, bind_of_ok hnew]
    rfl
  · refine ⟨Heap.orderly_alloc ho ha, ?_, hlimits, rfl, ?_, ⟨0, ?_⟩, .nil, ?_, ?_,
      Heap.size_alloc ha (Nat.zero_le _)⟩
    · intro owner
      have hchildren : ({ limits := limits.heap } : Heap Object).children owner = [] := by
        rw [Heap.children, hnone]
        rfl
      refine hal.guarded (fun howner => ?_) (by simp [hchildren])
      simp [Heap.holdsYoung, hchildren] at howner
    · simp [RootSet.toList, RootSet.addGlobal]
    · rw [hal.get?, if_pos rfl]
    · intro x hx
      rw [hal.contains, Bool.or_eq_true, beq_iff_eq, Heap.contains_iff_get?] at hx
      rcases hx with hx | ⟨o, ho⟩
      · exact Or.inl hx
      · rw [hnone] at ho
        cases ho
    · exact hlive

theorem loadLines_full (hobjects : limits.heap.maxObjects = 0) (lines : List String) :
    ∃ e s, loadLines lines (.ofLimits limits) = .error e s := by
  have hnew : newArray 0 (.ofLimits limits) =
      .error (.heap (.exhausted limits.heap.maxObjects)) (.ofLimits limits) := by
    simp [newArray_zero, Space.alloc, ofLimits, Heap.alloc, hobjects]
  exact ⟨_, _, by rw [loadLines, bind_of_error hnew]⟩

end

/-- Lines are loaded if there is room for them. -/
theorem loadLines_ok {limits : SpaceLimits} {lines : List String}
    (hslots : lines.length < Heap.maxSlots) (hobjects : lines.length + 1 ≤ limits.heap.maxObjects)
    (helements : lines.length ≤ limits.arrays.maxElements) :
    ∃ array refs s, loadLines lines (.ofLimits limits) = .ok array s ∧
      Loaded limits array refs lines s := by
  obtain ⟨array, s, hload, hs⟩ := loaded_start (by omega : 0 < limits.heap.maxObjects)
  obtain ⟨refs, t, hlines, ht⟩ := addLines_ok hs lines (by simpa using hslots)
    (by simpa using hobjects) (by simpa using helements)
  refine ⟨array, refs, t, ?_, ht⟩
  rw [hload, bind_of_ok hlines]
  rfl

/-- They are not if there is none. -/
theorem loadLines_error {limits : SpaceLimits} {lines : List String}
    (hslots : lines.length < Heap.maxSlots) (hfull : ¬ (lines.length + 1 ≤ limits.heap.maxObjects ∧
      lines.length ≤ limits.arrays.maxElements)) :
    ∃ e s, loadLines lines (.ofLimits limits) = .error e s := by
  by_cases hobjects : 0 < limits.heap.maxObjects
  · obtain ⟨array, s, hload, hs⟩ := loaded_start hobjects
    obtain ⟨e, t, hlines⟩ := addLines_error hs lines (by simpa using hslots) hobjects
      (Nat.zero_le _) (by simpa using hfull)
    exact ⟨e, t, by rw [hload, bind_of_error hlines]⟩
  · exact loadLines_full (Nat.eq_zero_of_not_pos hobjects) lines

/-- When loading has ended well, the lines are there. -/
theorem loadLines_loaded {limits : SpaceLimits} {lines : List String} {array : Ref} {s : Space}
    (hrun : loadLines lines (.ofLimits limits) = .ok array s) :
    ∃ refs, Loaded limits array refs lines s := by
  rcases Nat.eq_zero_or_pos limits.heap.maxObjects with hobjects | hobjects
  · obtain ⟨e, t, herror⟩ := loadLines_full hobjects lines
    rw [herror] at hrun
    cases hrun
  · obtain ⟨array', t, hload, ht⟩ := loaded_start hobjects
    rw [hload] at hrun
    obtain ⟨_, u, hlines, hu⟩ := bind_eq_ok_state hrun
    obtain ⟨rfl, rfl⟩ := EStateM.Result.ok.inj hu
    exact addLines_loaded ht hlines

end Managed.LineSort
