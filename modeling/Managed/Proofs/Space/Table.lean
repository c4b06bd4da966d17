import Managed.Proofs.SlotArray.Table
import Managed.Proofs.Space.Answers

/-!
# Arrays of a space as tables

Putting items in an array and removing them, whatever numbers serve as subscripts and however the array
grows on the way, keeps the table of what was put last at each tuple of subscripts, and changes nothing
else in the space (`table_of_updates`).
-/

namespace Managed

namespace Heap

variable {α : Type}

theorem resolve?_writeBarrier_of_ne (h : Heap α) {owner x : Ref} (value : Ref) (hne : x ≠ owner) :
    (h.writeBarrier owner value).resolve? x = h.resolve? x := by
  have hremember : (h.remember owner).resolve? x = h.resolve? x := by
    unfold remember
    split
    · exact (resolve?_modifyHeader h owner Header.remember x).trans (if_neg hne)
    · rfl
  unfold writeBarrier
  split
  · exact hremember
  · rfl

end Heap

/-- An update of an array in a space. -/
def Update.perform (array : Ref) : Update Ref → SpaceM Unit
  | put item subscripts => Space.store array item (.numbers subscripts)
  | remove subscripts => do
    let _ ← Space.removeAt array (.numbers subscripts)

namespace Space

variable {s t : Space} {r : Ref}

theorem sameBut_barrier (s : Space) (r x : Ref) :
    SameBut r s { s with heap := s.heap.writeBarrier r x } :=
  ⟨fun _ hy => Heap.resolve?_writeBarrier_of_ne s.heap x hy, rfl, rfl⟩

/-- An update that succeeds makes of the array what it makes of arrays, and changes nothing else. -/
theorem perform_eq_ok {x : Update Ref} (h : x.perform r s = .ok () t) :
    ∃ a b, s.array r = .ok a ∧ x.result s.limits a = .ok b ∧ t.array r = .ok b ∧ SameBut r s t := by
  cases x with
  | put item subscripts =>
    obtain ⟨_, ⟨⟩, h⟩ := ask_bind_eq_ok h
    obtain ⟨_, u, hstored, ⟨⟩⟩ := bind_eq_ok_state h
    obtain ⟨a, b, ha, hchange, rfl⟩ := changeArray_eq_ok hstored
    have hlive := array_eq_ok.mp ha
    have harray := array_setObject hlive b
    refine ⟨a, b, ha, ?_, ?_, (sameBut_setObject hlive _).trans (sameBut_barrier _ r item)⟩
    · obtain ⟨p, e, he, rfl⟩ := ArrayM.store_eq_ok hchange
      rw [Update.result, he]
      rfl
    · rw [array_eq_ok] at harray ⊢
      exact ((Heap.sameObjects_writeBarrier _ r item).get? r).trans harray
  | remove subscripts =>
    obtain ⟨found, u, hremoved, ⟨⟩⟩ := bind_eq_ok_state h
    obtain ⟨_, ⟨⟩, hremoved⟩ := ask_bind_eq_ok hremoved
    obtain ⟨a, b, ha, hchange, rfl⟩ := changeArray_eq_ok hremoved
    have hlive := array_eq_ok.mp ha
    refine ⟨a, b, ha, ?_, array_setObject hlive b, sameBut_setObject hlive _⟩
    rcases ArrayM.remove_eq_ok hchange with ⟨p, hp, _, rfl⟩ | ⟨hp, _, rfl⟩
    · rw [Update.result, hp]
      rfl
    · rw [Update.result, hp]
      rfl

/-- A new object takes the place of none. -/
theorem sameBut_alloc (ht : s.heap.Tidy) {o : Object} (h : alloc o s = .ok r t) :
    t.heap.get? r = some o ∧ SameBut r s t := by
  unfold alloc at h
  split at h
  · next x heap ha =>
    cases h
    have hal := Heap.alloc_cases ha ht.free_vacant
    refine ⟨?_, fun x hx => (hal.resolve x).trans (if_neg hx), rfl, rfl⟩
    rw [Heap.get?, hal.resolve, if_pos rfl]
    rfl
  · cases h

/-- A new array stands for the empty table, whatever its dimensions. -/
theorem reflects_new (ht : s.heap.Tidy)
    (hnew : (∃ size, newArray size s = .ok r t) ∨ ∃ sizes, newShapedArray sizes s = .ok r t) :
    ∃ a, t.array r = .ok a ∧ a.Reflects s.limits.maxElements [] ∧ SameBut r s t := by
  obtain ⟨sizes, a, ha, halloc⟩ : ∃ sizes a,
      SlotArray.ofDimensions sizes s.limits = .ok a ∧ alloc (.array a) s = .ok r t := by
    rcases hnew with ⟨size, h⟩ | ⟨sizes, h⟩
    · exact ⟨[size], ask_bind_eq_ok h⟩
    · exact ⟨sizes, ask_bind_eq_ok h⟩
  obtain ⟨hget, hsame⟩ := sameBut_alloc ht halloc
  obtain ⟨size, shape, rfl, hle, hshaped⟩ := SlotArray.ofDimensions_eq_ok ha
  exact ⟨_, array_eq_ok.mpr hget, SlotArray.reflects_replicate hshaped hle, hsame⟩

/-- Updates that succeed one after the other. -/
theorem reflects_run {updates done : List (Update Ref)} {bound : Nat} (hbound : bound < Word.max)
    {s : Space} (hmax : s.limits.maxElements ≤ bound) {a : SlotArray Ref} (ha : s.array r = .ok a)
    (hreflects : a.Reflects bound done) (hrun : updates.forM (·.perform r) s = .ok () t) :
    ∃ b, t.array r = .ok b ∧ b.Reflects bound (done ++ updates) ∧ SameBut r s t := by
  induction updates generalizing s a done with
  | nil =>
    cases hrun
    rw [List.append_nil]
    exact ⟨a, ha, hreflects, .refl r _⟩
  | cons x rest ih =>
    obtain ⟨_, u, hx, hrest⟩ := bind_eq_ok_state hrun
    obtain ⟨a', b, ha', hb, hu, hsame⟩ := perform_eq_ok hx
    obtain rfl : a = a' := Except.ok.inj (ha.symm.trans ha')
    have hstep := SlotArray.reflects_result hreflects hbound hmax hb
    obtain ⟨c, hc, hreflects', hsame'⟩ := ih (by rwa [hsame.limits]) hu hstep hrest
    rw [List.append_assoc] at hreflects'
    exact ⟨c, hc, hreflects', hsame.trans hsame'⟩

/-- An array stands for the table of what was put in it. Of a new array of any dimensions, after any
number of puts and removals at numeric subscripts that succeed, reading at as many positive subscripts
as there are dimensions then gives what was put there last, unless it was removed since. Subscripts
used when there were fewer dimensions are continued with ones in front. The array counts the tuples of
subscripts that have something, and no other object of the space has changed. -/
theorem table_of_updates {hl : HeapLimits} {actions : List (Action Object)} {s₁ s₂ : Space}
    {updates : List (Update Ref)} (hheap : s.heap = ((Session.start hl).run actions).heap)
    (hmax : s.limits.maxElements < Word.max)
    (hnew : (∃ size, newArray size s = .ok r s₁) ∨ ∃ sizes, newShapedArray sizes s = .ok r s₁)
    (hrun : updates.forM (·.perform r) s₁ = .ok () s₂) :
    ∃ a, s₂.array r = .ok a ∧
      (∀ u, u.length = a.dimensionCount → (∀ x ∈ u, 1 ≤ x) →
        s₂.itemAt r (.numbers (Subscript.ofTuple u)) =
          .ok (Update.latest a.dimensionCount updates u)) ∧
      (∃ tuples : List (List Nat), tuples.Nodup ∧
        (∀ u, u ∈ tuples ↔ (Update.latest a.dimensionCount updates u).isSome = true) ∧
        (∀ u ∈ tuples, u.length = a.dimensionCount ∧ ∀ x ∈ u, 1 ≤ x) ∧
        a.items = tuples.length) ∧
      (∀ x, x ≠ r → s₂.heap.resolve? x = s.heap.resolve? x) ∧
      s₂.roots = s.roots ∧ s₂.limits = s.limits := by
  have htidy : s.heap.Tidy := by
    rw [hheap]
    exact Session.tidy_run (Session.sound_start hl).tidy actions
  obtain ⟨a₁, ha₁, hreflects₁, hsame₁⟩ := reflects_new htidy hnew
  obtain ⟨a, ha, hreflects, hsame₂⟩ :=
    reflects_run hmax (Nat.le_of_eq (by rw [hsame₁.limits])) ha₁ hreflects₁ hrun
  rw [List.nil_append] at hreflects
  have hsame := hsame₁.trans hsame₂
  refine ⟨a, ha, fun u hlen hpos => ?_, ?_, hsame.others, hsame.roots, hsame.limits⟩
  · obtain ⟨found, hfound, hread⟩ :=
      SlotArray.read_of_tabled hreflects.valid hmax hreflects.tabled hlen hpos
    simp only [itemAt, resolveIndex, ha, hfound, hread, bind, Except.bind, pure, Except.pure]
  · obtain ⟨tuples, hnodup, hmem, hitems⟩ :=
      SlotArray.items_of_tabled hreflects.valid hmax hreflects.tabled
    refine ⟨tuples, hnodup, hmem, fun u hu => ?_, hitems⟩
    have hw := hreflects.tabled.outside u (Option.isSome_iff_ne_none.mp ((hmem u).mp hu))
    exact ⟨SlotArray.length_of_within hw, hw.pos⟩

/-- An item put at `2` in a list is at `1, 2` when a second dimension has been added in front. -/
theorem table_of_updates_new_dimension :
    let updates : List (Update Ref) :=
      [.put ⟨7, 0⟩ [some 2], .put ⟨8, 0⟩ [some 2, some 3], .put ⟨9, 0⟩ [some 1, some 1],
        .remove [some 1, some 1]]
    ∃ s₁ s₂ : Space, newArray 2 {} = .ok ⟨0, 0⟩ s₁ ∧
      updates.forM (·.perform ⟨0, 0⟩) s₁ = .ok () s₂ ∧
      s₂.itemAt ⟨0, 0⟩ (.numbers [some 1, some 2]) = .ok (some ⟨7, 0⟩) ∧
      s₂.itemAt ⟨0, 0⟩ (.numbers [some 2, some 3]) = .ok (some ⟨8, 0⟩) ∧
      s₂.itemAt ⟨0, 0⟩ (.numbers [some 1, some 1]) = .ok none := by
  intro updates
  refine ⟨_, _, rfl, rfl, ?_⟩
  have hheap : ({} : Space).heap = ((Session.start {}).run []).heap := rfl
  obtain ⟨a, ha, hread, _⟩ :=
    table_of_updates (r := ⟨0, 0⟩) hheap (by decide) (.inl ⟨2, rfl⟩)
      (rfl : updates.forM (·.perform ⟨0, 0⟩) _ = .ok () _)
  have hrank : a.dimensionCount = 2 := by
    cases ha
    rfl
  rw [hrank] at hread
  exact ⟨hread [1, 2] rfl (by decide), hread [2, 3] rfl (by decide), hread [1, 1] rfl (by decide)⟩

end Space

end Managed
