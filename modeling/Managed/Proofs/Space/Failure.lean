import Managed.Proofs.Space.Effect

/-!
# Operations that fail

An operation that fails may have made objects before it did, and `appendAll` may have made room for
items that are then refused. A program sees neither (`failure_unseen`): the roots and all earlier
objects are as they were, and the new objects are held by nothing but each other, so the next minor
collection frees them. What a program does see is an append of all items that stops half-way
(`failure_seen_halfway`).
-/

namespace Managed

/-! ## New objects -/

namespace Heap

variable {α : Type} {h h' : Heap α} {issued : List Ref} {freed : Nat → Nat}

/-- The heap `h'` has the entries of `h` and beside them young objects with handles not in the
list. -/
structure Extended (issued : List Ref) (h h' : Heap α) : Prop where
  kept : ∀ x e, h.resolve? x = some e → h'.resolve? x = some e
  fresh : ∀ x, h'.contains x = true →
    h.contains x = true ∨ x ∉ issued ∧ h'.isYoung x = true
  remembered : h'.remembered = h.remembered

theorem extended_refl (issued : List Ref) (h : Heap α) : Extended issued h h :=
  ⟨fun _ _ he => he, fun _ hx => Or.inl hx, rfl⟩

theorem Extended.get? (hx : Extended issued h h') {x : Ref} {v : α} (hv : h.get? x = some v) :
    h'.get? x = some v := by
  obtain ⟨e, he, rfl⟩ := Option.map_eq_some_iff.mp hv
  rw [Heap.get?, hx.kept x e he]
  rfl

theorem Extended.children [Traced α] (hx : Extended issued h h') {x : Ref}
    (hlive : h.contains x = true) : h'.children x = h.children x := by
  obtain ⟨v, hv⟩ := contains_iff_get?.mp hlive
  rw [Heap.children, Heap.children, hx.get? hv, hv]

/-- One more object in front of an extension. -/
theorem Allocated.extended {v : α} {r : Ref} {h₁ : Heap α} (ha : Allocated h v r h₁)
    (hr : r ∉ issued) (hx : Extended (issued ++ [r]) h₁ h') : Extended issued h h' := by
  refine ⟨fun x e he => hx.kept x e (ha.resolve_of_resolve he), fun x hlive => ?_,
    hx.remembered.trans ha.remembered⟩
  rcases hx.fresh x hlive with hc | ⟨hnot, hyoung⟩
  · rw [ha.contains, Bool.or_eq_true, beq_iff_eq] at hc
    rcases hc with rfl | hc
    · have hnew : h₁.resolve? x = some { value := v } := by rw [ha.resolve, if_pos rfl]
      exact Or.inr ⟨hr, isYoung_iff.mpr ⟨_, hx.kept x _ hnew, rfl⟩⟩
    · exact Or.inl hc
  · exact Or.inr ⟨fun hmem => hnot (List.mem_append_left _ hmem), hyoung⟩

section

variable [Traced α] (hx : Extended issued h h') (hclosed : ∀ r, ∀ x ∈ h.children r, x ∈ issued)
include hx hclosed

/-- From handles that were given out before, no new object can be reached. -/
theorem Extended.contains_of_reaches {start : List Ref} (hstart : ∀ x ∈ start, x ∈ issued) {x : Ref}
    (hreach : h'.Reaches start x) : h.contains x = true := by
  induction hreach with
  | root hr hc =>
    rcases hx.fresh _ hc with hlive | ⟨hnot, _⟩
    · exact hlive
    · exact absurd (hstart _ hr) hnot
  | held _ hheld hc ih =>
    rw [hx.children ih] at hheld
    rcases hx.fresh _ hc with hlive | ⟨hnot, _⟩
    · exact hlive
    · exact absurd (hclosed _ _ hheld) hnot

/-- A minor collection frees the new objects: no remembered object holds one. -/
theorem Extended.minorCollect_frees (ht : h.Tidy) (ht' : h'.Tidy) {roots : RootSet}
    (hroots : ∀ x ∈ roots.toList, x ∈ issued) {x : Ref} (hlive : h'.contains x = true)
    (hnew : h.contains x = false) : (h'.minorCollect roots).2.contains x = false := by
  have hyoung : h'.isYoung x = true := by
    rcases hx.fresh x hlive with hc | ⟨_, hyoung⟩
    · rw [hnew] at hc
      cases hc
    · exact hyoung
  have hstart : ∀ y ∈ h'.startOf .minor roots, y ∈ issued := by
    intro y hy
    rcases List.mem_append.mp hy with hy | hy
    · exact hroots y hy
    · obtain ⟨owner, hmem, hy⟩ := List.mem_flatMap.mp hy
      rw [hx.remembered] at hmem
      have howner : h.contains owner = true := by
        have hbit := (ht.recorded owner).mpr (Array.mem_toList_iff.mp hmem)
        obtain ⟨e, he, _⟩ := (Option.any_eq_true _ _).mp hbit
        exact contains_iff.mpr ⟨e, he⟩
      rw [hx.children howner] at hy
      exact hclosed owner y hy
  change (h'.collect .minor roots).contains x = false
  rw [contains_collect ht', Bool.and_eq_false_iff, Bool.eq_false_iff (b := h'.spares _ _ _)]
  right
  intro hspared
  have hmark := (spares_iff ht' .minor roots).mp hspared hyoung
  have hold := hx.contains_of_reaches hclosed hstart (reaches_of_hasMark_walked ht' .minor roots hmark)
  rw [hnew] at hold
  cases hold

end

end Heap

/-- What a program can see of an object: not the storage of an array beyond its size. -/
def Object.visible : Object → Object
  | .array a => .array a.trimmed
  | o => o

namespace Space

variable {s t : Space} {op : Operation}

theorem extended_of_makes (hm : Makes s t) {issued : List Ref} {freed : Nat → Nat}
    (ht : s.heap.Tidy) (hn : s.heap.Numbered issued freed) (hf : ∀ i, freed i < 2 ^ 32) :
    s.heap.Extended issued t.heap := by
  induction hm generalizing issued with
  | refl s => exact Heap.extended_refl issued s.heap
  | alloc _ ha _ ih =>
    have hal := Heap.alloc_cases ha ht.free_vacant
    exact hal.extended (hal.fresh hn (hf _)) (ih (hal.tidy ht) (hal.numbered hn (hf _)))

/-- An operation that fails has made objects, or has changed what is not seen of one array. -/
theorem effect_of_failure {brought : Nat} (he : Effect s op true t) (hfit : s.Fit brought)
    (hcmp : ¬op.Compares s) (hwhole : ¬op.StopsHalfway s) :
    Makes s t ∨ ∃ r old new handles, s.heap.get? r = some old ∧
      t = s.stored r new handles ∧ new.visible = old.visible := by
  cases he with
  | made hm => exact Or.inl hm
  | altered hr ha =>
    cases ha with
    | array _ hseen =>
      refine Or.inr ⟨_, _, _, _, hr, rfl, ?_⟩
      have hfits : SlotArray.Fits _ _ := hfit _ _ hr
      rcases hseen hfits.padded hfits.shaped rfl with hop | hop | hseen
      · exact absurd hop hcmp
      · exact absurd hop hwhole
      · exact congrArg Object.array hseen

end Space

namespace Track

variable {t : Track}

/-- Every root was given out by the space. -/
theorem roots_issued_run {brought : Nat} {ops : List Operation} (hl : t.Lawful brought ops)
    (hroots : ∀ x ∈ t.space.roots.toList, x ∈ t.issued) :
    ∀ x ∈ (t.run ops).space.roots.toList, x ∈ (t.run ops).issued := by
  induction ops generalizing t with
  | nil => exact hroots
  | cons op rest ih =>
    obtain ⟨hrefs, _, hrest⟩ := hl
    refine ih hrest fun x hx => List.mem_append_left _ ?_
    rcases Space.roots_effect (Space.effect_run op t.space) hx with hx | hx
    · exact hroots x hx
    · exact hrefs x hx

/-- An operation that fails changes nothing that a program can see, unless it is a sort that its
comparator stops or an append of all items that stops half-way: the roots are as they were, and so are
all objects apart from spare storage of an array. What it has made before it failed has new handles,
cannot be reached from the roots or from an earlier object, and is freed by a minor collection. The run
before it, whatever in it has failed or stopped half-way, uses handles of its space only, no slot is
freed `2 ^ 32` times, and no array takes up all words. -/
theorem failure_unseen (limits : SpaceLimits) (ops : List Operation)
    (hlaw : (start limits).Lawful Word.max ops)
    (hfreed : ∀ i, ((start limits).run ops).freed i < 2 ^ 32)
    (hroom : ∀ n r a, ((start limits).run (ops.take n)).space.array r = .ok a →
      a.capacity < Word.max) (op : Operation) :
    let t := (start limits).run ops
    ∀ e u, op.run t.space = .error e u → ¬op.Compares t.space → ¬op.StopsHalfway t.space →
      u.roots = t.space.roots ∧
      (∀ x o, t.space.heap.get? x = some o →
        (u.heap.get? x).map Object.visible = some o.visible) ∧
      ∀ x, u.heap.contains x = true → t.space.heap.contains x = false →
        x ∉ t.issued ∧ ¬u.heap.Reaches (u.roots.toList ++ t.space.heap.liveRefs) x ∧
          (u.heap.minorCollect u.roots).2.contains x = false := by
  intro t e u hfail hcmp hwhole
  have hs : t.Consistent Word.max := by
    have hrun := consistent_run hlaw hfreed hroom ops.length (sound_start _ limits).toConsistent
    rwa [List.take_length] at hrun
  have ht : t.space.heap.Tidy := hs.grounded.tidy
  have heffect : Space.Effect t.space op true u := by
    have heffect := Space.effect_run op t.space
    rwa [hfail] at heffect
  rcases Space.effect_of_failure heffect hs.fit hcmp hwhole with
    hm | ⟨r, old, new, handles, hr, rfl, hseen⟩
  · have hext := Space.extended_of_makes hm ht hs.session.numbered hfreed
    have hroots : ∀ x ∈ u.roots.toList, x ∈ t.issued := by
      rw [hm.roots]
      exact roots_issued_run hlaw nofun
    refine ⟨hm.roots, fun x o ho => ?_, fun x hlive hnew => ⟨?_, fun hreach => ?_, ?_⟩⟩
    · rw [hext.get? ho]
      rfl
    · rcases hext.fresh x hlive with hc | ⟨hfresh, _⟩
      · rw [hnew] at hc
        cases hc
      · exact hfresh
    · have hold := hext.contains_of_reaches hs.session.closed (fun y hy => ?_) hreach
      · rw [hnew] at hold
        cases hold
      · rcases List.mem_append.mp hy with hy | hy
        · exact hroots y hy
        · exact hs.session.numbered.live y (Heap.mem_liveRefs.mp hy)
    · exact hext.minorCollect_frees hs.session.closed ht (Space.tidy_makes hm ht) hroots hlive hnew
  · have hget := Space.get?_stored ht hr new handles
    refine ⟨rfl, fun x o ho => ?_, fun x hlive hnew => ?_⟩
    · rw [hget]
      split
      · next hx =>
        subst hx
        rw [hr] at ho
        cases ho
        exact congrArg some hseen
      · rw [ho]
        rfl
    · -- nothing was made
      rw [Space.contains_stored ht, hnew] at hlive
      cases hlive

/-- The heap has room for the first of two index strings. The list of indexes fails when the second is
made, and a minor collection takes the first away. -/
theorem failure_unseen_exhausted :
    let limits : SpaceLimits := { heap := { maxObjects := 4 } }
    let a : Ref := ⟨2, 0⟩
    let ops : List Operation := [.arrayOfStrings ["a", "b"], .root a]
    let t := (start limits).run ops
    (start limits).Lawful Word.max ops ∧ (∀ i, t.freed i < 2 ^ 32) ∧
      (∀ n r c, ((start limits).run (ops.take n)).space.array r = .ok c → c.capacity < Word.max) ∧
      ∃ e u, (Operation.allIndexes a).run t.space = .error e u ∧
        ¬(Operation.allIndexes a).Compares t.space ∧ ¬(Operation.allIndexes a).StopsHalfway t.space ∧
        u.heap.contains ⟨3, 0⟩ = true ∧
        (u.heap.minorCollect u.roots).2.contains ⟨3, 0⟩ = false := by
  intro limits a ops t
  have hlaw : (start limits).Lawful Word.max ops :=
    ⟨by decide, trivial, by decide +kernel, trivial, trivial⟩
  have hfreed : ∀ i, t.freed i < 2 ^ 32 := by
    intro i
    have hle : t.freed i ≤ 0 + 2 := freed_run_le _ ops i
    omega
  have hroom : ∀ n r c, ((start limits).run (ops.take n)).space.array r = .ok c →
      c.capacity < Word.max :=
    capacity_of_prefixes (fun ops => ((start limits).run ops).space) (by decide +kernel)
  have hcmp : ¬(Operation.allIndexes a).Compares t.space := id
  have hwhole : ¬(Operation.allIndexes a).StopsHalfway t.space := id
  have hfails : Space.failed ((Operation.allIndexes a).run t.space) = true := by decide +kernel
  have hmade : (Space.left ((Operation.allIndexes a).run t.space)).heap.contains ⟨3, 0⟩ = true := by
    decide +kernel
  cases hrun : (Operation.allIndexes a).run t.space with
  | ok _ _ =>
    rw [hrun] at hfails
    cases hfails
  | error e u =>
    rw [hrun] at hmade
    obtain ⟨_, _, hnew⟩ := failure_unseen limits ops hlaw hfreed hroom _ e u hrun hcmp hwhole
    obtain ⟨_, _, hgone⟩ := hnew ⟨3, 0⟩ hmade (by decide +kernel)
    exact ⟨hlaw, hfreed, hroom, e, u, rfl, hcmp, hwhole, hmade, hgone⟩

/-- The array has storage for two more items, but the limits allow for one. Appending all items of the
other array fails, and the array has one item more than before. -/
theorem failure_seen_halfway :
    let limits : SpaceLimits := { arrays := { maxElements := 2 } }
    let a : Ref := ⟨0, 0⟩
    let ops : List Operation := [.alloc (.array spacious), .newString "a", .append a ⟨1, 0⟩,
      .arrayOf [some ⟨1, 0⟩, some ⟨1, 0⟩]]
    let t := (start limits).run ops
    let result := (Operation.appendAll a ⟨2, 0⟩).run t.space
    (start limits).Lawful Word.max ops ∧ Space.failed result = true ∧
      ¬(Operation.appendAll a ⟨2, 0⟩).Compares t.space ∧
      (t.space.array a).toOption.map SlotArray.items = some 1 ∧
      ((Space.left result).array a).toOption.map SlotArray.items = some 2 := by
  intro limits a ops t result
  have hlaw : (start limits).Lawful Word.max ops :=
    ⟨by decide, fits_spacious, by decide, trivial, by decide +kernel, trivial, by decide +kernel,
      trivial, trivial⟩
  exact ⟨hlaw, by decide +kernel, id, by decide +kernel, by decide +kernel⟩

end Track

end Managed
