import Managed.Proofs.Heap.Marking

/-!
# The remembered set

An object carries a bit that says whether it is in the remembered set. The bit and the set agree
(`Recorded`): every operation that remembers or forgets keeps it so. Remembering changes no object,
and after it the object is in the set whether or not it was there before.
-/

namespace Managed.Heap

variable {α : Type}

/-- Whether `r` names an object whose header says that it is remembered. -/
def remembers (h : Heap α) (r : Ref) : Bool :=
  (h.resolve? r).any (·.header.remembered)

/-- The remembered set holds exactly the objects whose headers say so. -/
def Recorded (h : Heap α) : Prop :=
  ∀ x, h.remembers x = true ↔ x ∈ h.remembered.refs

theorem hasMark_modifyHeader (h : Heap α) (r : Ref) {f : Header → Header}
    (hf : ∀ k, (f k).marked = k.marked) (x : Ref) :
    (h.modifyHeader r f).hasMark x = h.hasMark x := by
  simp only [hasMark, resolve?_modifyHeader]
  split
  · next hx =>
    subst hx
    cases h.resolve? x <;> simp [hf]
  · rfl

/-! ## Remembering -/

theorem sameObjects_remember (h : Heap α) (owner : Ref) : SameObjects h (h.remember owner) := by
  unfold remember
  split
  · have hs := sameObjects_modifyHeader h owner (f := Header.remember) fun _ => rfl
    exact ⟨hs.limits, hs.free, hs.serial, hs.face⟩
  · exact .refl h

theorem hasMark_remember (h : Heap α) (owner x : Ref) :
    (h.remember owner).hasMark x = h.hasMark x := by
  unfold remember
  split
  · exact hasMark_modifyHeader h owner (f := Header.remember) (fun _ => rfl) x
  · rfl

theorem remembers_remember (h : Heap α) (owner x : Ref) :
    (h.remember owner).remembers x = (h.remembers x || (x == owner && h.contains owner)) := by
  unfold remember
  split
  · next hnot =>
    have hmod : ({ h.modifyHeader owner Header.remember with
        remembered := h.remembered.record owner } : Heap α).remembers x =
        (h.modifyHeader owner Header.remember).remembers x := rfl
    rw [hmod, remembers, resolve?_modifyHeader]
    split
    · next hx =>
      subst hx
      cases hr : h.resolve? x <;> simp [remembers, contains, hr, Header.remember]
    · next hx => simp [remembers, hx]
  · next hnot =>
    by_cases hx : x = owner
    · subst hx
      cases hr : h.resolve? x with
      | none => simp [remembers, contains, hr]
      | some e =>
        simp only [hr, Option.any_some, Bool.not_eq_true'] at hnot
        simp [remembers, contains, hr, hnot]
    · simp [hx]

theorem mem_remember_refs {h : Heap α} (hr : h.Recorded) (owner x : Ref) :
    x ∈ (h.remember owner).remembered.refs ↔
      x ∈ h.remembered.refs ∨ x = owner ∧ h.contains owner = true := by
  unfold remember
  split
  · next hnot =>
    have hlive : h.contains owner = true := by
      cases ho : h.resolve? owner with
      | none => simp [ho] at hnot
      | some e => simp [contains, ho]
    simp [RememberedSet.record, hlive]
  · next hnot =>
    constructor
    · exact Or.inl
    · rintro (hx | ⟨rfl, hlive⟩)
      · exact hx
      · obtain ⟨e, he⟩ := contains_iff.mp hlive
        simp only [he, Option.any_some, Bool.not_eq_true'] at hnot
        exact (hr x).mp (by simpa [remembers, he] using hnot)

theorem recorded_remember {h : Heap α} (hr : h.Recorded) (owner : Ref) :
    (h.remember owner).Recorded := by
  intro x
  rw [remembers_remember, mem_remember_refs hr, ← hr x]
  simp

/-! ## The barrier and the holders -/

theorem sameObjects_writeBarrier (h : Heap α) (owner value : Ref) :
    SameObjects h (h.writeBarrier owner value) := by
  unfold writeBarrier
  split
  · exact sameObjects_remember h owner
  · exact .refl h

theorem hasMark_writeBarrier (h : Heap α) (owner value x : Ref) :
    (h.writeBarrier owner value).hasMark x = h.hasMark x := by
  unfold writeBarrier
  split
  · exact hasMark_remember h owner x
  · rfl

theorem recorded_writeBarrier {h : Heap α} (hr : h.Recorded) (owner value : Ref) :
    (h.writeBarrier owner value).Recorded := by
  unfold writeBarrier
  split
  · exact recorded_remember hr owner
  · exact hr

theorem subset_writeBarrier_refs {h : Heap α} (hr : h.Recorded) (owner value : Ref) {x : Ref}
    (hx : x ∈ h.remembered.refs) : x ∈ (h.writeBarrier owner value).remembered.refs := by
  unfold writeBarrier
  split
  · exact (mem_remember_refs hr owner x).mpr (Or.inl hx)
  · exact hx

theorem mem_writeBarrier_refs {h : Heap α} (hr : h.Recorded) {owner value : Ref}
    (ho : h.needsBarrier owner = true) (hv : h.isYoung value = true) :
    owner ∈ (h.writeBarrier owner value).remembered.refs := by
  obtain ⟨e, he, _⟩ := needsBarrier_iff.mp ho
  rw [writeBarrier, if_pos (by simp [ho, hv])]
  exact (mem_remember_refs hr owner owner).mpr (Or.inr ⟨rfl, contains_iff.mpr ⟨e, he⟩⟩)

/-- What a list of barrier calls does for one owner. -/
theorem foldl_writeBarrier {h : Heap α} (hr : h.Recorded) (owner : Ref) (stored : List Ref) :
    let h' := stored.foldl (fun h x => h.writeBarrier owner x) h
    SameObjects h h' ∧ h'.Recorded ∧ (∀ x, h'.hasMark x = h.hasMark x) ∧
      (∀ x ∈ h.remembered.refs, x ∈ h'.remembered.refs) ∧
      (h.needsBarrier owner = true → (∃ x ∈ stored, h.isYoung x = true) →
        owner ∈ h'.remembered.refs) := by
  induction stored generalizing h with
  | nil => exact ⟨.refl h, hr, fun _ => rfl, fun _ hx => hx, by simp⟩
  | cons v rest ih =>
    have hs := sameObjects_writeBarrier h owner v
    obtain ⟨hsame, hrec, hmark, hsub, hown⟩ := ih (recorded_writeBarrier hr owner v)
    refine ⟨hs.trans hsame, hrec, fun x => ?_, fun x hx => ?_, fun ho hy => ?_⟩
    · exact (hmark x).trans (hasMark_writeBarrier h owner v x)
    · exact hsub x (subset_writeBarrier_refs hr owner v hx)
    · obtain ⟨x, hx, hyoung⟩ := hy
      rcases List.mem_cons.mp hx with rfl | hx
      · exact hsub owner (mem_writeBarrier_refs hr ho hyoung)
      · exact hown (by rwa [hs.needsBarrier]) ⟨x, hx, by rwa [hs.isYoung]⟩

section

variable [Traced α]

/-- Whether `r` names an old object that holds a young one. -/
def holdsYoung (h : Heap α) (r : Ref) : Bool :=
  h.needsBarrier r && (h.children r).any h.isYoung

theorem SameObjects.holdsYoung {h h' : Heap α} (hs : SameObjects h h') (x : Ref) :
    h'.holdsYoung x = h.holdsYoung x := by
  have hy : h'.isYoung = h.isYoung := funext hs.isYoung
  rw [Heap.holdsYoung, Heap.holdsYoung, hs.needsBarrier, hs.children, hy]

theorem holdsYoung_iff {h : Heap α} {r : Ref} :
    h.holdsYoung r = true ↔
      h.needsBarrier r = true ∧ ∃ x ∈ h.children r, h.isYoung x = true := by
  simp [holdsYoung]

theorem contains_of_holdsYoung {h : Heap α} {r : Ref} (hr : h.holdsYoung r = true) :
    h.contains r = true := by
  obtain ⟨e, he, _⟩ := needsBarrier_iff.mp (holdsYoung_iff.mp hr).1
  exact contains_iff.mpr ⟨e, he⟩

theorem rememberHolder_eq (h : Heap α) (owner : Ref) :
    h.rememberHolder owner = if h.holdsYoung owner then h.remember owner else h := rfl

theorem sameObjects_rememberHolder (h : Heap α) (owner : Ref) :
    SameObjects h (h.rememberHolder owner) := by
  rw [rememberHolder_eq]
  split
  · exact sameObjects_remember h owner
  · exact .refl h

/-- Going through a list of owners remembers those that are old and hold a young object. -/
theorem rememberHolders_spec {h : Heap α} (hr : h.Recorded) (owners : List Ref) :
    SameObjects h (h.rememberHolders owners) ∧ (h.rememberHolders owners).Recorded ∧
      (∀ x, (h.rememberHolders owners).hasMark x = h.hasMark x) ∧
      (∀ x, x ∈ (h.rememberHolders owners).remembered.refs ↔
        x ∈ h.remembered.refs ∨ x ∈ owners ∧ h.holdsYoung x = true) := by
  unfold rememberHolders
  induction owners generalizing h with
  | nil => exact ⟨.refl h, hr, fun _ => rfl, by simp⟩
  | cons o rest ih =>
    have hs := sameObjects_rememberHolder h o
    have hrec : (h.rememberHolder o).Recorded := by
      rw [rememberHolder_eq]
      split
      · exact recorded_remember hr o
      · exact hr
    have hmark : ∀ x, (h.rememberHolder o).hasMark x = h.hasMark x := by
      intro x
      rw [rememberHolder_eq]
      split
      · exact hasMark_remember h o x
      · rfl
    have hmem : ∀ x, x ∈ (h.rememberHolder o).remembered.refs ↔
        x ∈ h.remembered.refs ∨ x = o ∧ h.holdsYoung o = true := by
      intro x
      rw [rememberHolder_eq]
      split
      · next hy => simp [mem_remember_refs hr, hy, contains_of_holdsYoung hy]
      · next hy => simp [hy]
    obtain ⟨hsame, hrec', hmark', hmem'⟩ := ih hrec
    refine ⟨hs.trans hsame, hrec', fun x => (hmark' x).trans (hmark x), fun x => ?_⟩
    rw [List.foldl_cons, hmem', hmem, hs.holdsYoung, List.mem_cons]
    constructor
    · rintro ((hx | ⟨rfl, hy⟩) | ⟨hx, hy⟩)
      · exact Or.inl hx
      · exact Or.inr ⟨Or.inl rfl, hy⟩
      · exact Or.inr ⟨Or.inr hx, hy⟩
    · rintro (hx | ⟨rfl | hx, hy⟩)
      · exact Or.inl (Or.inl hx)
      · exact Or.inl (Or.inr ⟨rfl, hy⟩)
      · exact Or.inr ⟨hx, hy⟩

end

/-! ## Forgetting -/

theorem foldl_forget (h : Heap α) (owners : List Ref) :
    let h' := owners.foldl (fun h owner => h.modifyHeader owner Header.forget) h
    SameObjects h h' ∧ h'.remembered = h.remembered ∧ (∀ x, h'.hasMark x = h.hasMark x) ∧
      ∀ x, h'.remembers x = (h.remembers x && !(owners.contains x)) := by
  induction owners generalizing h with
  | nil => exact ⟨.refl h, rfl, fun _ => rfl, by simp⟩
  | cons o rest ih =>
    have hs := sameObjects_modifyHeader h o (f := Header.forget) fun _ => rfl
    obtain ⟨hsame, hrem, hmark, hbit⟩ := ih (h.modifyHeader o Header.forget)
    refine ⟨hs.trans hsame, hrem, fun x => ?_, fun x => ?_⟩
    · exact (hmark x).trans (hasMark_modifyHeader h o (f := Header.forget) (fun _ => rfl) x)
    · refine (hbit x).trans ?_
      simp only [remembers, resolve?_modifyHeader, List.contains_cons]
      split
      · next hx =>
        subst hx
        cases h.resolve? x <;> simp [Header.forget]
      · next hx => rw [beq_false_of_ne hx, Bool.false_or]

/-- After all owners are forgotten the set is empty and no header says otherwise. -/
theorem forgetAll_spec {h : Heap α} (hr : h.Recorded) :
    SameObjects h h.forgetAll ∧ h.forgetAll.remembered.refs = #[] ∧
      (∀ x, h.forgetAll.hasMark x = h.hasMark x) ∧ ∀ x, h.forgetAll.remembers x = false := by
  unfold forgetAll
  rw [← Array.foldl_toList]
  obtain ⟨hsame, hrem, hmark, hbit⟩ :=
    foldl_forget { h with remembered := h.remembered.taken } h.remembered.refs.toList
  refine ⟨⟨hsame.limits, hsame.free, hsame.serial, hsame.face⟩, ?_, hmark, fun x => ?_⟩
  · rw [hrem]
    rfl
  · rw [hbit x, Bool.and_eq_false_iff, Bool.not_eq_false', List.contains_iff_mem, Array.mem_toList_iff]
    cases hx : h.remembers x with
    | true => exact Or.inr ((hr x).mp hx)
    | false => exact Or.inl hx

end Managed.Heap
