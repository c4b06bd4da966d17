import Managed.Proofs.Heap.Lookup

/-!
# What marking reaches

The walk of a collection changes marks and nothing else (`SameObjects`). When it is done, every
handle it started from is marked if the collection covers its object, and so is everything that a
newly marked object holds: the new marks are closed under holding (`Marking.closed`).
-/

namespace Managed

/-- An entry with its mark set or taken away. -/
def Entry.stamp {α : Type} (e : Entry α) (b : Bool) : Entry α :=
  { e with header := { e.header with marked := b } }

namespace Heap

variable {α : Type}

/-- Whether `r` names an object that bears a mark. -/
def hasMark (h : Heap α) (r : Ref) : Bool :=
  (h.resolve? r).any (·.header.marked)

/-- Whether `r` names an object of a generation that the collection looks at. -/
def covered (kind : CollectionKind) (h : Heap α) (r : Ref) : Bool :=
  (h.resolve? r).any fun e => kind.covers e.header.generation

theorem SameObjects.covered {h h' : Heap α} (hs : SameObjects h h') (kind : CollectionKind)
    (x : Ref) : h'.covered kind x = h.covered kind x := by
  have hf := congrArg (Option.any fun f => kind.covers f.1) (hs.face x)
  rw [Option.any_map, Option.any_map] at hf
  exact hf

theorem covered_major (h : Heap α) (x : Ref) : h.covered .major x = h.contains x := by
  cases hx : h.resolve? x <;> simp [covered, contains, hx, CollectionKind.covers]

theorem contains_of_covered {kind : CollectionKind} {h : Heap α} {x : Ref}
    (hx : h.covered kind x = true) : h.contains x = true := by
  obtain ⟨e, he, _⟩ := (Option.any_eq_true _ _).mp hx
  exact contains_iff.mpr ⟨e, he⟩

theorem sameObjects_mark (h : Heap α) (r : Ref) : SameObjects h (h.mark r) :=
  sameObjects_modifyHeader h r fun _ => rfl

theorem hasMark_mark (h : Heap α) (r x : Ref) :
    (h.mark r).hasMark x = (h.hasMark x || (x == r && h.contains r)) := by
  simp only [hasMark, mark, resolve?_modifyHeader]
  split
  · next hx =>
    subst hx
    cases hr : h.resolve? x <;> simp [Header.mark, contains, hr]
  · next hx => simp [hx]

theorem markable?_eq_some {kind : CollectionKind} {h : Heap α} {r : Ref} {e : Entry α} :
    h.markable? kind r = some e ↔
      h.resolve? r = some e ∧ h.covered kind r = true ∧ h.hasMark r = false := by
  simp only [markable?, Option.filter_eq_some_iff]
  constructor
  · rintro ⟨he, hk⟩
    simpa [covered, hasMark, he] using hk
  · rintro ⟨he, hk, hm⟩
    simp only [covered, hasMark, he, Option.any_some] at hk hm
    exact ⟨he, by simp [hk, hm]⟩

theorem hasMark_of_markable?_none {kind : CollectionKind} {h : Heap α} {r : Ref}
    (hn : h.markable? kind r = none) (hc : h.covered kind r = true) : h.hasMark r = true := by
  cases hr : h.resolve? r with
  | none => simp [covered, hr] at hc
  | some e =>
    cases hm : h.hasMark r with
    | true => rfl
    | false =>
      have hsome := markable?_eq_some.mpr ⟨hr, hc, hm⟩
      rw [hn] at hsome
      cases hsome

theorem resolve?_stamp (h : Heap α) (x : Ref) :
    h.resolve? x = (h.resolve? x).map (·.stamp (h.hasMark x)) := by
  cases hx : h.resolve? x with
  | none => rfl
  | some e => simp [hasMark, hx, Entry.stamp]

theorem resolve?_mark (h : Heap α) (r x : Ref) :
    (h.mark r).resolve? x = (h.resolve? x).map (·.stamp ((h.mark r).hasMark x)) := by
  rw [hasMark_mark, mark, resolve?_modifyHeader]
  split
  · next hx =>
    subst hx
    cases hr : h.resolve? x <;> simp [Entry.stamp, Header.mark, contains, hr]
  · next hx =>
    rw [beq_false_of_ne hx, Bool.false_and, Bool.or_false]
    exact resolve?_stamp h x

variable [Traced α]

/-- What is known of the heap `h'` after a walk from `work` through the heap `h`. -/
structure Marking (kind : CollectionKind) (h : Heap α) (work : List Ref) (h' : Heap α) : Prop where
  same : SameObjects h h'
  remembered : h'.remembered = h.remembered
  stamped : ∀ x, h'.resolve? x = (h.resolve? x).map (·.stamp (h'.hasMark x))
  kept : ∀ x, h.hasMark x = true → h'.hasMark x = true
  covered : ∀ x, h'.hasMark x = true → h.hasMark x = true ∨ h.covered kind x = true
  started : ∀ x ∈ work, h.covered kind x = true → h'.hasMark x = true
  closed : ∀ x, h'.hasMark x = true → h.hasMark x = false →
    ∀ y ∈ h.children x, h.covered kind y = true → h'.hasMark y = true

theorem children_of_resolve? {h : Heap α} {r : Ref} {e : Entry α} (he : h.resolve? r = some e) :
    h.children r = Traced.refs e.value := by
  simp [children, get?_of_resolve? he]

theorem marking_markFrom (kind : CollectionKind) (h : Heap α) (work : List Ref) :
    Marking kind h work (h.markFrom kind work) := by
  fun_induction markFrom kind h work with
  | case1 h =>
    refine ⟨.refl h, rfl, resolve?_stamp h, fun _ hx => hx, fun _ hx => Or.inl hx, by simp, ?_⟩
    intro x hx hx'
    rw [hx] at hx'
    cases hx'
  | case2 h r rest hn ih =>
    refine ⟨ih.same, ih.remembered, ih.stamped, ih.kept, ih.covered, ?_, ih.closed⟩
    intro x hx hc
    rcases List.mem_cons.mp hx with rfl | hx
    · exact ih.kept x (hasMark_of_markable?_none hn hc)
    · exact ih.started x hx hc
  | case3 h r rest e he ih =>
    obtain ⟨hr, hcov, hunmarked⟩ := markable?_eq_some.mp he
    have hlive : h.contains r = true := contains_iff.mpr ⟨e, hr⟩
    have hsame := sameObjects_mark h r
    have hmarked : (markFrom kind (h.mark r) (Traced.refs e.value ++ rest)).hasMark r = true :=
      ih.kept r (by simp [hasMark_mark, hlive])
    refine ⟨hsame.trans ih.same, ih.remembered, fun x => ?_, fun x hx => ?_, fun x hx => ?_,
      fun x hx hc => ?_, fun x hx hx' y hy hc => ?_⟩
    · rw [ih.stamped x, resolve?_mark, Option.map_map]
      rfl
    · exact ih.kept x (by simp [hasMark_mark, hx])
    · rcases ih.covered x hx with hm | hc
      · rw [hasMark_mark, Bool.or_eq_true, Bool.and_eq_true, beq_iff_eq] at hm
        rcases hm with hm | ⟨rfl, _⟩
        · exact Or.inl hm
        · exact Or.inr hcov
      · exact Or.inr (by rwa [hsame.covered] at hc)
    · rcases List.mem_cons.mp hx with rfl | hx
      · exact hmarked
      · exact ih.started x (List.mem_append_right _ hx) (by rwa [hsame.covered])
    · -- what `r` holds was put on the list; what another new mark holds is the walk's own concern
      have hc' : (h.mark r).covered kind y = true := by rwa [hsame.covered]
      by_cases hxr : x = r
      · subst hxr
        rw [children_of_resolve? hr] at hy
        exact ih.started y (List.mem_append_left _ hy) hc'
      · refine ih.closed x hx ?_ y (by rwa [hsame.children]) hc'
        rw [hasMark_mark, hx', beq_false_of_ne hxr]
        rfl

end Heap

end Managed
