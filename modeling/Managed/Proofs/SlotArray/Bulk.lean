import Managed.Proofs.SlotArray.Revision

/-!
# Appending many items

Items are appended to an array one by one (`Appended`), or all at once after space has been made for all
of them. Making space is not refused if the storage suffices already, whatever the limit is. So a
later item may be refused when others have been appended (`StopsHalfway`), but only if the array has
more storage than the limit allows for. Apart from that, work on an array that fails has appended
nothing (`appendAll_cases`).
-/

namespace Managed

namespace SlotArray

variable {α : Type}

/-! ## Items appended one after the other -/

/-- Some slot of the storage, within the size or not, has the item `x`. -/
def Holds (a : SlotArray α) (x : α) : Prop :=
  ∃ i, a.slotAt i = some x

theorem holds_of_mem_allItems {a : SlotArray α} {x : α} (hx : x ∈ a.allItems) : a.Holds x := by
  obtain ⟨i, _, hslot⟩ := mem_allItems.mp hx
  exact ⟨i, hslot⟩

theorem holds_of_withRoom {a : SlotArray α} {size : Nat} {limits : ArrayLimits} {x : α}
    (hx : (a.withRoom size limits).Holds x) : a.Holds x := by
  unfold withRoom at hx
  split at hx
  · exact hx
  · obtain ⟨i, hi⟩ := hx
    rw [slotAt, reallocate, cell_append] at hi
    split at hi
    · rw [slots, cell_extract, Nat.zero_add] at hi
      split at hi
      · exact ⟨i, hi⟩
      · cases hi
    · rw [cell_replicate] at hi
      split at hi <;> cases hi

theorem capacity_le_withRoom (a : SlotArray α) {size : Nat} {limits : ArrayLimits}
    (hmax : size ≤ limits.maxElements) (hword : size ≤ Word.max) :
    a.capacity ≤ (a.withRoom size limits).capacity := by
  have hgrown := le_grownCapacity hmax hword
  unfold withRoom
  split
  · exact Nat.le_refl _
  · next hlt =>
    simp only [reallocate, slots, capacity, Array.size_append, Array.size_extract,
      Array.size_replicate] at hlt ⊢
    omega

theorem capacity_le_append {a b : SlotArray α} {value : α} {limits : ArrayLimits} {position : Nat}
    (h : a.append value limits = .ok (position, b)) : a.capacity ≤ b.capacity := by
  obtain ⟨_, _, e, he, rfl⟩ := append_eq_ok h
  rw [capacity_put]
  rcases he with ⟨_, rfl⟩ | ⟨_, he⟩
  · exact Nat.le_refl _
  · obtain ⟨_, hmax, rfl⟩ := extend_eq_ok he
    exact capacity_le_withRoom a hmax (Nat.min_le_right _ _)

theorem holds_of_append {a b : SlotArray α} {value : α} {limits : ArrayLimits} {position : Nat}
    (h : a.append value limits = .ok (position, b)) {x : α} (hx : b.Holds x) :
    a.Holds x ∨ x = value := by
  obtain ⟨_, _, e, he, rfl⟩ := append_eq_ok h
  obtain ⟨i, hi⟩ := hx
  rw [slotAt_put] at hi
  split at hi
  · exact Or.inr (Option.some.inj hi).symm
  · rcases he with ⟨_, rfl⟩ | ⟨_, he⟩
    · exact Or.inl ⟨i, hi⟩
    · obtain ⟨_, _, rfl⟩ := extend_eq_ok he
      exact Or.inl (holds_of_withRoom ⟨i, hi⟩)

/-- An array of one dimension takes another item if the limit allows for it. -/
theorem append_of_room {a : SlotArray α} {limits : ArrayLimits} (hlinear : a.shape = none)
    (hroom : Word.addSat a.last 1 ≤ limits.maxElements) (value : α) :
    ∃ b, a.append value limits = .ok (a.last + 1, b) ∧ b.shape = none ∧ b.last = a.last + 1 := by
  have hreq : ∀ op, a.requireLinear op = .ok () := fun op => by simp [requireLinear, hlinear]
  have hput : ∀ e : SlotArray α, e.last = a.last →
      (e.put (a.last + 1) (some value)).last = a.last + 1 := by
    intro e he
    simp [put, he]
  rw [append_eq, hreq, growTo_eq]
  dsimp only [bind, Except.bind]
  by_cases hlt : a.size < a.last + 1
  · have hsize : Word.addSat a.size (a.last + 1 - a.size) = Word.addSat a.last 1 := by
      simp only [Word.addSat]
      omega
    have hcheck : limits.check (Word.addSat a.size (a.last + 1 - a.size)) = .ok () := by
      rw [hsize, ArrayLimits.check, if_neg (by omega)]
    have hext : ∃ e, a.extend (a.last + 1 - a.size) limits = .ok e ∧ e.shape = none ∧
        e.last = a.last := by
      rw [extend_eq, hreq]
      dsimp only [bind, Except.bind]
      rw [hcheck]
      refine ⟨_, rfl, ?_, ?_⟩
      · dsimp only
        split <;> exact hlinear
      · dsimp only
        split <;> rfl
    obtain ⟨e, he, hshape, hlast⟩ := hext
    rw [if_pos hlt, he]
    exact ⟨_, rfl, hshape, hput e hlast⟩
  · rw [if_neg hlt]
    exact ⟨_, rfl, hlinear, hput a rfl⟩

/-- `c` is `a` with the items appended one after the other. -/
inductive Appended (limits : ArrayLimits) : SlotArray α → List α → SlotArray α → Prop
  | nil (a : SlotArray α) : Appended limits a [] a
  | cons {a b c : SlotArray α} {x : α} {items : List α} {position : Nat}
    (head : a.append x limits = .ok (position, b)) (rest : Appended limits b items c) :
    Appended limits a (x :: items) c

/-- If the limit allows for all items, none of them is refused. -/
theorem appended_of_room {a : SlotArray α} {limits : ArrayLimits} {items : List α}
    (hlinear : a.shape = none) (hroom : Word.addSat a.last items.length ≤ limits.maxElements) :
    ∃ c, Appended limits a items c := by
  induction items generalizing a with
  | nil => exact ⟨a, .nil a⟩
  | cons x rest ih =>
    simp only [Word.addSat, List.length_cons] at hroom
    have hroom' : Word.addSat a.last 1 ≤ limits.maxElements := by
      simp only [Word.addSat]
      omega
    obtain ⟨b, hb, hshape, hlast⟩ := append_of_room hlinear hroom' x
    obtain ⟨c, hc⟩ := ih hshape (by simp only [Word.addSat, hlast]; omega)
    exact ⟨c, .cons hb hc⟩

namespace Appended

variable {limits : ArrayLimits} {a c : SlotArray α} {items : List α}

theorem holds (h : Appended limits a items c) {x : α} (hx : c.Holds x) : a.Holds x ∨ x ∈ items := by
  induction h with
  | nil => exact Or.inl hx
  | cons head _ ih =>
    rcases ih hx with hx | hx
    · rcases holds_of_append head hx with hx | rfl
      · exact Or.inl hx
      · exact Or.inr List.mem_cons_self
    · exact Or.inr (List.mem_cons_of_mem _ hx)

theorem capacity_le (h : Appended limits a items c) : a.capacity ≤ c.capacity := by
  induction h with
  | nil => exact Nat.le_refl _
  | cons head _ ih => exact Nat.le_trans (capacity_le_append head) ih

theorem fits {bound : Nat} (hmax : limits.maxElements ≤ bound) (h : Appended limits a items c)
    (ha : a.Fits bound) (hroom : c.capacity < Word.max) : c.Fits bound := by
  induction h with
  | nil => exact ha
  | cons head rest ih =>
    exact ih ((revision_append hmax ha head).fits (Nat.lt_of_le_of_lt rest.capacity_le hroom)) hroom

/-- Space is made for all items first, and then they are appended. -/
theorem revision {bound : Nat} (hmax : limits.maxElements ≤ bound) {b : SlotArray α} {size : Nat}
    (h : Appended limits b items c) (ha : a.Fits bound) (hb : a.ensureSpace size limits = .ok b) :
    Revision bound a items c := by
  refine ⟨fun x hx => ?_, fun hroom => ?_⟩
  · rcases h.holds (holds_of_mem_allItems hx) with hx | hx
    · cases ensureSpace_eq_ok hb
      obtain ⟨i, hi⟩ := holds_of_withRoom hx
      exact Or.inl (ha.padded.mem_allItems hi)
    · exact Or.inr hx
  · have hfits := (revision_ensureSpace hmax ha hb).fits (Nat.lt_of_le_of_lt h.capacity_le hroom)
    exact h.fits hmax hfits hroom

end Appended

/-! ## Items appended at once -/

/-- The storage suffices for `n` more items, so that no limit is looked at, but the limit allows for some
of them only. -/
def StopsHalfway (a : SlotArray α) (n : Nat) (limits : ArrayLimits) : Prop :=
  a.shape = none ∧ (a.last < a.size ∨ Word.addSat a.last 1 ≤ limits.maxElements) ∧
    a.size < a.last + n ∧ limits.maxElements < Word.addSat a.last n ∧
    Word.addSat a.last n ≤ a.capacity

instance (a : SlotArray α) (n : Nat) (limits : ArrayLimits) : Decidable (a.StopsHalfway n limits) :=
  inferInstanceAs (Decidable (_ ∧ _))

theorem not_stopsHalfway_of_capacity_le {a : SlotArray α} {limits : ArrayLimits}
    (h : a.capacity ≤ limits.maxElements) (n : Nat) : ¬a.StopsHalfway n limits := by
  rintro ⟨_, _, _, hbeyond, hcap⟩
  omega

/-- An append fails if the array has several dimensions, or has to grow beyond the limit. -/
theorem append_isOk_iff {a : SlotArray α} {limits : ArrayLimits} {x : α} :
    (∃ position b, a.append x limits = .ok (position, b)) ↔
      a.shape = none ∧ (a.last < a.size ∨ Word.addSat a.last 1 ≤ limits.maxElements) := by
  constructor
  · rintro ⟨position, b, h⟩
    obtain ⟨hshape, _, e, he, _⟩ := append_eq_ok h
    refine ⟨hshape, ?_⟩
    rcases he with ⟨hlt, _⟩ | ⟨hfull, he⟩
    · exact Or.inl hlt
    · obtain ⟨_, hmax, _⟩ := extend_eq_ok he
      right
      simp only [Word.addSat] at hmax ⊢
      omega
  · rintro ⟨hshape, hlt | hmax⟩
    · refine ⟨a.last + 1, a.put (a.last + 1) (some x), ?_⟩
      have hfits : ¬a.size < a.last + 1 := by omega
      simp [append_eq, growTo_eq, requireLinear, hshape, hfits, bind, Except.bind, pure, Except.pure]
    · obtain ⟨b, hb, _⟩ := append_of_room hshape hmax x
      exact ⟨_, b, hb⟩

/-- Items for which there are slots already are not refused. -/
theorem appended_of_size {a : SlotArray α} {limits : ArrayLimits} {items : List α}
    (hlinear : a.shape = none) (hroom : a.last + items.length ≤ a.size) :
    ∃ c, Appended limits a items c := by
  induction items generalizing a with
  | nil => exact ⟨a, .nil a⟩
  | cons x rest ih =>
    rw [List.length_cons] at hroom
    have hfits : ¬a.size < a.last + 1 := by omega
    have hhead : a.append x limits = .ok (a.last + 1, a.put (a.last + 1) (some x)) := by
      simp [append_eq, growTo_eq, requireLinear, hlinear, hfits, bind, Except.bind, pure, Except.pure]
    have hlast : (a.put (a.last + 1) (some x)).last = a.last + 1 := Nat.max_eq_right (Nat.le_succ _)
    obtain ⟨c, hc⟩ := ih (a := a.put (a.last + 1) (some x)) hlinear (by
      rw [hlast]
      change a.last + 1 + rest.length ≤ a.size
      omega)
    exact ⟨c, .cons hhead hc⟩

end SlotArray

namespace ArrayM

open SlotArray

variable {α : Type} {limits : ArrayLimits}

/-- Appends items one by one. -/
def appendEach (items : List α) (limits : ArrayLimits) : ArrayM α Unit :=
  items.forM fun item => do
    let _ ← append item limits

theorem appendEach_cons (x : α) (rest : List α) (limits : ArrayLimits) (a : SlotArray α) :
    appendEach (x :: rest) limits a = match a.append x limits with
      | .ok (_, b) => appendEach rest limits b
      | .error e => .error e a := by
  rw [appendEach, List.forM_eq_forM, List.forM_cons, bind_assoc, bind_apply,
    (restores_append x limits).apply_eq, SlotArray.append]
  cases (append x limits).outcome a <;> rfl

/-- Items that the array takes end up in it. -/
theorem appendEach_of_appended {a c : SlotArray α} {items : List α}
    (h : Appended limits a items c) : appendEach items limits a = .ok () c := by
  induction h with
  | nil => rfl
  | cons head _ ih =>
    rw [appendEach_cons, head]
    exact ih

/-- Items are appended until one is refused. -/
theorem appendEach_cases (items : List α) (limits : ArrayLimits) (a : SlotArray α) :
    ∃ taken c, Appended limits a taken c ∧
      (taken = items ∧ appendEach items limits a = .ok () c ∨
        ∃ e, taken <+: items ∧ appendEach items limits a = .error e c) := by
  induction items generalizing a with
  | nil => exact ⟨[], a, .nil a, Or.inl ⟨rfl, rfl⟩⟩
  | cons x rest ih =>
    rw [appendEach_cons]
    cases hx : a.append x limits with
    | error e => exact ⟨[], a, .nil a, Or.inr ⟨e, List.nil_prefix, rfl⟩⟩
    | ok p =>
      obtain ⟨taken, c, happ, hrun⟩ := ih p.2
      refine ⟨x :: taken, c, .cons hx happ, ?_⟩
      rcases hrun with ⟨rfl, hrun⟩ | ⟨e, hsub, hrun⟩
      · exact Or.inl ⟨rfl, hrun⟩
      · exact Or.inr ⟨e, List.cons_prefix_cons.mpr ⟨rfl, hsub⟩, hrun⟩

/-- Space is made for all items, and then they are appended one by one. -/
theorem appendAll_apply (items : List α) (limits : ArrayLimits) (a : SlotArray α) :
    appendAll items limits a = match a.ensureSpace (Word.addSat a.last items.length) limits with
      | .ok b => appendEach items limits b
      | .error e => .error e a := by
  have hspace : ensureSpace (Word.addSat a.last items.length) limits a =
      match a.ensureSpace (Word.addSat a.last items.length) limits with
      | .ok b => .ok () b
      | .error e => .error e a := (restores_ensureSpace _ limits).apply_unit a
  change (ensureSpace (Word.addSat a.last items.length) limits >>= fun _ =>
    appendEach items limits) a = _
  rw [bind_apply, hspace]
  cases a.ensureSpace (Word.addSat a.last items.length) limits <;> rfl

/-- If an item is refused after another has been appended, the limit allows for some items only and the
storage suffices for all of them. -/
theorem stopsHalfway_of_error {a b c d : SlotArray α} {items taken : List α} {e : Fault} {x : α}
    (hb : a.ensureSpace (Word.addSat a.last items.length) limits = .ok b)
    (happ : Appended limits b (x :: taken) c) (hrun : appendEach items limits b = .error e d) :
    a.StopsHalfway items.length limits := by
  obtain ⟨hsize, hlast, hshape⟩ : b.size = a.size ∧ b.last = a.last ∧ b.shape = a.shape := by
    cases ensureSpace_eq_ok hb
    exact ⟨size_withRoom a _ limits, last_withRoom a _ limits, shape_withRoom a _ limits⟩
  have hrefused : ∀ c, ¬Appended limits b items c := by
    intro c hc
    rw [appendEach_of_appended hc] at hrun
    cases hrun
  obtain ⟨hlinear, hfirst⟩ :
      b.shape = none ∧ (b.last < b.size ∨ Word.addSat b.last 1 ≤ limits.maxElements) := by
    cases happ with
    | cons head _ => exact append_isOk_iff.mp ⟨_, _, head⟩
  have hbeyond : limits.maxElements < Word.addSat a.last items.length := by
    by_contra hle
    obtain ⟨c, hc⟩ := appended_of_room hlinear (by rw [hlast]; exact Nat.le_of_not_lt hle)
    exact hrefused c hc
  rw [hlast, hsize] at hfirst
  refine ⟨hshape ▸ hlinear, hfirst, ?_, hbeyond, ?_⟩
  · by_contra hle
    have hslots : b.last + items.length ≤ b.size := by
      rw [hlast, hsize]
      exact Nat.le_of_not_lt hle
    obtain ⟨c, hc⟩ := appended_of_size hlinear hslots
    exact hrefused c hc
  · by_contra hlt
    rw [ensureSpace_eq, if_neg hlt, ArrayLimits.check, if_pos hbeyond] at hb
    cases hb

/-- What becomes of an array to which items are appended at once. It takes them all, or it takes none and
at most has more storage, or it takes some of them and stops half-way. -/
theorem appendAll_cases (items : List α) (limits : ArrayLimits) (a : SlotArray α) :
    (∃ b c, a.ensureSpace (Word.addSat a.last items.length) limits = .ok b ∧
      Appended limits b items c ∧ appendAll items limits a = .ok () c) ∨
    (∃ e, appendAll items limits a = .error e a) ∨
    (∃ e b, a.ensureSpace (Word.addSat a.last items.length) limits = .ok b ∧
      appendAll items limits a = .error e b) ∨
    ∃ e b c taken, a.StopsHalfway items.length limits ∧ taken ≠ [] ∧ taken <+: items ∧
      a.ensureSpace (Word.addSat a.last items.length) limits = .ok b ∧
      Appended limits b taken c ∧ appendAll items limits a = .error e c := by
  rw [appendAll_apply]
  cases hb : a.ensureSpace (Word.addSat a.last items.length) limits with
  | error e => exact Or.inr (Or.inl ⟨e, rfl⟩)
  | ok b =>
    obtain ⟨taken, c, happ, ⟨rfl, hrun⟩ | ⟨e, hsub, hrun⟩⟩ := appendEach_cases items limits b
    · exact Or.inl ⟨b, c, rfl, happ, hrun⟩
    · cases taken with
      | nil =>
        cases happ
        exact Or.inr (Or.inr (Or.inl ⟨e, b, rfl, hrun⟩))
      | cons x taken =>
        exact Or.inr (Or.inr (Or.inr ⟨e, b, c, x :: taken, stopsHalfway_of_error hb happ hrun, by simp,
          hsub, rfl, happ, hrun⟩))

/-- Whatever becomes of it, the array holds nothing but old items and some of the new ones. -/
theorem revision_appendAll {bound : Nat} (hmax : limits.maxElements ≤ bound) {a : SlotArray α}
    (ha : a.Fits bound) (items : List α) :
    Revision bound a items ((appendAll items limits).left a) := by
  rw [left]
  rcases appendAll_cases items limits a with
    ⟨b, c, hb, hc, hrun⟩ | ⟨e, hrun⟩ | ⟨e, b, hb, hrun⟩ | ⟨e, b, c, taken, _, _, hsub, hb, hc, hrun⟩
  · rw [hrun]
    exact hc.revision hmax ha hb
  · rw [hrun]
    exact ha.revision_self.mono fun x hx => absurd hx List.not_mem_nil
  · rw [hrun]
    exact (revision_ensureSpace hmax ha hb).mono fun x hx => absurd hx List.not_mem_nil
  · rw [hrun]
    exact (hc.revision hmax ha hb).mono fun x hx => hsub.subset hx

end ArrayM

end Managed
