import Managed.Proofs.SlotArray.Appending
import Managed.Proofs.Space.Coherence
import Managed.Proofs.Space.Table

/-!
# Appending all items of an array

All items of an array are appended to another one, or to the same, at once: space is made for them
first, and the barriers come last. To a program this is the same as appending the items one by one, as
long as it succeeds (`appendAll_agrees`). The two ways differ in what storage the array has to spare, and
the order of stores and barriers does not matter (`stored_stored`).

A failure leaves nothing behind unless the array stops half-way, which takes an array with more storage
than the limit allows for. There are such arrays, and then an item that has been appended stays
(`appendAll_keeps_first`).
-/

namespace Managed

/-! ## Values and barriers -/

namespace Heap

variable {α : Type}

/-- The heap with another value in the object that `r` names. -/
def withValue (h : Heap α) (r : Ref) (value : α) : Heap α :=
  h.modifyEntry r fun e => { e with value }

/-- Headers do not depend on values. -/
theorem any_header_withValue (h : Heap α) (r x : Ref) (value : α) (p : Header → Bool) :
    ((h.withValue r value).resolve? x).any (fun e => p e.header) =
      (h.resolve? x).any fun e => p e.header := by
  rw [withValue, resolve?_modifyEntry]
  split
  · next hx =>
    subst hx
    cases h.resolve? x <;> rfl
  · rfl

theorem remember_withValue (h : Heap α) (r : Ref) (value : α) :
    (h.withValue r value).remember r = (h.remember r).withValue r value := by
  have hheader : (h.withValue r value).modifyHeader r Header.remember =
      (h.modifyHeader r Header.remember).withValue r value := by
    rw [withValue, withValue, modifyHeader, modifyHeader, modifyEntry_modifyEntry,
      modifyEntry_modifyEntry]
    rfl
  unfold remember
  rw [any_header_withValue h r r value fun header => !header.remembered]
  split
  · rw [hheader]
    rfl
  · rfl

theorem writeBarrier_withValue (h : Heap α) (r x : Ref) (value : α) :
    (h.withValue r value).writeBarrier r x = (h.writeBarrier r x).withValue r value := by
  have hold : (h.withValue r value).needsBarrier r = h.needsBarrier r :=
    any_header_withValue h r r value fun header => header.generation == .old
  have hyoung : (h.withValue r value).isYoung x = h.isYoung x :=
    any_header_withValue h r x value fun header => header.generation.isYoung
  unfold writeBarrier
  rw [hold, hyoung]
  split
  · exact remember_withValue h r value
  · rfl

theorem foldl_writeBarrier_withValue (h : Heap α) (r : Ref) (value : α) (handles : List Ref) :
    handles.foldl (fun h x => h.writeBarrier r x) (h.withValue r value) =
      (handles.foldl (fun h x => h.writeBarrier r x) h).withValue r value := by
  induction handles generalizing h with
  | nil => rfl
  | cons x rest ih => rw [List.foldl_cons, List.foldl_cons, writeBarrier_withValue, ih]

end Heap

namespace Space

variable {s t u : Space} {r other x : Ref} {a b c d : SlotArray Ref} {items : List Ref}

theorem stored_eq {old : Object} (hr : s.heap.get? r = some old) (o : Object) (handles : List Ref) :
    s.stored r o handles =
      { s with heap := (handles.foldl (fun h x => h.writeBarrier r x) s.heap).withValue r o } := by
  rw [stored_of_live hr, setObject_of_live hr, ← Heap.foldl_writeBarrier_withValue]
  rfl

/-- Of two stores with their barriers the last value counts, and the barriers of both. -/
theorem stored_stored (ht : s.heap.Tidy) {old : Object} (hr : s.heap.get? r = some old) (o o' : Object)
    (handles handles' : List Ref) :
    (s.stored r o handles).stored r o' handles' = s.stored r o' (handles ++ handles') := by
  have hr' : (s.stored r o handles).heap.get? r = some o := by
    rw [get?_stored ht hr, if_pos rfl]
  rw [stored_eq hr', stored_eq hr, stored_eq hr, List.foldl_append]
  dsimp only
  rw [Heap.foldl_writeBarrier_withValue, Heap.withValue, Heap.withValue, Heap.modifyEntry_modifyEntry]
  rfl

theorem stored_self {o : Object} (hr : s.heap.get? r = some o) : s.stored r o [] = s := by
  rw [stored_nil, setObject_self hr]

theorem sameBut_stored {old : Object} (hr : s.heap.get? r = some old) (o : Object)
    (handles : List Ref) : SameBut r s (s.stored r o handles) := by
  have hbarriers : ∀ u : Space, SameBut r u (u.barriers r handles) := by
    induction handles with
    | nil => exact SameBut.refl r
    | cons x rest ih => exact fun u => (sameBut_barrier u r x).trans (ih (u.barriers r [x]))
  rw [stored_of_live hr]
  exact (sameBut_setObject hr o).trans (hbarriers _)

/-- The barriers are the same whatever is stored. -/
theorem remembered_stored {old : Object} (hr : s.heap.get? r = some old) (o o' : Object)
    (handles : List Ref) :
    (s.stored r o handles).heap.remembered = (s.stored r o' handles).heap.remembered := by
  rw [stored_eq hr, stored_eq hr]
  rfl

/-! ## Items one by one -/

/-- Appends items one after the other. -/
def appendEach (array : Ref) (items : List Ref) : SpaceM Unit :=
  items.forM fun item => do
    let _ ← append array item

theorem append_of_array (ha : s.array r = .ok a) {position : Nat}
    (h : a.append x s.limits = .ok (position, b)) :
    append r x s = .ok position (s.stored r (.array b) [x]) := by
  rw [append_eq ha, h]

theorem array_of_append {position : Nat} (ha : s.array r = .ok a)
    (h : append r x s = .ok position u) :
    ∃ b, a.append x s.limits = .ok (position, b) ∧ u = s.stored r (.array b) [x] := by
  rw [append_eq ha] at h
  cases hx : a.append x s.limits with
  | error e =>
    rw [hx] at h
    cases h
  | ok p =>
    rw [hx] at h
    cases h
    exact ⟨p.2, rfl, rfl⟩

theorem array_stored (ht : s.heap.Tidy) (ha : s.array r = .ok a) (b : SlotArray Ref)
    (handles : List Ref) : (s.stored r (.array b) handles).array r = .ok b := by
  rw [array_eq_ok, get?_stored ht (array_eq_ok.mp ha), if_pos rfl]

/-- Items that the array takes end up in it, with a barrier for each. -/
theorem appendEach_of_appended (ht : s.heap.Tidy) (ha : s.array r = .ok a)
    (h : SlotArray.Appended s.limits a items d) :
    appendEach r items s = .ok () (s.stored r (.array d) items) := by
  generalize hlimits : s.limits = limits at h
  induction h generalizing s with
  | nil => rw [stored_self (array_eq_ok.mp ha)]; rfl
  | @cons a b d x rest position head _ ih =>
    rw [← hlimits] at head
    have hrest := ih (tidy_stored ht r (.array b) [x]) (array_stored ht ha b [x]) hlimits
    rw [stored_stored ht (array_eq_ok.mp ha)] at hrest
    have hone : (do let _ ← append r x : SpaceM Unit) s = .ok () (s.stored r (.array b) [x]) :=
      bind_of_ok (append_of_array ha head)
    rw [appendEach, List.forM_eq_forM, List.forM_cons, bind_of_ok hone]
    exact hrest

theorem appended_of_appendEach (ht : s.heap.Tidy) (ha : s.array r = .ok a)
    (h : appendEach r items s = .ok () u) : ∃ d, SlotArray.Appended s.limits a items d := by
  induction items generalizing s a with
  | nil => exact ⟨a, .nil a⟩
  | cons x rest ih =>
    obtain ⟨_, t, hx, hrest⟩ := bind_eq_ok_state h
    obtain ⟨position, t', hx, ⟨⟩⟩ := bind_eq_ok_state hx
    obtain ⟨b, hb, rfl⟩ := array_of_append ha hx
    obtain ⟨d, hd⟩ := ih (tidy_stored ht r (.array b) [x]) (array_stored ht ha b [x]) hrest
    exact ⟨d, .cons hb hd⟩

theorem appendEach_isOk_iff (ht : s.heap.Tidy) (ha : s.array r = .ok a) (items : List Ref) :
    (∃ u, appendEach r items s = .ok () u) ↔ ∃ d, SlotArray.Appended s.limits a items d := by
  constructor
  · rintro ⟨u, hu⟩
    exact appended_of_appendEach ht ha hu
  · rintro ⟨d, hd⟩
    exact ⟨_, appendEach_of_appended ht ha hd⟩

/-! ## All items at once -/

section

variable (ha : s.array r = .ok a) (hb : s.array other = .ok b)
include ha hb

/-- Only the array can refuse items. -/
theorem appendAll_isOk_iff :
    (∃ t, appendAll r other s = .ok () t) ↔
      ∃ c, ArrayM.appendAll b.allItems s.limits a = .ok () c := by
  rw [appendAll_eq ha hb]
  cases ArrayM.appendAll b.allItems s.limits a with
  | ok u c => exact ⟨fun _ => ⟨c, rfl⟩, fun _ => ⟨_, rfl⟩⟩
  | error e c => exact ⟨nofun, nofun⟩

theorem appendAll_of_appended
    (hspace : a.ensureSpace (Word.addSat a.last b.allItems.length) s.limits = .ok c)
    (h : SlotArray.Appended s.limits c b.allItems d) :
    appendAll r other s = .ok () (s.stored r (.array d) b.allItems) := by
  have hrun : ArrayM.appendAll b.allItems s.limits a = .ok () d := by
    rw [ArrayM.appendAll_apply, hspace]
    exact ArrayM.appendEach_of_appended h
  rw [appendAll_eq ha hb, hrun]

/-- A failure leaves the array as the failed work leaves it, and no barrier is called. -/
theorem array_of_appendAll_error {e : Fault} (h : appendAll r other s = .error e t) :
    ∃ c, ArrayM.appendAll b.allItems s.limits a = .error e c ∧ t = s.stored r (.array c) [] := by
  rw [appendAll_eq ha hb] at h
  cases hrun : ArrayM.appendAll b.allItems s.limits a with
  | ok u c =>
    rw [hrun] at h
    cases h
  | error e' c =>
    rw [hrun] at h
    cases h
    exact ⟨c, rfl, (stored_nil s r (.array c)).symm⟩

end

/-- Appending all items of an array at once agrees with appending them one by one, whether the arrays
are different or the same. The one succeeds exactly if the other does: if there are no items, or the
array has one dimension and has slots for all of them or may grow for all of them. Both then leave the
same in the array, apart from spare storage, and the same remembered set, and no other object has
changed. If it fails nothing has been appended, unless the array stops half-way, and then something has.
The array never gets more storage than the limit allows for. -/
theorem appendAll_agrees (hs : s.Reachable) (ha : s.array r = .ok a) (hb : s.array other = .ok b)
    (hcap : a.capacity ≤ Word.max) :
    ((∃ t, appendAll r other s = .ok () t) ↔ ∃ u, appendEach r b.allItems s = .ok () u) ∧
    ((∃ t, appendAll r other s = .ok () t) ↔ b.allItems = [] ∨ a.shape = none ∧
      (a.last + b.allItems.length ≤ a.size ∨
        Word.addSat a.last b.allItems.length ≤ s.limits.maxElements)) ∧
    (∀ t u, appendAll r other s = .ok () t → appendEach r b.allItems s = .ok () u →
      (∃ c d, t.array r = .ok c ∧ u.array r = .ok d ∧ c.trimmed = d.trimmed ∧
        c.capacity ≤ max a.capacity s.limits.maxElements ∧
        d.capacity ≤ max a.capacity s.limits.maxElements) ∧
      SameBut r s t ∧ SameBut r s u ∧ t.heap.remembered = u.heap.remembered) ∧
    ∀ e t, appendAll r other s = .error e t →
      (∃ c, t.array r = .ok c ∧
        (c.trimmed = a.trimmed ↔ ¬a.StopsHalfway b.allItems.length s.limits) ∧
        c.capacity ≤ max a.capacity s.limits.maxElements) ∧
      SameBut r s t ∧ t.heap.remembered = s.heap.remembered := by
  obtain ⟨ht, hcoherent⟩ := coherent_of_reachable hs
  have hobj := array_eq_ok.mp ha
  have hpadded := (hcoherent r a ha).padded
  have hhoused : a.Housed := ⟨hpadded, hcap⟩
  have hlast := (hcoherent r a ha).counted.last_le_size hpadded
  have hbulk := (appendAll_isOk_iff ha hb).trans (ArrayM.appendAll_isOk_iff hhoused hlast)
  have heach := appendEach_isOk_iff ht ha b.allItems
  have hbound := Nat.le_max_left a.capacity s.limits.maxElements
  have hmax := Nat.le_max_right a.capacity s.limits.maxElements
  refine ⟨hbulk.trans heach.symm, hbulk.trans (SlotArray.appended_iff hhoused hlast),
    fun t u hrun hsingle => ?_, fun e t hrun => ?_⟩
  · obtain ⟨d, hd⟩ := appended_of_appendEach ht ha hsingle
    obtain ⟨a', c, ha', hc, hcong⟩ := hd.after_ensureSpace hhoused hlast
    rw [appendEach_of_appended ht ha hd] at hsingle
    rw [appendAll_of_appended ha hb ha' hc] at hrun
    cases hsingle
    cases hrun
    cases SlotArray.ensureSpace_eq_ok ha'
    have hroom := hhoused.withRoom (Word.addSat a.last b.allItems.length) s.limits
    refine ⟨⟨c, d, array_stored ht ha c _, array_stored ht ha d _, ?_, ?_, ?_⟩,
      sameBut_stored hobj _ _, sameBut_stored hobj _ _, remembered_stored hobj _ _ _⟩
    · exact (hcong.trimmed (hd.housed hhoused).padded (hc.housed hroom).padded).symm
    · exact hc.capacity_le_of_le hroom (SlotArray.capacity_withRoom_le hpadded _ _ hbound hmax) hmax
    · exact hd.capacity_le_of_le hhoused hbound hmax
  · obtain ⟨c, hfail, rfl⟩ := array_of_appendAll_error ha hb hrun
    refine ⟨⟨c, array_stored ht ha c [], ?_, ?_⟩, sameBut_stored hobj _ _, ?_⟩
    · exact ArrayM.trimmed_of_appendAll_error hhoused hlast hfail
    · have hleft : ((ArrayM.appendAll b.allItems s.limits).left a).capacity ≤
          max a.capacity s.limits.maxElements :=
        ArrayM.capacity_left_appendAll_le hhoused hbound hmax
      rwa [ArrayM.left, hfail] at hleft
    · rw [remembered_stored hobj (.array c) (.array a), stored_self hobj]

/-- Two young items, with a hole between them, are appended to a tenured array, which is remembered. -/
theorem appendAll_agrees_tenured :
    let array : Ref := ⟨0, 0⟩
    let other : Ref := ⟨2, 0⟩
    let x : Ref := ⟨1, 0⟩
    let s₁ := left ((Operation.newArray 0).run (.ofLimits { arrays := { maxElements := 3 } }))
    let s₂ := left ((Operation.tenure array).run s₁)
    let s₃ := left ((Operation.newString "x").run s₂)
    let s := left ((Operation.arrayOf [some x, none, some x]).run s₃)
    s.Reachable ∧ ∃ a b, s.array array = .ok a ∧ s.array other = .ok b ∧ b.allItems = [x, x] ∧
      ∃ t u, appendAll array other s = .ok () t ∧ appendEach array [x, x] s = .ok () u ∧
        (∃ c d, t.array array = .ok c ∧ u.array array = .ok d ∧ c.trimmed = d.trimmed) ∧
        SameBut array s t ∧ SameBut array s u ∧ t.heap.remembered = u.heap.remembered ∧
        (left (appendAll array other s)).heap.remembered.refs = #[array] := by
  intro array other x s₁ s₂ s₃ s
  have hs₁ : s₁.Reachable :=
    .run _ (.start _) (fun a h => by cases h) fun r a => Track.capacity_of_roomy (by decide +kernel)
  have hs₂ : s₂.Reachable :=
    .run _ hs₁ (fun a h => by cases h) fun r a => Track.capacity_of_roomy (by decide +kernel)
  have hs₃ : s₃.Reachable :=
    .run _ hs₂ (fun a h => by cases h) fun r a => Track.capacity_of_roomy (by decide +kernel)
  have hs : s.Reachable :=
    .run _ hs₃ (fun a h => by cases h) fun r a => Track.capacity_of_roomy (by decide +kernel)
  have harray : (s.array array).toOption.any (fun a => decide (a.capacity ≤ Word.max ∧
      a.shape = none ∧ Word.addSat a.last 2 ≤ s.limits.maxElements)) = true := by
    decide +kernel
  have hother : (s.array other).toOption.any (fun b => decide (b.allItems = [x, x])) = true := by
    decide +kernel
  have hremembered : (left (appendAll array other s)).heap.remembered.refs = #[array] := by
    decide +kernel
  obtain ⟨a, ha, hroom⟩ := exists_array_of_any harray
  obtain ⟨hcap, hshape, hmax⟩ := of_decide_eq_true hroom
  obtain ⟨b, hb, hitems⟩ := exists_array_of_any hother
  replace hitems : b.allItems = [x, x] := of_decide_eq_true hitems
  obtain ⟨hsame, hwhen, hleave, _⟩ := appendAll_agrees hs ha hb hcap
  rw [hitems] at hsame hwhen hleave
  obtain ⟨t, ht⟩ := hwhen.mpr (Or.inr ⟨hshape, Or.inr hmax⟩)
  obtain ⟨u, hu⟩ := hsame.mp ⟨t, ht⟩
  obtain ⟨⟨c, d, hc, hd, hseen, _⟩, hst, hsu, heq⟩ := hleave t u ht hu
  exact ⟨hs, a, b, ha, hb, hitems, t, u, ht, hu, ⟨c, d, hc, hd, hseen⟩, hst, hsu, heq, hremembered⟩

/-- An array has one item and storage for three more, but the limit allows for two items. Of two items one
is appended and the other is refused, and the one that has been appended stays. -/
theorem appendAll_keeps_first :
    let array : Ref := ⟨0, 0⟩
    let other : Ref := ⟨2, 0⟩
    let x : Ref := ⟨1, 0⟩
    let s₁ := left ((Operation.alloc (.array Track.spacious)).run
      (.ofLimits { arrays := { maxElements := 2 } }))
    let s₂ := left ((Operation.newString "x").run s₁)
    let s₃ := left ((Operation.append array x).run s₂)
    let s := left ((Operation.arrayOf [some x, some x]).run s₃)
    s.Reachable ∧ ∃ a e t c, s.array array = .ok a ∧ a.allItems = [x] ∧
      appendAll array other s = .error e t ∧ t.array array = .ok c ∧ c.allItems = [x, x] := by
  intro array other x s₁ s₂ s₃ s
  have hspacious : Track.spacious.Coherent :=
    ⟨Track.fits_spacious.padded, SlotArray.counted_of_holes Track.slotAt_spacious rfl rfl,
      Track.fits_spacious.shaped⟩
  have hs₁ : s₁.Reachable :=
    .run _ (.start _) (fun a h => by cases h; exact hspacious) fun r a =>
      Track.capacity_of_roomy (by decide +kernel)
  have hs₂ : s₂.Reachable :=
    .run _ hs₁ (fun a h => by cases h) fun r a => Track.capacity_of_roomy (by decide +kernel)
  have hs₃ : s₃.Reachable :=
    .run _ hs₂ (fun a h => by cases h) fun r a => Track.capacity_of_roomy (by decide +kernel)
  have hs : s.Reachable :=
    .run _ hs₃ (fun a h => by cases h) fun r a => Track.capacity_of_roomy (by decide +kernel)
  have hbefore : (s.array array).toOption.any (fun a => decide (a.allItems = [x])) = true := by
    decide +kernel
  have hafter : ((left (appendAll array other s)).array array).toOption.any
      (fun c => decide (c.allItems = [x, x])) = true := by
    decide +kernel
  have hfails : failed (appendAll array other s) = true := by decide +kernel
  obtain ⟨a, ha, hitems⟩ := exists_array_of_any hbefore
  obtain ⟨c, hc, hitems'⟩ := exists_array_of_any hafter
  cases hrun : appendAll array other s with
  | ok u t =>
    rw [hrun] at hfails
    cases hfails
  | error e t =>
    rw [hrun] at hc
    exact ⟨hs, a, e, t, c, ha, of_decide_eq_true hitems, rfl, hc, of_decide_eq_true hitems'⟩

end Space

end Managed
