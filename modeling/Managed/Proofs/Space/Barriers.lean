import Managed.Proofs.Relation
import Managed.Proofs.Space.Moves
import Managed.Proofs.Supplier

/-!
# Stores and barriers

An operation that changes an object stores the new value and calls the barrier for each handle that
may be new in it: together that is one lawful store (`moves_stored`). What an operation stores it was
given or found in the object, and if it fails half-way it has stored nothing that a barrier is missing
for.
-/

namespace Managed

namespace Heap

variable {α : Type}

theorem modifyEntry_modifyEntry (h : Heap α) (r : Ref) (f g : Entry α → Entry α) :
    (h.modifyEntry r f).modifyEntry r g = h.modifyEntry r (g ∘ f) := by
  simp only [modifyEntry, mk.injEq, true_and, and_true]
  apply Array.ext_getElem?
  intro i
  simp only [Array.getElem?_modify]
  by_cases hi : r.index = i
  · rw [if_pos hi, if_pos hi, if_pos hi, Option.map_map]
    congr 1
    funext slot
    simp only [Function.comp_apply, Slot.modifyFor_eq]
    by_cases hslot : slot.serial = r.serial
    · rw [if_pos hslot, Slot.serial_map, if_pos hslot, if_pos hslot]
      refine Slot.ext_entry rfl ?_
      rw [Slot.entry_map, Slot.entry_map, Slot.entry_map, Option.map_map]
    · rw [if_neg hslot, if_neg hslot, if_neg hslot]
  · rw [if_neg hi, if_neg hi, if_neg hi]

/-- Storing the value that is there already. -/
theorem modifyEntry_value_self {h : Heap α} {r : Ref} {value : α} (hr : h.get? r = some value) :
    h.modifyEntry r (fun e => { e with value }) = h := by
  obtain ⟨e, he, rfl⟩ := get?_eq_some.mp hr
  have hslots : h.slots.modify r.index (·.modifyFor r.serial fun e' => { e' with value := e.value }) =
      h.slots := by
    apply Array.ext_getElem?
    intro i
    rw [Array.getElem?_modify]
    split
    · next hi =>
      subst hi
      obtain ⟨slot, hslot, hentry⟩ := Option.bind_eq_some_iff.mp he
      rw [Slot.entryFor?_eq] at hentry
      split at hentry
      · next hserial =>
        rw [hslot, Option.map_some, Slot.modifyFor_eq, if_pos hserial]
        refine congrArg some (Slot.ext_entry rfl ?_)
        rw [Slot.entry_map, hentry]
        rfl
      · cases hentry
    · rfl
  rw [modifyEntry, hslots]

end Heap

namespace Space

variable {brought : Nat} {known : List Ref} {s : Space}

/-! ## Looking at objects -/

theorem get_eq_ok {r : Ref} {o : Object} : s.get r = .ok o ↔ s.heap.get? r = some o := by
  unfold get Heap.get Heap.get?
  cases s.heap.resolve? r <;> simp

/-- An object of one class is asked for. -/
theorem get_bind_eq_ok {β : Type} {r : Ref} {b : β} {pick : Object → Except Fault β}
    {made : β → Object} (hpick : ∀ o, pick o = .ok b ↔ o = made b) :
    (s.get r >>= pick) = .ok b ↔ s.heap.get? r = some (made b) := by
  rw [← get_eq_ok]
  cases s.get r with
  | error e => simp [bind, Except.bind]
  | ok o => simpa [bind, Except.bind] using hpick o

theorem array_eq_ok {r : Ref} {a : SlotArray Ref} :
    s.array r = .ok a ↔ s.heap.get? r = some (.array a) := by
  refine get_bind_eq_ok fun o => ?_
  cases o <;> simp [pure, Except.pure, throw, throwThe, MonadExceptOf.throw]

theorem exists_array_of_any {r : Ref} {p : SlotArray Ref → Bool}
    (h : (s.array r).toOption.any p = true) : ∃ a, s.array r = .ok a ∧ p a = true := by
  cases ha : s.array r with
  | ok a =>
    rw [ha] at h
    exact ⟨a, rfl, h⟩
  | error e =>
    rw [ha] at h
    cases h

theorem relation_eq_ok {r : Ref} {a : Relation} :
    s.relation r = .ok a ↔ s.heap.get? r = some (.relation a) := by
  refine get_bind_eq_ok fun o => ?_
  cases o <;> simp [pure, Except.pure, throw, throwThe, MonadExceptOf.throw]

theorem supplier_eq_ok {r : Ref} {a : Supplier} :
    s.supplier r = .ok a ↔ s.heap.get? r = some (.supplier a) := by
  refine get_bind_eq_ok fun o => ?_
  cases o <;> simp [pure, Except.pure, throw, throwThe, MonadExceptOf.throw]

theorem mem_children {r x : Ref} {o : Object} (ho : s.heap.get? r = some o) (hx : x ∈ Traced.refs o) :
    x ∈ s.heap.children r := by
  rw [Heap.children, ho]
  exact hx

/-! ## Stores -/

/-- The space after `o` has been stored in `owner` and the barrier called for the given handles. -/
def stored (s : Space) (owner : Ref) (o : Object) (handles : List Ref) : Space :=
  s.perform (.store owner o handles)

theorem stored_nil (s : Space) (owner : Ref) (o : Object) :
    s.stored owner o [] = s.setObject owner o := by
  simp only [stored, perform, Action.onHeap, Action.onRoots, setObject]
  cases s.heap.set owner o <;> rfl

theorem setObject_of_live {r : Ref} {old : Object} (hr : s.heap.get? r = some old) (o : Object) :
    s.setObject r o = { s with heap := s.heap.modifyEntry r fun e => { e with value := o } } := by
  have hlive : s.heap.contains r = true := Heap.contains_iff_get?.mpr ⟨old, hr⟩
  simp only [setObject, Heap.set, hlive, if_true]

/-- A handle that resolves to nothing changes nothing. -/
theorem setObject_of_stale {r : Ref} (hr : s.heap.get? r = none) (o : Object) :
    s.setObject r o = s := by
  have hlive : s.heap.contains r = false := by
    rw [Bool.eq_false_iff, ne_eq, Heap.contains_iff_get?]
    simp [hr]
  simp [setObject, Heap.set, hlive]

theorem stored_of_live {r : Ref} {old : Object} (hr : s.heap.get? r = some old) (o : Object)
    (handles : List Ref) :
    s.stored r o handles = { s.setObject r o with
      heap := handles.foldl (fun h x => h.writeBarrier r x) (s.setObject r o).heap } := by
  have hlive : s.heap.contains r = true := Heap.contains_iff_get?.mpr ⟨old, hr⟩
  rw [setObject_of_live hr]
  simp only [stored, perform, Action.onHeap, Action.onRoots, Heap.set, hlive, if_true]

theorem get?_setObject {r : Ref} {old : Object} (hr : s.heap.get? r = some old) (o : Object)
    (x : Ref) : (s.setObject r o).heap.get? x = if x = r then some o else s.heap.get? x := by
  rw [setObject_of_live hr, Heap.get?, Heap.resolve?_modifyEntry]
  split
  · obtain ⟨e, he, _⟩ := Heap.get?_eq_some.mp hr
    simp [he]
  · rfl

/-- Of two stores the last one counts. -/
theorem setObject_setObject {r : Ref} {old : Object} (hr : s.heap.get? r = some old)
    (o o' : Object) : (s.setObject r o).setObject r o' = s.setObject r o' := by
  have hr' : (s.setObject r o).heap.get? r = some o := by rw [get?_setObject hr, if_pos rfl]
  rw [setObject_of_live hr', setObject_of_live hr, setObject_of_live hr,
    Heap.modifyEntry_modifyEntry]
  rfl

theorem setObject_self {r : Ref} {o : Object} (hr : s.heap.get? r = some o) : s.setObject r o = s := by
  rw [setObject_of_live hr, Heap.modifyEntry_value_self hr]

/-- A space in which no object but one differs. -/
structure SameBut (r : Ref) (s t : Space) : Prop where
  others : ∀ x, x ≠ r → t.heap.resolve? x = s.heap.resolve? x
  roots : t.roots = s.roots
  limits : t.limits = s.limits

theorem SameBut.refl (r : Ref) (s : Space) : SameBut r s s :=
  ⟨fun _ _ => rfl, rfl, rfl⟩

theorem SameBut.trans {r : Ref} {s t u : Space} (h : SameBut r s t) (h' : SameBut r t u) :
    SameBut r s u :=
  ⟨fun x hx => (h'.others x hx).trans (h.others x hx), h'.roots.trans h.roots,
    h'.limits.trans h.limits⟩

theorem sameBut_setObject {r : Ref} {old : Object} (hr : s.heap.get? r = some old) (o : Object) :
    SameBut r s (s.setObject r o) := by
  rw [setObject_of_live hr]
  refine ⟨fun x hx => ?_, rfl, rfl⟩
  rw [Heap.resolve?_modifyEntry, if_neg hx]

theorem array_setObject {r : Ref} {old : Object} (hr : s.heap.get? r = some old) (a : SlotArray Ref) :
    (s.setObject r (.array a)).array r = .ok a := by
  rw [array_eq_ok, get?_setObject hr, if_pos rfl]

theorem moves_stored {r : Ref} {old o : Object} (handles : List Ref)
    (hr : s.heap.get? r = some old) (hknown : r ∈ known) (hhandles : ∀ x ∈ handles, x ∈ known)
    (hrefs : ∀ x ∈ Traced.refs o, x ∈ Traced.refs old ∨ x ∈ handles)
    (hfits : o.Roomy → o.Fits (s.bound brought)) :
    Moves brought known s known (s.stored r o handles) := by
  have hmoves : Moves brought known s (known ++ []) (s.stored r o handles) := by
    apply moves_perform (a := .store r o handles) hfits
    · intro x hx
      rcases List.mem_cons.mp hx with rfl | hx
      · exact hknown
      · exact hhandles x hx
    · intro x hx
      exact (hrefs x hx).imp_left fun hx => mem_children hr hx
  rwa [List.append_nil] at hmoves

/-- The effect of calling the barrier for some handles. -/
def barriers (s : Space) (owner : Ref) (handles : List Ref) : Space :=
  { s with heap := handles.foldl (fun h x => h.writeBarrier owner x) s.heap }

section

variable {β γ : Type}

theorem bind_of_ok {m : SpaceM β} {k : β → SpaceM γ} {b : β} {s' : Space} (h : m s = .ok b s') :
    (m >>= k) s = k b s' := by
  simp only [Bind.bind, EStateM.bind, h]

theorem bind_of_error {m : SpaceM β} {k : β → SpaceM γ} {e : Fault} {s' : Space}
    (h : m s = .error e s') : (m >>= k) s = .error e s' := by
  simp only [Bind.bind, EStateM.bind, h]

theorem bind_eq_ok_state {m : SpaceM β} {k : β → SpaceM γ} {c : γ} {t : Space}
    (h : (m >>= k) s = .ok c t) : ∃ b u, m s = .ok b u ∧ k b u = .ok c t := by
  cases hm : m s with
  | ok b u =>
    rw [bind_of_ok hm] at h
    exact ⟨b, u, rfl, h⟩
  | error e u =>
    rw [bind_of_error hm] at h
    cases h

theorem changeArray_of_missing {r : Ref} {e : Fault} (ha : s.array r = .error e)
    (work : ArrayLimits → ArrayM Ref β) : changeArray r work s = .error e s := by
  rw [changeArray, ha]

theorem changeArray_eq {r : Ref} {a : SlotArray Ref} (ha : s.array r = .ok a)
    (work : ArrayLimits → ArrayM Ref β) :
    changeArray r work s = match work s.limits a with
      | .ok b c => .ok b (s.setObject r (.array c))
      | .error e c => .error e (s.setObject r (.array c)) := by
  cases hrun : work s.limits a with
  | ok b c => simp only [changeArray, ha, hrun]
  | error e c => simp only [changeArray, ha, hrun]

/-- Work that leaves the array as it was if it fails: nothing changes, or the array is replaced. -/
theorem changeArray_cases (s : Space) (r : Ref) (work : ArrayLimits → ArrayM Ref β)
    (hwork : ∀ a e c, s.array r = .ok a → work s.limits a = .error e c → c = a) :
    (∃ e, changeArray r work s = .error e s) ∨
      ∃ a b c, s.array r = .ok a ∧ work s.limits a = .ok b c ∧
        changeArray r work s = .ok b (s.setObject r (.array c)) := by
  cases ha : s.array r with
  | error e => exact Or.inl ⟨e, changeArray_of_missing ha work⟩
  | ok a =>
    rw [changeArray_eq ha]
    cases hc : work s.limits a with
    | error e c =>
      cases hwork a e c ha hc
      exact Or.inl ⟨e, congrArg _ (setObject_self (array_eq_ok.mp ha))⟩
    | ok b c => exact Or.inr ⟨a, b, c, rfl, hc, rfl⟩

/-- A change of an array, followed by the barrier for the handles it was given. -/
theorem moves_changeArray {r : Ref} (handles : List Ref) {work : ArrayLimits → ArrayM Ref β}
    {k : β → SpaceM γ} (hknown : r ∈ known) (hhandles : ∀ x ∈ handles, x ∈ known)
    (hwork : ∀ a e c, s.array r = .ok a → work s.limits a = .error e c → c = a)
    (hrev : ∀ a b c, s.array r = .ok a → work s.limits a = .ok b c →
      SlotArray.Revision (s.bound brought) a handles c)
    (hk : ∀ b s', left (k b s') = s'.barriers r handles) :
    Moves brought known s known (left ((changeArray r work >>= k) s)) := by
  rcases changeArray_cases s r work hwork with ⟨e, herr⟩ | ⟨a, b, c, ha, hc, hok⟩
  · rw [bind_of_error herr]
    exact Moves.refl brought known s
  · have hobj := array_eq_ok.mp ha
    have hrev := hrev a b c ha hc
    rw [bind_of_ok hok, hk, barriers, ← stored_of_live hobj]
    exact moves_stored handles hobj hknown hhandles hrev.origin hrev.fits

theorem left_map (f : β → γ) (m : SpaceM β) (s : Space) : left ((f <$> m) s) = left (m s) := by
  simp only [Functor.map, EStateM.map]
  cases m s <;> rfl

theorem left_pure (b : β) (s' : Space) (r : Ref) :
    left ((pure b : SpaceM β) s') = s'.barriers r [] :=
  rfl

theorem left_barrier (r x : Ref) (s' : Space) : left (barrier r x s') = s'.barriers r [x] :=
  rfl

/-- The same for a change without new handles. -/
theorem moves_changeArray_self {r : Ref} {work : ArrayLimits → ArrayM Ref β} (hknown : r ∈ known)
    (hwork : (work s.limits).Restores)
    (hrev : ∀ a b c, s.array r = .ok a → work s.limits a = .ok b c →
      SlotArray.Revision (s.bound brought) a [] c) :
    Moves brought known s known (left (changeArray r work s)) := by
  have hmoves := moves_changeArray (k := pure) [] hknown (by simp) (fun a e c _ => hwork a e c) hrev
    fun b s' => left_pure b s' r
  rwa [bind_pure] at hmoves

end

/-! ## Operations that make objects -/

/-- All arrays of a space are consistent and have no more slots than they may have. -/
def Fit (brought : Nat) (s : Space) : Prop :=
  ∀ r o, s.heap.get? r = some o → o.Fits (s.bound brought)

section

variable (hg : Grounded known s)
include hg

theorem Grounded.known_of_refs {r x : Ref} {o : Object} (ho : s.heap.get? r = some o)
    (hx : x ∈ Traced.refs o) : x ∈ known :=
  hg.closed r x (mem_children ho hx)

theorem Grounded.known_of_allItems {r x : Ref} {a : SlotArray Ref} (ha : s.array r = .ok a)
    (hx : x ∈ a.allItems) : x ∈ known :=
  hg.known_of_refs (array_eq_ok.mp ha) hx

theorem Grounded.known_of_relation {r x : Ref} {a : Relation} (ha : s.relation r = .ok a)
    (hx : x ∈ Traced.refs a) : x ∈ known :=
  hg.known_of_refs (relation_eq_ok.mp ha) hx

theorem Grounded.known_of_supplier {r x : Ref} {a : Supplier} (ha : s.supplier r = .ok a)
    (hx : x ∈ Traced.refs a) : x ∈ known :=
  hg.known_of_refs (supplier_eq_ok.mp ha) hx

omit hg in
theorem obeys_newArray (size : Nat) :
    Obeys brought known s (newArray size) fun known' _ x => x ∈ known' := by
  refine obeys_ask fun a ha => ?_
  have hrev := SlotArray.revision_ofSize (s.maxElements_le_bound brought) ha
  exact obeys_alloc (fun x hx => by rcases hrev.origin x hx with hx | hx <;> cases hx) hrev.fits

omit hg in
theorem obeys_newShapedArray (sizes : List Nat) :
    Obeys brought known s (newShapedArray sizes) fun known' _ x => x ∈ known' := by
  refine obeys_ask fun a ha => ?_
  have hrev := SlotArray.revision_ofDimensions (s.maxElements_le_bound brought) ha
  exact obeys_alloc (fun x hx => by rcases hrev.origin x hx with hx | hx <;> cases hx) hrev.fits

omit hg in
theorem obeys_newRelation : Obeys brought known s newRelation fun known' _ x => x ∈ known' :=
  obeys_alloc (by simp [Traced.refs, Relation.entries]) fun _ => trivial

theorem obeys_allItems (r : Ref) : Obeys brought known s (allItems r) fun known' _ x => x ∈ known' :=
  obeys_ask fun _ ha => obeys_arrayOfItems fun _ hx => hg.known_of_allItems ha hx

omit hg in
theorem obeys_allIndexes (r : Ref) : Obeys brought known s (allIndexes r) fun known' _ x => x ∈ known' :=
  (obeys_indexObjects r).bind fun _ _ _ _ _ hrs => obeys_arrayOfItems hrs

omit hg in
theorem obeys_supplier {items indexes : List Ref} (hitems : ∀ x ∈ items, x ∈ known)
    (hindexes : ∀ x ∈ indexes, x ∈ known) :
    Obeys brought known s (alloc (.supplier (.ofLists items indexes))) fun known' _ x => x ∈ known' := by
  refine obeys_alloc (fun x hx => ?_) fun _ => trivial
  rcases List.mem_append.mp hx with hx | hx
  · exact hitems x hx
  · exact hindexes x hx

theorem obeys_arraySupplier (r : Ref) :
    Obeys brought known s (arraySupplier r) fun known' _ x => x ∈ known' := by
  refine obeys_ask fun a ha => ?_
  refine (obeys_indexObjects r).bind fun indexes known' s' _ hmoves hindexes => ?_
  exact obeys_supplier (fun x hx => hmoves.subset x (hg.known_of_allItems ha hx)) hindexes

theorem obeys_copy (hfit : s.Fit brought) (r : Ref) :
    Obeys brought known s (copy r) fun known' _ x => x ∈ known' := by
  refine obeys_ask fun a ha => ?_
  exact obeys_alloc (fun x hx => hg.known_of_allItems ha hx) fun _ => hfit r _ (array_eq_ok.mp ha)

theorem obeys_join (a b : Ref) : Obeys brought known s (join a b) fun known' _ x => x ∈ known' := by
  refine obeys_ask fun c hc => ?_
  obtain ⟨x, hx, hc⟩ := bind_eq_ok hc
  obtain ⟨y, hy, hc⟩ := bind_eq_ok hc
  have hrev := SlotArray.revision_join (s.maxElements_le_bound brought) hc
  refine obeys_alloc (fun z hz => ?_) hrev.fits
  rcases hrev.origin z hz with hz | hz
  · exact hg.known_of_allItems hx hz
  · exact hg.known_of_allItems hy hz

theorem obeys_slice (r : Ref) (start : Nat) (count : Option Nat) :
    Obeys brought known s (slice r start count) fun known' _ x => x ∈ known' := by
  refine obeys_ask fun c hc => ?_
  obtain ⟨a, ha, hc⟩ := bind_eq_ok hc
  have hrev := SlotArray.revision_slice (s.maxElements_le_bound brought) hc
  refine obeys_alloc (fun z hz => ?_) hrev.fits
  rcases hrev.origin z hz with hz | hz
  · exact hg.known_of_allItems ha hz
  · cases hz

theorem obeys_relatedItems (r index : Ref) :
    Obeys brought known s (relatedItems r index) fun known' _ x => x ∈ known' :=
  obeys_ask fun _ _ => obeys_ask fun _ ha => obeys_arrayOfItems fun _ hx =>
    hg.known_of_relation ha (Relation.mem_refs_of_itemsAt hx)

theorem obeys_relatedIndexes (r item : Ref) :
    Obeys brought known s (relatedIndexes r item) fun known' _ x => x ∈ known' :=
  obeys_ask fun _ _ => obeys_ask fun _ ha => obeys_arrayOfItems fun _ hx =>
    hg.known_of_relation ha (Relation.mem_refs_of_indexesOf hx)

theorem obeys_allRelatedItems (r : Ref) :
    Obeys brought known s (allRelatedItems r) fun known' _ x => x ∈ known' :=
  obeys_ask fun _ ha => obeys_arrayOfItems fun _ hx =>
    hg.known_of_relation ha (Relation.mem_refs_of_allItems hx)

theorem obeys_allRelatedIndexes (r : Ref) :
    Obeys brought known s (allRelatedIndexes r) fun known' _ x => x ∈ known' :=
  obeys_ask fun _ ha => obeys_arrayOfItems fun _ hx =>
    hg.known_of_relation ha (Relation.mem_refs_of_allIndexes hx)

theorem obeys_relationSupplier (r : Ref) (index : Option Ref) :
    Obeys brought known s (relationSupplier r index) fun known' _ x => x ∈ known' := by
  refine obeys_ask fun pairs hpairs => ?_
  have hknown : ∀ p ∈ pairs, p.1 ∈ known ∧ p.2 ∈ known := by
    have hfrom : ∃ a, s.relation r = .ok a ∧ ∀ p ∈ pairs, p ∈ a.pairs := by
      split at hpairs
      · obtain ⟨key, _, hpairs⟩ := bind_eq_ok hpairs
        obtain ⟨a, ha, hpairs⟩ := bind_eq_ok hpairs
        cases hpairs
        exact ⟨a, ha, fun p hp => Relation.mem_pairs_of_pairsAt hp⟩
      · obtain ⟨a, ha, hpairs⟩ := bind_eq_ok hpairs
        cases hpairs
        exact ⟨a, ha, fun p hp => hp⟩
    obtain ⟨a, ha, hsub⟩ := hfrom
    intro p hp
    obtain ⟨hindex, hitem⟩ := Relation.mem_refs_of_pairs (hsub p hp)
    exact ⟨hg.known_of_relation ha hindex, hg.known_of_relation ha hitem⟩
  refine obeys_supplier (fun x hx => ?_) fun x hx => ?_
  · obtain ⟨p, hp, rfl⟩ := List.mem_map.mp hx
    exact (hknown p hp).2
  · obtain ⟨p, hp, rfl⟩ := List.mem_map.mp hx
    exact (hknown p hp).1

theorem obeys_remainingItems (r : Ref) :
    Obeys brought known s (remainingItems r) fun known' _ x => x ∈ known' :=
  obeys_ask fun _ ha => obeys_arrayOfItems fun _ hx =>
    hg.known_of_supplier ha (List.mem_append_left _ hx)

theorem obeys_remainingIndexes (r : Ref) :
    Obeys brought known s (remainingIndexes r) fun known' _ x => x ∈ known' :=
  obeys_ask fun _ ha => obeys_arrayOfItems fun _ hx =>
    hg.known_of_supplier ha (List.mem_append_right _ hx)

end

/-! ## Operations that change arrays -/

section

variable (hfit : s.Fit brought) {r : Ref} (hr : r ∈ known)

theorem Fit.array (hfit : s.Fit brought) {r : Ref} {a : SlotArray Ref} (ha : s.array r = .ok a) :
    a.Fits (s.bound brought) :=
  hfit r _ (array_eq_ok.mp ha)

/-- A query in front of something that moves lawfully. -/
theorem moves_ask {β γ : Type} {known' : List Ref} {query : Space → Except Fault β}
    {k : β → SpaceM γ} (hs : Moves brought known s known' s)
    (hk : ∀ b, query s = .ok b → Moves brought known s known' (left (k b s))) :
    Moves brought known s known' (left ((ask query >>= k) s)) := by
  simp only [Bind.bind, EStateM.bind, ask]
  cases hq : query s with
  | error e => exact hs
  | ok b => exact hk b hq

include hfit hr

theorem moves_store {value : Ref} (hvalue : value ∈ known) (index : ArrayIndex) :
    Moves brought known s known (left (store r value index s)) := by
  refine moves_ask (Moves.refl brought known s) fun subscripts _ => ?_
  refine moves_changeArray [value] hr (by simpa using hvalue) ?_ ?_
    fun _ s' => left_barrier r value s'
  · intro a e c ha hc
    exact ArrayM.store_error (hfit.array ha).shaped hc
  · intro a b c ha hc
    obtain ⟨p, b, hb, rfl⟩ := ArrayM.store_eq_ok hc
    exact SlotArray.revision_validateIndex_put (s.maxElements_le_bound brought) (hfit.array ha) hb value

theorem moves_removeAt (index : ArrayIndex) :
    Moves brought known s known (left (removeAt r index s)) := by
  refine moves_ask (Moves.refl brought known s) fun subscripts _ => ?_
  refine moves_changeArray_self hr (ArrayM.restores_remove subscripts) fun a b c ha hc => ?_
  rcases ArrayM.remove_eq_ok hc with ⟨p, _, _, rfl⟩ | ⟨_, _, rfl⟩
  · exact SlotArray.revision_clear (hfit.array ha) p
  · exact (hfit.array ha).revision_self

theorem moves_append {value : Ref} (hvalue : value ∈ known) :
    Moves brought known s known (left (append r value s)) := by
  refine moves_changeArray [value] hr (by simpa using hvalue) ?_ ?_ fun _ s' => ?_
  · exact fun a e c _ => ArrayM.restores_append value s.limits a e c
  · intro a b c ha hc
    exact SlotArray.revision_append (s.maxElements_le_bound brought) (hfit.array ha)
      (ArrayM.outcome_of_ok hc)
  · rfl

theorem moves_insert {value : Option Ref} (hvalue : ∀ x ∈ value.toList, x ∈ known)
    (target : InsertAt) : Moves brought known s known (left (insert r value target s)) := by
  refine moves_changeArray value.toList hr hvalue ?_ ?_ fun _ s' => ?_
  · exact fun a e c _ => ArrayM.restores_insert value target s.limits a e c
  · intro a b c ha hc
    exact SlotArray.revision_insert (s.maxElements_le_bound brought) (hfit.array ha)
      (ArrayM.outcome_of_ok hc)
  · cases value <;> rfl

theorem moves_delete (position : Nat) : Moves brought known s known (left (delete r position s)) :=
  moves_changeArray_self hr (ArrayM.restores_delete position) fun _ _ _ ha hc =>
    SlotArray.revision_delete (hfit.array ha) (ArrayM.outcome_of_ok hc)

theorem moves_removeItem (value : Ref) :
    Moves brought known s known (left (removeItem r value s)) := by
  refine moves_ask (Moves.refl brought known s) fun found _ => ?_
  cases found with
  | none => exact Moves.refl brought known s
  | some p =>
    refine moves_changeArray_self hr (ArrayM.succeeds_clear p).restores fun a b c ha hc => ?_
    cases hc
    exact SlotArray.revision_clear (hfit.array ha) p

theorem moves_fill {value : Ref} (hvalue : value ∈ known) :
    Moves brought known s known (left (fill r value s)) := by
  refine moves_changeArray [value] hr (by simpa using hvalue) ?_ ?_
    fun _ s' => left_barrier r value s'
  · exact fun a e c _ => (ArrayM.succeeds_modify _).restores a e c
  · intro a b c ha hc
    cases hc
    exact SlotArray.revision_overlay (hfit.array ha) (some value) rfl rfl rfl

theorem moves_clearAll : Moves brought known s known (left (clearAll r s)) := by
  refine moves_changeArray_self hr (ArrayM.succeeds_modify _).restores fun a b c ha hc => ?_
  cases hc
  exact SlotArray.revision_overlay (hfit.array ha) none rfl rfl rfl

/-- A sort leaves the sorted array behind, whether it succeeds or fails. -/
theorem moves_sortBy {σ : Type} {stable : Bool} {compare : Space → Sorting.Comparator Fault σ Ref}
    {memory memory' : σ} {s' : Space}
    (h : sortBy r stable compare (s, memory) = .ok () (s', memory') ∨
      ∃ e, sortBy r stable compare (s, memory) = .error e (s', memory')) :
    Moves brought known s known s' := by
  simp only [sortBy] at h
  cases hd : s.array r >>= SlotArray.detach with
  | error e =>
    rw [hd] at h
    rcases h with h | ⟨e, h⟩
    · cases h
    · cases h
      exact Moves.refl brought known s
  | ok p =>
    obtain ⟨d, emptied⟩ := p
    rw [hd] at h
    obtain ⟨a, ha, hd⟩ := bind_eq_ok hd
    have hobj := array_eq_ok.mp ha
    have hrev := SlotArray.revision_sorted (hfit.array ha) stable
      (compare (s.setObject r (.array emptied))) memory
    have hmoves := moves_stored (o := .array _) [] hobj hr (by simp) hrev.origin hrev.fits
    rw [stored_nil] at hmoves
    simp only [SlotArray.sorted, hd] at hmoves
    dsimp only at h
    rw [show s' = s.setObject r (.array (emptied.attach (Detached.settled
      (Detached.sort stable (compare (s.setObject r (.array emptied))) (d, memory))))) from ?_]
    · exact hmoves
    · split at h
      · next hsort =>
        rcases h with h | ⟨e, h⟩
        · cases h
          rw [hsort, setObject_setObject hobj]
          rfl
        · cases h
      · next hsort =>
        rcases h with h | ⟨e, h⟩
        · cases h
        · cases h
          rw [hsort, setObject_setObject hobj]
          rfl

theorem moves_sort (stable : Bool) : Moves brought known s known (left (sort r stable s)) := by
  unfold sort
  dsimp only
  split
  · next hok => exact moves_sortBy hfit hr (Or.inl hok)
  · next e s' memory herr => exact moves_sortBy hfit hr (Or.inr ⟨e, herr⟩)

theorem moves_sortWith {σ : Type} (stable : Bool) (comparator : ObjectComparator σ) (memory : σ) :
    Moves brought known s known (left ((Operation.sortWith r stable comparator memory).run s)) := by
  simp only [Operation.run]
  split
  · next hok => exact moves_sortBy hfit hr (Or.inl hok)
  · next e s' memory herr => exact moves_sortBy hfit hr (Or.inr ⟨e, herr⟩)

omit hfit hr in
theorem append_eq {value : Ref} {a : SlotArray Ref} (ha : s.array r = .ok a) :
    append r value s = match a.append value s.limits with
      | .ok (position, b) => .ok position (s.stored r (.array b) [value])
      | .error e => .error e s := by
  have hobj := array_eq_ok.mp ha
  have hchange := changeArray_eq ha (ArrayM.append value)
  rw [(ArrayM.restores_append value s.limits).apply_eq] at hchange
  rw [append, SlotArray.append]
  cases hrun : (ArrayM.append value s.limits).outcome a with
  | error e =>
    rw [hrun] at hchange
    rw [bind_of_error hchange, setObject_self hobj]
  | ok p =>
    obtain ⟨position, b⟩ := p
    rw [hrun] at hchange
    rw [bind_of_ok hchange]
    dsimp only
    rw [stored_of_live hobj]
    rfl

omit hfit hr in
theorem forM_barrier (items : List Ref) (s' : Space) :
    (items.forM (barrier r) : SpaceM Unit) s' = .ok () (s'.barriers r items) := by
  induction items generalizing s' with
  | nil => rfl
  | cons x rest ih => exact ih (s'.barriers r [x])

omit hfit hr in
/-- The items are appended within the array, and the barriers come after all of them. -/
theorem appendAll_eq {other : Ref} {a b : SlotArray Ref} (ha : s.array r = .ok a)
    (hb : s.array other = .ok b) :
    appendAll r other s = match ArrayM.appendAll b.allItems s.limits a with
      | .ok _ c => .ok () (s.stored r (.array c) b.allItems)
      | .error e c => .error e (s.setObject r (.array c)) := by
  have hask : ask (·.array other) s = .ok b s := by rw [ask, hb]
  rw [appendAll, bind_of_ok hask]
  cases hrun : ArrayM.appendAll b.allItems s.limits a with
  | ok u c =>
    have hchange : changeArray r (ArrayM.appendAll b.allItems) s =
        .ok () (s.setObject r (.array c)) := by rw [changeArray_eq ha, hrun]
    rw [bind_of_ok hchange, forM_barrier, barriers, ← stored_of_live (array_eq_ok.mp ha)]
  | error e c =>
    have hchange : changeArray r (ArrayM.appendAll b.allItems) s =
        .error e (s.setObject r (.array c)) := by rw [changeArray_eq ha, hrun]
    rw [bind_of_error hchange]

omit hr in
/-- Whatever becomes of it, the array holds nothing but its items and those of the other one. -/
theorem left_appendAll {other : Ref} {a b : SlotArray Ref} (ha : s.array r = .ok a)
    (hb : s.array other = .ok b) :
    ∃ c handles, left (appendAll r other s) = s.stored r (.array c) handles ∧
      SlotArray.Revision (s.bound brought) a b.allItems c := by
  have hrev := ArrayM.revision_appendAll (s.maxElements_le_bound brought) (hfit.array ha) b.allItems
  rw [ArrayM.left] at hrev
  rw [appendAll_eq ha hb]
  cases hrun : ArrayM.appendAll b.allItems s.limits a with
  | ok u c =>
    rw [hrun] at hrev
    exact ⟨c, b.allItems, rfl, hrev⟩
  | error e c =>
    rw [hrun] at hrev
    exact ⟨c, [], (stored_nil s r (.array c)).symm, hrev⟩

/-- Unless the array stops half-way, none of the items is refused after another has been appended. -/
theorem moves_appendAll (hg : Grounded known s) {other : Ref}
    (hwhole : ∀ a b, s.array r = .ok a → s.array other = .ok b →
      ¬a.StopsHalfway b.allItems.length s.limits) :
    Moves brought known s known (left (appendAll r other s)) := by
  cases hb : s.array other with
  | error e =>
    have hask : ask (·.array other) s = .error e s := by rw [ask, hb]
    rw [appendAll, bind_of_error hask]
    exact Moves.refl brought known s
  | ok b =>
    cases ha : s.array r with
    | error e =>
      have hask : ask (·.array other) s = .ok b s := by rw [ask, hb]
      rw [appendAll, bind_of_ok hask, bind_of_error (changeArray_of_missing ha _)]
      exact Moves.refl brought known s
    | ok a =>
      have hobj := array_eq_ok.mp ha
      have hfits := hfit.array ha
      have hmax := s.maxElements_le_bound brought
      rw [appendAll_eq ha hb]
      rcases ArrayM.appendAll_cases b.allItems s.limits a with
        ⟨c, d, hc, hd, hrun⟩ | ⟨e, hrun⟩ | ⟨e, c, hc, hrun⟩ | ⟨_, _, _, _, hstops, _⟩
      · have hrev := hd.revision hmax hfits hc
        rw [hrun]
        exact moves_stored _ hobj hr (fun x hx => hg.known_of_allItems hb hx) hrev.origin hrev.fits
      · rw [hrun, left, setObject_self hobj]
        exact Moves.refl brought known s
      · have hrev := SlotArray.revision_ensureSpace hmax hfits hc
        rw [hrun, left, ← stored_nil]
        exact moves_stored [] hobj hr (by simp) hrev.origin hrev.fits
      · exact absurd hstops (hwhole a b ha hb)

end

/-! ## Operations that change other objects -/

theorem moves_changeRelation {β γ : Type} {r : Ref} (handles : List Ref)
    {change : Relation → β × Relation} {k : β → SpaceM γ} (hr : r ∈ known)
    (hhandles : ∀ x ∈ handles, x ∈ known)
    (hchange : ∀ a, ∀ x ∈ Traced.refs (change a).2, x ∈ Traced.refs a ∨ x ∈ handles)
    (hk : ∀ b s', left (k b s') = s'.barriers r handles) :
    Moves brought known s known (left ((changeRelation r change >>= k) s)) := by
  simp only [Bind.bind, EStateM.bind, changeRelation]
  cases ha : s.relation r with
  | error e => exact Moves.refl brought known s
  | ok a =>
    have hobj := relation_eq_ok.mp ha
    dsimp only
    rw [hk, barriers, ← stored_of_live hobj]
    exact moves_stored handles hobj hr hhandles (hchange a) fun _ => trivial

theorem moves_relate {r item index : Ref} (hr : r ∈ known) (hitem : item ∈ known)
    (hindex : index ∈ known) : Moves brought known s known (left (relate r item index s)) := by
  refine moves_ask (Moves.refl brought known s) fun itemKey _ => ?_
  refine moves_ask (Moves.refl brought known s) fun key _ => ?_
  refine moves_changeRelation [item, index] hr ?_
    (fun a x hx => Relation.mem_refs_of_put hx) fun _ s' => rfl
  intro x hx
  simp only [List.mem_cons, List.not_mem_nil, or_false] at hx
  rcases hx with rfl | rfl <;> assumption

theorem moves_removeWhere {r : Ref} (hr : r ∈ known) {key : RelationKey}
    {p : RelationEntry → Bool} :
    Moves brought known s known (left (changeRelation r (·.removeWhere key p) s)) := by
  rw [← bind_pure (changeRelation r (·.removeWhere key p))]
  exact moves_changeRelation [] hr (by simp)
    (fun a x hx => Or.inl (Relation.mem_refs_of_removeWhere hx)) fun b s' => left_pure b s' r

theorem moves_unrelate {r : Ref} (hr : r ∈ known) (index : Ref) :
    Moves brought known s known (left (unrelate r index s)) :=
  moves_ask (Moves.refl brought known s) fun _ _ => moves_removeWhere hr

theorem moves_unrelateItem {r : Ref} (hr : r ∈ known) (item index : Ref) :
    Moves brought known s known (left (unrelateItem r item index s)) :=
  moves_ask (Moves.refl brought known s) fun _ _ => moves_ask (Moves.refl brought known s) fun _ _ =>
    moves_removeWhere hr

/-- A supplier that passes an item holds less than before. -/
theorem moves_advance {r : Ref} (hr : r ∈ known) : Moves brought known s known (left (advance r s)) := by
  unfold advance
  cases hn : s.supplier r >>= Supplier.next with
  | error e => exact Moves.refl brought known s
  | ok next =>
    obtain ⟨a, ha, hnext⟩ := bind_eq_ok hn
    have hobj := supplier_eq_ok.mp ha
    rw [left, ← stored_nil]
    refine moves_stored [] hobj hr (by simp) (fun x hx => Or.inl ?_) fun _ => trivial
    exact Supplier.mem_refs_of_next hnext hx

theorem moves_tenure {r : Ref} (hr : r ∈ known) : Moves brought known s known (left (tenure r s)) := by
  have hleft : left (tenure r s) = s.perform (.tenure r) := by
    simp only [tenure, perform, Action.onHeap, Action.onRoots]
    cases s.heap.tenure r <;> rfl
  have hmoves : Moves brought known s (known ++ []) (s.perform (.tenure r)) :=
    moves_perform trivial (by simpa [Action.refs] using hr) trivial
  rw [List.append_nil] at hmoves
  rwa [hleft]

end Space

end Managed
