import Managed.Proofs.SlotArray.Sorted
import Managed.Proofs.SlotArray.Subscripts

/-!
# The representation of arrays

An array keeps five things that have to agree: its storage, its size, the number of its items, the
position of the last one and its dimensions. They do agree for every array that is made from nothing
by the operations on arrays and changed by any number of them, whether these succeed or fail
(`representation_of_built`).

Counting again, as some operations do, is right wherever the array is padded (`counted_recount`). The
others keep the count and the last position up to date slot by slot.
-/

namespace Managed.SlotArray

variable {α : Type}

/-- The number of items and the position of the last one are what they should be. -/
structure Counted (a : SlotArray α) : Prop where
  items_eq : a.items = held a.storage
  lt_last : ∀ i, (a.slotAt i).isSome = true → i < a.last
  last_held : a.last ≠ 0 → (a.slotAt (a.last - 1)).isSome = true

/-- An array of which the same slots are occupied. -/
theorem Counted.congr {a b : SlotArray α} (ha : a.Counted)
    (hslot : ∀ i, (b.slotAt i).isSome = (a.slotAt i).isSome) (hitems : b.items = a.items)
    (hlast : b.last = a.last) : b.Counted where
  items_eq := by rw [hitems, ha.items_eq, held_congr hslot]
  lt_last i hi := by
    rw [hslot] at hi
    rw [hlast]
    exact ha.lt_last i hi
  last_held h := by
    rw [hlast] at h ⊢
    rw [hslot]
    exact ha.last_held h

/-! ## Counting again -/

/-- The greatest occupied position up to `n`, if there is one. -/
theorem lastOccupied_spec (block : Array (Option α)) (n : Nat) :
    (lastOccupied block n).getD 0 ≤ n ∧
      ((lastOccupied block n).getD 0 ≠ 0 →
        (cell block ((lastOccupied block n).getD 0 - 1)).isSome = true) ∧
      ∀ i < n, (cell block i).isSome = true → i < (lastOccupied block n).getD 0 := by
  induction n with
  | zero => simp [lastOccupied]
  | succ p ih =>
    unfold lastOccupied
    split
    · next hp =>
      refine ⟨Nat.le_refl _, fun _ => hp, fun i hi _ => hi⟩
    · next hp =>
      obtain ⟨hle, hheld, hlt⟩ := ih
      refine ⟨Nat.le_succ_of_le hle, hheld, fun i hi hsome => ?_⟩
      by_cases hip : i = p
      · subst hip
        exact absurd hsome hp
      · exact hlt i (by omega) hsome

/-- Beyond its size a padded array has nothing to count. -/
theorem Padded.held_slots {a : SlotArray α} (ha : a.Padded) : held a.slots = held a.storage := by
  refine held_congr fun i => ?_
  rw [slots, cell_extract, Nat.zero_add]
  split
  · rfl
  · next hi =>
    have hnone : cell a.storage i = none := ha.spare i (Nat.le_of_not_lt hi)
    rw [hnone]

theorem counted_recount {a : SlotArray α} (ha : a.Padded) : a.recount.Counted := by
  obtain ⟨_, hheld, hlt⟩ := lastOccupied_spec a.storage a.size
  exact ⟨ha.held_slots, fun i hi => hlt i (ha.lt_size hi) hi, hheld⟩

/-! ## Putting and clearing -/

theorem held_set {block : Array (Option α)} {i : Nat} (h : i < block.size) (value : Option α) :
    held (block.setIfInBounds i value) + (cell block i).isSome.toNat =
      held block + value.isSome.toNat := by
  have hcell : cell block i = block[i] := by
    rw [cell, Array.getElem?_eq_getElem h]
    rfl
  have hpos : block[i].isSome = true → 0 < held block := fun hsome =>
    Array.countP_pos_iff.mpr ⟨block[i], Array.getElem_mem h, hsome⟩
  rw [hcell, Array.setIfInBounds, dif_pos h, held, Array.countP_set]
  change held block - _ + _ + _ = _
  cases hs : block[i].isSome <;> cases value.isSome <;> simp [hs] at hpos ⊢ <;> omega

theorem slotAt_put_of_le {a : SlotArray α} (ha : a.Padded) {position : Nat} (value : Option α)
    (hpos : 1 ≤ position) (hle : position ≤ a.size) (i : Nat) :
    (a.put position value).slotAt i = if i = position - 1 then value else a.slotAt i := by
  have hcap := ha.size_le
  rw [slotAt_put]
  by_cases hi : i = position - 1
  · rw [if_pos ⟨hi, by omega⟩, if_pos hi]
  · rw [if_neg fun h => hi h.1, if_neg hi]

theorem counted_put {a : SlotArray α} (ha : a.Padded) (hc : a.Counted) {position : Nat}
    (value : Option α) (hpos : 1 ≤ position) (hle : position ≤ a.size) :
    (a.put position value).Counted := by
  have hslot := slotAt_put_of_le ha value hpos hle
  have hitems : (a.put position value).items = held (a.put position value).storage := by
    have hcap : a.size ≤ a.storage.size := ha.size_le
    have hset := held_set (show position - 1 < a.storage.size by omega) value
    change a.items + value.isSome.toNat - (cell a.storage (position - 1)).isSome.toNat = _
    rw [hc.items_eq, ← hset, Nat.add_sub_cancel]
    rfl
  cases value with
  | some x =>
    have hlast : (a.put position (some x)).last = max a.last position := rfl
    refine ⟨hitems, fun i hi => ?_, fun _ => ?_⟩
    · rw [hslot] at hi
      rw [hlast]
      split at hi
      · omega
      · have hlt := hc.lt_last i hi
        omega
    · rw [hslot, hlast]
      split
      · rfl
      · rw [show max a.last position = a.last by omega]
        exact hc.last_held (by omega)
  | none =>
    by_cases hp : position = a.last
    · -- the last item goes: the one before it is looked for among the slots in front
      have hlast : (a.put position none).last =
          (lastOccupied (a.put position none).storage (position - 1)).getD 0 := by
        have hmin : min position (a.size + 1) - 1 = position - 1 := by omega
        simp only [put, Option.isSome_none, Bool.false_eq_true, if_false, if_pos hp, hmin]
      obtain ⟨_, hheld, hlt⟩ := lastOccupied_spec (a.put position none).storage (position - 1)
      rw [← hlast] at hheld hlt
      refine ⟨hitems, fun i hi => hlt i ?_ hi, hheld⟩
      rw [hslot] at hi
      split at hi
      · cases hi
      · have hlt := hc.lt_last i hi
        omega
    · have hlast : (a.put position none).last = a.last := by
        simp only [put, Option.isSome_none, Bool.false_eq_true, if_false, if_neg hp]
      refine ⟨hitems, fun i hi => ?_, fun h => ?_⟩
      · rw [hslot] at hi
        rw [hlast]
        split at hi
        · cases hi
        · exact hc.lt_last i hi
      · rw [hlast] at h ⊢
        rw [hslot, if_neg (by omega)]
        exact hc.last_held h

theorem counted_clear {a : SlotArray α} (ha : a.Padded) (hc : a.Counted) (position : Nat) :
    (a.clear position).2.Counted := by
  rcases clear_cases a position with ⟨hpos, hle, heq⟩ | ⟨_, heq⟩
  · rw [heq]
    exact counted_put ha hc none hpos hle
  · rw [heq]
    exact hc

theorem counted_clearEach {a : SlotArray α} (ha : a.Padded) (hc : a.Counted) (positions : List Nat) :
    (a.clearEach positions).Counted := by
  induction positions generalizing a with
  | nil => exact hc
  | cons position positions ih => exact ih (padded_clear ha position) (counted_clear ha hc position)

/-- The slots that a shrink drops are cleared one by one, so there is nothing to count again. -/
theorem counted_shrink {a b : SlotArray α} (ha : a.Padded) (hc : a.Counted) {amount : Nat}
    (h : a.shrink amount = .ok b) : b.Counted := by
  obtain ⟨_, rfl⟩ := shrink_eq_ok h
  have hcleared := counted_clearEach ha hc
    (List.range' (a.size - amount + 1) (a.size - (a.size - amount)))
  exact ⟨hcleared.items_eq, hcleared.lt_last, hcleared.last_held⟩

theorem counted_fill {a : SlotArray α} (ha : a.Padded) (value : α) : (a.fill value).Counted := by
  have hslot : ∀ i, (a.fill value).slotAt i = if i < a.size then some value else none := by
    intro i
    change cell (Array.replicate a.size (some value) ++ a.storage.extract a.size) i = _
    rw [cell_overlay]
    split
    · rfl
    · next hi => exact ha.spare i (Nat.le_of_not_lt hi)
  refine ⟨?_, fun i hi => ?_, fun h => ?_⟩
  · have hspare : held (a.storage.extract a.size) = 0 := by
      refine held_eq_zero fun i => ?_
      rw [cell_extract]
      split
      · exact ha.spare _ (Nat.le_add_right _ _)
      · rfl
    change a.size = held (Array.replicate a.size (some value) ++ a.storage.extract a.size)
    rw [held_append, hspare, held, Array.countP_replicate]
    rfl
  · rw [hslot] at hi
    split at hi
    · assumption
    · cases hi
  · change a.size ≠ 0 at h
    change ((a.fill value).slotAt (a.size - 1)).isSome = true
    rw [hslot, if_pos (by omega)]
    rfl

/-- An array without items. -/
theorem counted_of_holes {a : SlotArray α} (hslot : ∀ i, a.slotAt i = none) (hitems : a.items = 0)
    (hlast : a.last = 0) : a.Counted where
  items_eq := by rw [hitems, held_eq_zero hslot]
  lt_last i hi := by
    rw [hslot] at hi
    cases hi
  last_held h := absurd hlast h

theorem counted_clearAll {a : SlotArray α} (ha : a.Padded) : a.clearAll.Counted := by
  refine counted_of_holes (fun i => ?_) rfl rfl
  change cell (Array.replicate a.size none ++ a.storage.extract a.size) i = none
  rw [cell_overlay]
  split
  · rfl
  · next hi => exact ha.spare i (Nat.le_of_not_lt hi)

/-! ## Growing, inserting and deleting -/

theorem counted_withRoom {a : SlotArray α} (ha : a.Padded) (hc : a.Counted) (size : Nat)
    (limits : ArrayLimits) : (a.withRoom size limits).Counted := by
  exact hc.congr (fun i => by rw [slotAt_withRoom ha]) (items_withRoom a size limits)
    (last_withRoom a size limits)

theorem counted_extend {a b : SlotArray α} (ha : a.Padded) (hc : a.Counted) {extension : Nat}
    {limits : ArrayLimits} (h : a.extend extension limits = .ok b) :
    b.Counted ∧ b.items = a.items ∧ b.last = a.last := by
  obtain ⟨_, _, rfl⟩ := extend_eq_ok h
  have hroom := counted_withRoom ha hc (Word.addSat a.size extension) limits
  exact ⟨⟨hroom.items_eq, hroom.lt_last, hroom.last_held⟩, items_withRoom a _ limits,
    last_withRoom a _ limits⟩

theorem counted_append {a b : SlotArray α} (ha : a.Padded) (hc : a.Counted) {value : α}
    {limits : ArrayLimits} {position : Nat} (h : a.append value limits = .ok (position, b))
    (hroom : b.capacity < Word.max) : b.Counted := by
  obtain ⟨_, _, e, he, rfl⟩ := append_eq_ok h
  rw [capacity_put] at hroom
  rcases he with ⟨hlt, rfl⟩ | ⟨hle, he⟩
  · exact counted_put ha hc _ (by omega) hlt
  · have hsize := size_extend ha he hroom
    exact counted_put (padded_extend ha he hroom) (counted_extend ha hc he).1 _ (by omega) (by omega)

theorem counted_insert {a b : SlotArray α} (ha : a.Padded) (hc : a.Counted) {value : Option α}
    {target : InsertAt} {limits : ArrayLimits} {position : Nat}
    (h : a.insert value target limits = .ok (position, b))
    (hsize : b.size = a.size + Nat.max 1 (position - a.size)) : b.Counted := by
  obtain ⟨_, hpos, e, g, he, hg, rfl⟩ := insert_eq_ok h
  have hsize' := (size_openGap he hg).symm.trans hsize
  have hgap := gapped_openGap ha hpos he hsize' hg
  obtain ⟨hin, hpad⟩ := hgap.padded ha he hsize'
  obtain ⟨hce, hitems, hlast⟩ := counted_extend ha hc he
  refine counted_put hpad ⟨?_, fun i hi => ?_, fun hne => ?_⟩ value hpos hin
  · rw [hgap.items, hgap.held, hce.items_eq]
  · rw [hgap.slotAt] at hi
    rw [hgap.last, hlast]
    split at hi
    · have hlt := hc.lt_last i hi
      split <;> omega
    · split at hi
      · cases hi
      · split at hi
        · have hlt := hc.lt_last (i - 1) hi
          rw [if_pos (by omega)]
          omega
        · cases hi
  · rw [hgap.last, hlast] at hne ⊢
    have hzero : a.last ≠ 0 := by
      split at hne <;> omega
    have hheld := hc.last_held hzero
    have hin := ha.lt_size hheld
    rw [hgap.slotAt]
    split
    · rw [if_neg (by omega), if_neg (by omega), if_pos (by omega)]
      exact hheld
    · rw [if_pos (by omega)]
      exact hheld

theorem held_close {block : Array (Option α)} {position size : Nat} (hpos : 1 ≤ position)
    (hle : position ≤ size) (hsize : size ≤ block.size) (hhole : cell block (position - 1) = none) :
    held (block.extract 0 (position - 1) ++ block.extract position size ++ #[none] ++
        block.extract size) = held block := by
  have hnone : held (#[none] : Array (Option α)) = 0 := rfl
  have hall : held block = held (block.extract 0 block.size) := by rw [Array.extract_size]
  have hone := held_hole hhole
  rw [Nat.sub_add_cancel hpos] at hone
  rw [held_append, held_append, held_append, hnone, hall,
    held_extract (Nat.zero_le (position - 1)) (by omega : position - 1 ≤ block.size),
    held_extract (by omega : position - 1 ≤ position) (by omega : position ≤ block.size),
    held_extract hle hsize, hone]
  omega

theorem counted_delete {a b : SlotArray α} (ha : a.Padded) (hc : a.Counted) {position : Nat}
    {removed : Option α} (h : a.delete position = .ok (removed, b)) : b.Counted := by
  have hslot := slotAt_delete ha h
  obtain ⟨_, hpos, hle, c, rfl, hb⟩ := delete_eq_ok h
  have hcc := counted_clear ha hc position
  have hcs := slotAt_clear ha hpos hle
  obtain ⟨hcap, hsize⟩ := capacity_clear a position
  have hpc := padded_clear ha position
  have hlast : b.last = if position < (a.clear position).2.last then
      (a.clear position).2.last - 1 else (a.clear position).2.last := by rw [hb, shiftDown]
  refine ⟨?_, fun i hi => ?_, fun hne => ?_⟩
  · have hhole : cell (a.clear position).2.storage (position - 1) = none :=
      (hcs (position - 1)).trans (if_pos rfl)
    rw [hb]
    change (a.clear position).2.items = held _
    rw [shiftDown, held_close hpos (by omega) hpc.size_le hhole, hcc.items_eq]
  · rw [hslot] at hi
    rw [hlast]
    split at hi
    · have hlt := hcc.lt_last i (by rw [hcs, if_neg (by omega)]; exact hi)
      split <;> omega
    · split at hi
      · have hlt := hcc.lt_last (i + 1) (by rw [hcs, if_neg (by omega)]; exact hi)
        rw [if_pos (by omega)]
        omega
      · cases hi
  · have hzero : (a.clear position).2.last ≠ 0 := by
      rw [hlast] at hne
      split at hne <;> omega
    have hheld := hcc.last_held hzero
    have hin := hpc.lt_size hheld
    have hother : (a.clear position).2.last - 1 ≠ position - 1 := by
      intro heq
      rw [heq, hcs, if_pos rfl] at hheld
      cases hheld
    rw [hcs, if_neg hother] at hheld
    rw [hslot, hlast]
    split
    · rw [if_neg (by omega), if_pos (by omega)]
      rwa [show (a.clear position).2.last - 1 - 1 + 1 = (a.clear position).2.last - 1 by omega]
    · rw [if_pos (by omega)]
      exact hheld

/-! ## Histories of arrays -/

/-- One change of an array, with the limits it is made under. -/
inductive Change (α : Type) : Type 1 where
  | put (position : Nat) (value : Option α)
  | clear (position : Nat)
  | fill (value : α)
  | clearAll
  | ensureSpace (size : Nat) (limits : ArrayLimits)
  | extend (extension : Nat) (limits : ArrayLimits)
  | cover (subscripts : List Nat) (limits : ArrayLimits)
  | shrink (amount : Nat)
  | append (value : α) (limits : ArrayLimits)
  | insert (value : Option α) (target : InsertAt) (limits : ArrayLimits)
  | delete (position : Nat)
  | validateIndex (subscripts : List Subscript) (access : IndexAccess) (limits : ArrayLimits)
  | sort {ε σ : Type} (stable : Bool) (compare : Sorting.Comparator ε σ α) (memory : σ)

namespace Change

/-- What a change makes of an array, if it does not fail. A sort makes an array of it even if the
comparator fails. -/
def result (a : SlotArray α) : Change α → Except Fault (SlotArray α)
  | put position value => .ok (a.put position value)
  | clear position => .ok (a.clear position).2
  | fill value => .ok (a.fill value)
  | clearAll => .ok a.clearAll
  | ensureSpace size limits => a.ensureSpace size limits
  | extend extension limits => a.extend extension limits
  | cover subscripts limits => a.cover subscripts limits
  | shrink amount => a.shrink amount
  | append value limits => Prod.snd <$> a.append value limits
  | insert value target limits => Prod.snd <$> a.insert value target limits
  | delete position => Prod.snd <$> a.delete position
  | validateIndex subscripts access limits => Prod.snd <$> a.validateIndex subscripts access limits
  | sort stable compare memory => .ok (a.sorted stable compare memory)

/-- The change as work in place. -/
def work : Change α → ArrayM α Unit
  | put position value => modify (·.put position value)
  | clear position => do let _ ← ArrayM.clear position
  | fill value => modify (·.fill value)
  | clearAll => modify SlotArray.clearAll
  | ensureSpace size limits => ArrayM.ensureSpace size limits
  | extend extension limits => ArrayM.extend extension limits
  | cover subscripts limits => ArrayM.cover subscripts limits
  | shrink amount => ArrayM.shrink amount
  | append value limits => do let _ ← ArrayM.append value limits
  | insert value target limits => do let _ ← ArrayM.insert value target limits
  | delete position => do let _ ← ArrayM.delete position
  | validateIndex subscripts access limits => do
    let _ ← ArrayM.validateIndex subscripts access limits
  | sort stable compare memory => modify (·.sorted stable compare memory)

/-- The array that a change leaves, which may have failed. -/
def applyTo (a : SlotArray α) (c : Change α) : SlotArray α :=
  c.work.left a

def limits? : Change α → Option ArrayLimits
  | ensureSpace _ limits | extend _ limits | cover _ limits | append _ limits | insert _ _ limits
  | validateIndex _ _ limits => some limits
  | put _ _ | clear _ | fill _ | clearAll | shrink _ | delete _ | sort _ _ _ => none

/-- Items are only put at positions of the array. -/
def Proper (a : SlotArray α) : Change α → Prop
  | put position _ => 1 ≤ position ∧ position ≤ a.size
  | _ => True

theorem outcome_work (c : Change α) (a : SlotArray α) :
    Prod.snd <$> c.work.outcome a = c.result a := by
  have hdrop : ∀ {β : Type} (work : ArrayM α β),
      Prod.snd <$> (work >>= fun _ => pure ()).outcome a = Prod.snd <$> work.outcome a := by
    intro β work
    rw [ArrayM.outcome_bind, map_bind]
    cases work.outcome a <;> rfl
  cases c with
  | append value limits => exact hdrop _
  | insert value target limits => exact hdrop _
  | delete position => exact hdrop _
  | validateIndex subscripts access limits => exact hdrop _
  | _ => rfl

theorem restores_work (c : Change α) : c.work.Restores := by
  cases c with
  | put position value => exact (ArrayM.succeeds_modify _).restores
  | clear position =>
    exact (ArrayM.succeeds_clear position).restores.bind fun _ => ArrayM.succeeds_pure ()
  | fill value => exact (ArrayM.succeeds_modify _).restores
  | clearAll => exact (ArrayM.succeeds_modify _).restores
  | ensureSpace size limits => exact ArrayM.restores_ensureSpace size limits
  | extend extension limits => exact ArrayM.restores_extend extension limits
  | cover subscripts limits => exact ArrayM.restores_cover subscripts limits
  | shrink amount => exact ArrayM.restores_shrink amount
  | append value limits =>
    exact (ArrayM.restores_append value limits).bind fun _ => ArrayM.succeeds_pure ()
  | insert value target limits =>
    exact (ArrayM.restores_insert value target limits).bind fun _ => ArrayM.succeeds_pure ()
  | delete position => exact (ArrayM.restores_delete position).bind fun _ => ArrayM.succeeds_pure ()
  | validateIndex subscripts access limits =>
    exact (ArrayM.restores_validateIndex subscripts access limits).bind fun _ =>
      ArrayM.succeeds_pure ()
  | sort stable compare memory => exact (ArrayM.succeeds_modify _).restores

theorem applyTo_of_ok {a b : SlotArray α} {c : Change α} (h : c.result a = .ok b) :
    c.applyTo a = b := by
  rw [← outcome_work, ArrayM.outcome] at h
  rw [applyTo, ArrayM.left]
  cases hw : c.work a with
  | error e d =>
    rw [hw] at h
    cases h
  | ok u d =>
    rw [hw] at h
    exact Except.ok.inj h

/-- A change that fails leaves the array as it was. -/
theorem applyTo_of_error {a : SlotArray α} {c : Change α} {e : Fault} (h : c.result a = .error e) :
    c.applyTo a = a := by
  rw [← outcome_work, ArrayM.outcome] at h
  rw [applyTo, ArrayM.left]
  cases hw : c.work a with
  | error e' d => exact c.restores_work a e' d hw
  | ok u d =>
    rw [hw] at h
    cases h

end Change

/-- The arrays that come about under limits of a certain kind. A copy of an array is that array. -/
inductive Built (allowed : ArrayLimits → Prop) : SlotArray α → Prop where
  | empty : Built allowed {}
  | ofSize {size : Nat} {limits : ArrayLimits} {a : SlotArray α} :
    allowed limits → ofSize size limits = .ok a → Built allowed a
  | ofDimensions {sizes : List Nat} {limits : ArrayLimits} {a : SlotArray α} :
    allowed limits → ofDimensions sizes limits = .ok a → Built allowed a
  | ofSlots {slots : Array (Option α)} {limits : ArrayLimits} {a : SlotArray α} :
    allowed limits → ofSlots slots limits = .ok a → Built allowed a
  | slice {a b : SlotArray α} {start : Nat} {count : Option Nat} {limits : ArrayLimits} :
    Built allowed a → allowed limits → a.sliceFrom start count limits = .ok b → Built allowed b
  | join {a b c : SlotArray α} {limits : ArrayLimits} :
    Built allowed a → Built allowed b → allowed limits → a.join b limits = .ok c → Built allowed c
  | change {a : SlotArray α} (c : Change α) :
    Built allowed a → c.Proper a → (∀ limits ∈ c.limits?, allowed limits) →
      Built allowed (c.applyTo a)

/-- An array whose parts agree. -/
structure Coherent (a : SlotArray α) : Prop where
  padded : a.Padded
  counted : a.Counted
  shaped : a.Shaped

/-- An array whose parts agree, with storage of at most `bound` slots. -/
structure Valid (bound : Nat) (a : SlotArray α) : Prop where
  padded : a.Padded
  counted : a.Counted
  shaped : a.Shaped
  capacity_le : a.capacity ≤ bound

theorem Valid.coherent {bound : Nat} {a : SlotArray α} (ha : a.Valid bound) : a.Coherent :=
  ⟨ha.padded, ha.counted, ha.shaped⟩

theorem Coherent.valid {bound : Nat} {a : SlotArray α} (ha : a.Coherent) (hcap : a.capacity ≤ bound) :
    a.Valid bound :=
  ⟨ha.padded, ha.counted, ha.shaped, hcap⟩

theorem coherent_replicate {size : Nat} {shape : Option Shape}
    (hshaped : ({ size, storage := Array.replicate size none, shape } : SlotArray α).Shaped) :
    ({ size, storage := Array.replicate size none, shape } : SlotArray α).Coherent := by
  have hcap : (Array.replicate size (none : Option α)).size = size := Array.size_replicate
  refine ⟨padded_of_size_eq hcap.symm, counted_of_holes (fun i => ?_) rfl rfl, hshaped⟩
  rw [slotAt, cell_replicate]
  split <;> rfl

theorem coherent_empty : ({} : SlotArray α).Coherent := by
  have hempty : ({ size := 0, storage := Array.replicate 0 none, shape := none } : SlotArray α).Coherent :=
    coherent_replicate (shaped_of_linear rfl)
  exact hempty

theorem valid_replicate {bound size : Nat} {shape : Option Shape}
    (hshaped : ({ size, storage := Array.replicate size none, shape } : SlotArray α).Shaped)
    (hle : size ≤ bound) :
    ({ size, storage := Array.replicate size none, shape } : SlotArray α).Valid bound :=
  (coherent_replicate hshaped).valid (Nat.le_trans (Nat.le_of_eq Array.size_replicate) hle)

theorem coherent_ofSlots {slots : Array (Option α)} {limits : ArrayLimits} {b : SlotArray α}
    (h : ofSlots slots limits = .ok b) : b.Coherent := by
  have hpad := padded_ofSlots h
  obtain ⟨_, rfl⟩ := ofSlots_eq_ok h
  exact ⟨hpad, counted_recount (padded_of_size_eq rfl), shaped_of_linear rfl⟩

theorem valid_ofSlots {bound : Nat} {slots : Array (Option α)} {limits : ArrayLimits}
    {b : SlotArray α} (h : ofSlots slots limits = .ok b) (hmax : limits.maxElements ≤ bound) :
    b.Valid bound := by
  refine (coherent_ofSlots h).valid ?_
  obtain ⟨hle, rfl⟩ := ofSlots_eq_ok h
  exact Nat.le_trans hle hmax

theorem snd_eq_ok {ε β γ : Type} {act : Except ε (β × γ)} {c : γ}
    (h : Prod.snd <$> act = .ok c) : ∃ b, act = .ok (b, c) := by
  cases act with
  | error e => cases h
  | ok p =>
    cases h
    exact ⟨p.1, rfl⟩

/-- A change that does not fail leaves the spare slots empty and the counts right, if there is room. The
dimensions do not matter. -/
theorem counted_result {a b : SlotArray α} (hpad : a.Padded) (hcount : a.Counted) {c : Change α}
    (hproper : c.Proper a) (h : c.result a = .ok b) (hroom : b.capacity < Word.max) :
    b.Padded ∧ b.Counted := by
  cases c with
  | put position value =>
    cases h
    obtain ⟨hpos, hle⟩ := hproper
    exact ⟨padded_put hpad value (by omega), counted_put hpad hcount value hpos hle⟩
  | clear position =>
    cases h
    exact ⟨padded_clear hpad position, counted_clear hpad hcount position⟩
  | fill value =>
    cases h
    exact ⟨padded_overlay hpad rfl rfl, counted_fill hpad value⟩
  | clearAll =>
    cases h
    exact ⟨padded_overlay hpad rfl rfl, counted_clearAll hpad⟩
  | ensureSpace size limits =>
    cases ensureSpace_eq_ok h
    exact ⟨padded_withRoom hpad size limits, counted_withRoom hpad hcount size limits⟩
  | extend extension limits =>
    exact ⟨padded_extend hpad h hroom, (counted_extend hpad hcount h).1⟩
  | cover subscripts limits =>
    rcases cover_eq_ok h with rfl | ⟨s, t, _, rfl⟩
    · exact ⟨hpad, hcount⟩
    · have hsize := size_eq_capacity_moveTo a s t (t.count?.getD Word.max)
      exact ⟨padded_moveTo a s t _, counted_recount (padded_of_size_eq hsize)⟩
  | shrink amount => exact ⟨padded_shrink hpad h, counted_shrink hpad hcount h⟩
  | append value limits =>
    obtain ⟨position, h⟩ := snd_eq_ok h
    exact ⟨padded_append hpad h hroom, counted_append hpad hcount h hroom⟩
  | insert value target limits =>
    obtain ⟨position, h⟩ := snd_eq_ok h
    have hsize := size_insert hpad h hroom
    exact ⟨padded_insert hpad h hsize, counted_insert hpad hcount h hsize⟩
  | delete position =>
    obtain ⟨removed, h⟩ := snd_eq_ok h
    exact ⟨padded_delete hpad h, counted_delete hpad hcount h⟩
  | validateIndex subscripts access limits =>
    obtain ⟨found, h⟩ := snd_eq_ok h
    refine ⟨padded_validateIndex hpad h hroom, ?_⟩
    rcases validateIndex_eq_ok h with ⟨rfl, _⟩ | ⟨p, _, _, he⟩ | ⟨⟨whole, hc⟩, _⟩
    · exact hcount
    · exact (counted_extend hpad hcount he).1
    · rcases cover_eq_ok hc with rfl | ⟨s, t, _, rfl⟩
      · exact hcount
      · exact counted_recount (padded_of_size_eq (size_eq_capacity_moveTo a s t _))
  | sort stable compare memory =>
    cases h
    have hpad' := padded_sorted stable compare memory hpad
    have hslot := isSome_slotAt_sorted a stable compare memory
    obtain ⟨storage, heq, _⟩ := sorted_cases a stable compare memory
    rw [heq] at hpad' hslot ⊢
    exact ⟨hpad', hcount.congr hslot rfl rfl⟩

/-- A change that does not fail keeps the size and the dimensions, or makes an array of one dimension, or
moves the slots to other dimensions. -/
theorem dimensions_result {a b : SlotArray α} {c : Change α} (h : c.result a = .ok b) :
    b.size = a.size ∧ b.shape = a.shape ∨ b.shape = none ∨
      ∃ limits ∈ c.limits?, ∃ s t, t.count?.getD Word.max ≤ limits.maxElements ∧
        b = a.moveTo s t (t.count?.getD Word.max) := by
  have hcover : ∀ {subs : List Nat} {limits : ArrayLimits}, a.cover subs limits = .ok b →
      b.size = a.size ∧ b.shape = a.shape ∨ ∃ s t, t.count?.getD Word.max ≤ limits.maxElements ∧
        b = a.moveTo s t (t.count?.getD Word.max) := by
    intro subs limits hc
    refine (cover_eq_ok hc).imp_left ?_
    rintro rfl
    exact ⟨rfl, rfl⟩
  cases c with
  | put position value =>
    cases h
    exact Or.inl ⟨rfl, rfl⟩
  | clear position =>
    cases h
    rcases clear_cases a position with ⟨_, _, heq⟩ | ⟨_, heq⟩ <;> rw [heq] <;> exact Or.inl ⟨rfl, rfl⟩
  | fill value =>
    cases h
    exact Or.inl ⟨rfl, rfl⟩
  | clearAll =>
    cases h
    exact Or.inl ⟨rfl, rfl⟩
  | ensureSpace size limits =>
    cases ensureSpace_eq_ok h
    exact Or.inl ⟨size_withRoom a size limits, shape_withRoom a size limits⟩
  | extend extension limits => exact Or.inr (Or.inl (linear_extend h))
  | cover subscripts limits =>
    exact (hcover h).imp_right fun hmoved => Or.inr ⟨limits, rfl, hmoved⟩
  | shrink amount => exact Or.inr (Or.inl (linear_shrink h))
  | append value limits =>
    obtain ⟨position, h⟩ := snd_eq_ok h
    exact Or.inr (Or.inl (linear_append h))
  | insert value target limits =>
    obtain ⟨position, h⟩ := snd_eq_ok h
    exact Or.inr (Or.inl (linear_insert h))
  | delete position =>
    obtain ⟨removed, h⟩ := snd_eq_ok h
    exact Or.inr (Or.inl (linear_delete h))
  | validateIndex subscripts access limits =>
    obtain ⟨found, h⟩ := snd_eq_ok h
    rcases validateIndex_eq_ok h with ⟨rfl, _⟩ | ⟨p, _, _, he⟩ | ⟨⟨whole, hc⟩, _⟩
    · exact Or.inl ⟨rfl, rfl⟩
    · exact Or.inr (Or.inl (linear_extend he))
    · exact (hcover hc).imp_right fun hmoved => Or.inr ⟨limits, rfl, hmoved⟩
  | sort stable compare memory =>
    cases h
    obtain ⟨storage, heq, _⟩ := sorted_cases a stable compare memory
    rw [heq]
    exact Or.inl ⟨rfl, rfl⟩

/-- A change that does not fail leaves the parts of an array in agreement, if there is room. -/
theorem coherent_result {a b : SlotArray α} (ha : a.Coherent) {c : Change α} (hproper : c.Proper a)
    (h : c.result a = .ok b) (hroom : b.capacity < Word.max) : b.Coherent := by
  obtain ⟨hpad, hcount⟩ := counted_result ha.padded ha.counted hproper h hroom
  refine ⟨hpad, hcount, ?_⟩
  rcases dimensions_result h with ⟨hsize, hshape⟩ | hlinear | ⟨limits, _, s, t, _, rfl⟩
  · intro u hu
    rw [hshape] at hu
    rw [hsize]
    exact ha.shaped u hu
  · exact shaped_of_linear hlinear
  · exact shaped_moveTo a s t

/-- No change makes the storage larger than the limits allow. -/
theorem capacity_result_le {bound : Nat} (hbound : bound < Word.max) {a b : SlotArray α}
    (hpad : a.Padded) (hcap : a.capacity ≤ bound) {c : Change α}
    (hlimits : ∀ limits ∈ c.limits?, limits.maxElements ≤ bound) (h : c.result a = .ok b) :
    b.capacity ≤ bound := by
  cases c with
  | put position value =>
    cases h
    rwa [capacity_put]
  | clear position =>
    cases h
    rwa [(capacity_clear a position).1]
  | fill value =>
    cases h
    exact Nat.le_trans (Nat.le_of_eq (size_overlay hpad.size_le _)) hcap
  | clearAll =>
    cases h
    exact Nat.le_trans (Nat.le_of_eq (size_overlay hpad.size_le _)) hcap
  | ensureSpace size limits =>
    cases ensureSpace_eq_ok h
    exact capacity_withRoom_le hpad size limits hcap (hlimits limits rfl)
  | extend extension limits => exact capacity_extend_le hpad h hcap (hlimits limits rfl)
  | cover subscripts limits =>
    rcases cover_eq_ok h with rfl | ⟨s, t, hle, rfl⟩
    · exact hcap
    · rw [← size_eq_capacity_moveTo a s t (t.count?.getD Word.max)]
      exact Nat.le_trans hle (hlimits limits rfl)
  | shrink amount => rwa [capacity_shrink h]
  | append value limits =>
    obtain ⟨position, h⟩ := snd_eq_ok h
    exact capacity_append_le hpad h hcap (hlimits limits rfl)
  | insert value target limits =>
    obtain ⟨position, h⟩ := snd_eq_ok h
    exact capacity_insert_le hpad h hcap (hlimits limits rfl) hbound
  | delete position =>
    obtain ⟨removed, h⟩ := snd_eq_ok h
    rwa [(capacity_delete hpad h).1]
  | validateIndex subscripts access limits =>
    obtain ⟨found, h⟩ := snd_eq_ok h
    exact capacity_validateIndex_le hpad h hcap (hlimits limits rfl)
  | sort stable compare memory =>
    cases h
    obtain ⟨storage, heq, hsize, _⟩ := sorted_cases a stable compare memory
    rw [heq, capacity, hsize]
    exact hcap

/-- A change that does not fail leaves the parts of an array in agreement. -/
theorem valid_result {bound : Nat} (hbound : bound < Word.max) {a b : SlotArray α}
    (ha : a.Valid bound) {c : Change α} (hproper : c.Proper a)
    (hlimits : ∀ limits ∈ c.limits?, limits.maxElements ≤ bound) (h : c.result a = .ok b) :
    b.Valid bound := by
  have hcap := capacity_result_le hbound ha.padded ha.capacity_le hlimits h
  exact (coherent_result ha.coherent hproper h (Nat.lt_of_le_of_lt hcap hbound)).valid hcap

theorem valid_applyTo {bound : Nat} (hbound : bound < Word.max) {a : SlotArray α}
    (ha : a.Valid bound) {c : Change α} (hproper : c.Proper a)
    (hlimits : ∀ limits ∈ c.limits?, limits.maxElements ≤ bound) : (c.applyTo a).Valid bound := by
  cases h : c.result a with
  | ok b =>
    rw [Change.applyTo_of_ok h]
    exact valid_result hbound ha hproper hlimits h
  | error e =>
    rw [Change.applyTo_of_error h]
    exact ha

theorem valid_of_built {bound : Nat} (hbound : bound < Word.max) {allowed : ArrayLimits → Prop}
    (hallowed : ∀ limits, allowed limits → limits.maxElements ≤ bound) {a : SlotArray α}
    (ha : Built allowed a) : a.Valid bound := by
  have hempty : ({} : SlotArray α).Valid bound := coherent_empty.valid (Nat.zero_le bound)
  induction ha with
  | empty => exact hempty
  | ofSize hl h =>
    obtain ⟨_, hc, h⟩ := bind_eq_ok h
    cases h
    exact valid_replicate (shaped_of_linear rfl) (Nat.le_trans (check_eq_ok hc) (hallowed _ hl))
  | ofDimensions hl h =>
    obtain ⟨size, shape, rfl, hle, hshaped⟩ := ofDimensions_eq_ok h
    exact valid_replicate hshaped (Nat.le_trans hle (hallowed _ hl))
  | ofSlots hl h => exact valid_ofSlots h (hallowed _ hl)
  | slice _ hl h ih =>
    rcases sliceFrom_eq_ok h with rfl | ⟨stop, _, h⟩
    · exact hempty
    · exact valid_ofSlots h (hallowed _ hl)
  | join _ _ hl h _ _ => exact valid_ofSlots (join_eq_ok h) (hallowed _ hl)
  | change c _ hproper hl ih =>
    exact valid_applyTo hbound ih hproper fun limits h => hallowed limits (hl limits h)

/-- The parts of an array agree, however it was made and changed: its slots fit in the storage and
nothing lies beyond them, the number of items and the position of the last one are right, and the
sizes of two or more dimensions multiply to its size. The storage stays within the largest limit. -/
theorem representation_of_built {allowed : ArrayLimits → Prop}
    (hallowed : ∀ limits, allowed limits → limits.maxElements < Word.max) {a : SlotArray α}
    (ha : Built allowed a) :
    a.size ≤ a.storage.size ∧
    (∀ i, a.size ≤ i → (a.storage[i]?).join = none) ∧
    a.items = a.storage.countP Option.isSome ∧
    (a.last ≠ 0 → occupied a.storage a.last = true) ∧
    (∀ p, 1 ≤ p → occupied a.storage p = true → p ≤ a.last) ∧
    (∀ s, a.shape = some s → 2 ≤ s.rank ∧ s.sizes.prod = a.size) ∧
    ∀ bound, (∀ limits, allowed limits → limits.maxElements ≤ bound) → a.storage.size ≤ bound := by
  have hmax : Word.max - 1 < Word.max := by decide
  have hvalid : a.Valid (Word.max - 1) :=
    valid_of_built hmax (fun limits hl => Nat.le_sub_one_of_lt (hallowed limits hl)) ha
  obtain ⟨hpad, hcount, hshaped, hcap⟩ := hvalid
  refine ⟨hpad.size_le, hpad.spare, hcount.items_eq, hcount.last_held, fun p hp hocc => ?_,
    fun s hs => ?_, fun bound hbound => ?_⟩
  · have hlt := hcount.lt_last (p - 1) hocc
    omega
  · obtain ⟨hrank, hsize⟩ := hshaped s hs
    refine ⟨hrank, ?_⟩
    cases hc : s.count? with
    | some n => rw [hsize, hc, Option.getD_some, Shape.prod_of_count? hc]
    | none =>
      -- a shape that cannot be counted would pass for one of as many slots as the largest word
      rw [hc, Option.getD_none] at hsize
      have hle := hpad.size_le
      omega
  · by_cases hword : bound < Word.max
    · exact (valid_of_built hword hbound ha).capacity_le
    · exact Nat.le_trans hcap (by omega)

/-- An array of two dimensions that is filled in part and then sorted in vain. -/
theorem representation_of_built_matrix :
    let limits : ArrayLimits := { maxElements := 8 }
    let refusing : Sorting.Comparator Fault Unit Nat := fun _ _ => throw .comparatorSilent
    let grown : SlotArray Nat := Change.applyTo {} (.validateIndex [some 2, some 3] .write limits)
    let filled : SlotArray Nat :=
      Change.applyTo (Change.applyTo grown (.put 1 (some 7))) (.put 2 (some 3))
    let a : SlotArray Nat := Change.applyTo filled (.sort true refusing ())
    (∀ l, l = limits → l.maxElements < Word.max) ∧ Built (· = limits) a ∧
      a.shape = some ⟨[2, 3]⟩ ∧ [2, 3].prod = a.size ∧ a.storage.size ≤ 8 := by
  intro limits refusing grown filled a
  have hallowed : ∀ l, l = limits → l.maxElements < Word.max := by
    rintro _ rfl
    decide
  have hgrown : Built (· = limits) grown := by
    refine .change _ .empty trivial ?_
    rintro _ ⟨⟩
    rfl
  have hfilled : Built (· = limits) filled := by
    refine .change _ (.change _ hgrown ?_ nofun) ?_ nofun
    · exact ⟨by decide, by decide⟩
    · exact ⟨by decide, by decide⟩
  have hbuilt : Built (· = limits) a := .change _ hfilled trivial nofun
  obtain ⟨_, _, _, _, _, hshape, hcap⟩ := representation_of_built hallowed hbuilt
  have hdim : a.shape = some ⟨[2, 3]⟩ := by
    obtain ⟨storage, heq, _⟩ := sorted_cases filled true refusing ()
    have hfilled : filled.shape = some ⟨[2, 3]⟩ := by decide
    change (filled.sorted true refusing ()).shape = _
    rw [heq]
    exact hfilled
  refine ⟨hallowed, hbuilt, hdim, (hshape _ hdim).2, hcap 8 ?_⟩
  rintro _ rfl
  decide

end Managed.SlotArray
