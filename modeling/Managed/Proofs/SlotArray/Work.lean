import Managed.SlotArray.Sequence
import Managed.SlotArray.Subscript

/-!
# What work on an array comes to

The operations on arrays are work in place. Their outcomes are told here step by step, without the
array that is passed along, and later modules start from these equations.

Work in place may leave a changed array when it fails. Work that `Restores` the array does not: it
makes all its checks before the first change. All operations are of that kind but one: looking for
subscripts, which looks once more after the array has grown.
-/

namespace Managed

namespace SlotArray

open ArrayM (outcome_bind outcome_unit_bind outcome_ask_bind outcome_get_bind)

variable {α : Type} (a : SlotArray α)

/-! ## Growing -/

theorem ensureSpace_eq (size : Nat) (limits : ArrayLimits) :
    a.ensureSpace size limits =
      if size ≤ a.capacity then .ok a
      else do
        limits.check size
        return a.reallocate (limits.grownCapacity size) := by
  rw [ensureSpace, ArrayM.ensureSpace, outcome_get_bind]
  split
  · rfl
  · rw [outcome_ask_bind, map_bind]
    rfl

theorem extend_eq (extension : Nat) (limits : ArrayLimits) :
    a.extend extension limits = do
      a.requireLinear .extend
      let size := Word.addSat a.size extension
      limits.check size
      return { (if size ≤ a.capacity then a else a.reallocate (limits.grownCapacity size)) with
        size } := by
  simp only [extend, ArrayM.extend, outcome_ask_bind, outcome_get_bind, map_bind]
  rfl

theorem cover_eq (subscripts : List Nat) (limits : ArrayLimits) :
    a.cover subscripts limits =
      let old := a.growingSizes
      if subscripts.length < old.length then .error (.tooFewSubscripts old.length)
      else
        let added := subscripts.length - old.length
        let padded := List.replicate added 1 ++ old
        let sizes := List.zipWith Nat.max padded subscripts
        if sizes = padded ∧ added = 0 then .ok a
        else do
          let shape : Shape := ⟨sizes⟩
          let total := shape.count?.getD Word.max
          limits.check total
          return a.moveTo ⟨padded⟩ shape total := by
  rw [cover, ArrayM.cover, outcome_get_bind]
  dsimp only
  split
  · rfl
  · split
    · rfl
    · rw [outcome_ask_bind, map_bind]
      rfl

theorem growTo_eq (position : Nat) (limits : ArrayLimits) :
    a.growTo position limits =
      if a.size < position then a.extend (position - a.size) limits else .ok a := by
  rw [growTo, ArrayM.growTo, outcome_get_bind]
  dsimp only
  split <;> rfl

/-! ## Shrinking -/

/-- The array after the slots at the given positions have been cleared one by one. -/
def clearEach (positions : List Nat) : SlotArray α :=
  positions.foldl (fun a position => (a.clear position).2) a

theorem outcome_forM_clear (positions : List Nat) :
    ArrayM.outcome (positions.forM fun position => do let _ ← ArrayM.clear position) a =
      .ok ((), a.clearEach positions) := by
  induction positions generalizing a with
  | nil => rfl
  | cons position positions ih => exact ih (a.clear position).2

theorem shrink_eq (amount : Nat) :
    a.shrink amount = do
      a.requireLinear .shrink
      let size := a.size - amount
      return { a.clearEach (List.range' (size + 1) (a.size - size)) with size } := by
  rw [shrink, ArrayM.shrink, outcome_ask_bind, map_bind]
  refine bind_congr fun _ => ?_
  rw [outcome_get_bind, outcome_bind, outcome_forM_clear]
  rfl

/-! ## Sequences -/

theorem append_eq (value : α) (limits : ArrayLimits) :
    a.append value limits = do
      a.requireLinear .append
      let b ← a.growTo (a.last + 1) limits
      return (a.last + 1, b.put (a.last + 1) (some value)) := by
  simp only [append, ArrayM.append, outcome_ask_bind, outcome_get_bind]
  refine bind_congr fun _ => ?_
  rw [outcome_unit_bind]
  rfl

theorem openGap_eq (position : Nat) (limits : ArrayLimits) :
    a.openGap position limits = do
      let b ← a.extend (Nat.max 1 (position - a.size)) limits
      return if position ≤ a.size then b.shiftUp position a.size else b := by
  rw [openGap, ArrayM.openGap, outcome_get_bind, outcome_unit_bind, map_bind]
  refine bind_congr fun b => ?_
  split <;> rfl

theorem insert_eq (value : Option α) (target : InsertAt) (limits : ArrayLimits) :
    a.insert value target limits = do
      a.requireLinear .insert
      let position ← a.insertPosition target
      let b ← a.openGap position limits
      return (position, b.put position value) := by
  simp only [insert, ArrayM.insert, outcome_ask_bind, outcome_unit_bind]
  rfl

theorem delete_eq (position : Nat) :
    a.delete position = do
      a.requireLinear .delete
      a.checkPosition position
      return ((a.clear position).1, (a.clear position).2.shiftDown position) := by
  simp only [delete, ArrayM.delete, outcome_ask_bind]
  rfl

theorem validateIndex_eq (subscripts : List Subscript) (access : IndexAccess)
    (limits : ArrayLimits) :
    a.validateIndex subscripts access limits = do
      match ← a.locate subscripts access with
      | .position p => return (some p, a)
      | .beyond p => return (some p, ← a.extend (p - a.size) limits)
      | .outside whole =>
        let b ← a.cover whole limits
        return (← b.positionOf subscripts access, b)
      | .nowhere => return (none, a) := by
  rw [validateIndex, ArrayM.validateIndex, outcome_ask_bind]
  refine bind_congr fun place => ?_
  cases place with
  | position p => rfl
  | nowhere => rfl
  | beyond p =>
    rw [outcome_get_bind, outcome_unit_bind]
    rfl
  | outside whole =>
    rw [outcome_unit_bind]
    refine bind_congr fun b => ?_
    rw [ArrayM.outcome, ArrayM.ask]
    cases b.positionOf subscripts access <;> rfl

end SlotArray

/-! ## Failing -/

namespace ArrayM

variable {α β γ : Type}

/-- If the work fails, it leaves the array as it was. -/
def Restores (work : ArrayM α β) : Prop :=
  ∀ a e c, work a = .error e c → c = a

/-- The work leaves the array as it was, whether it fails or not. -/
def Looks (work : ArrayM α β) : Prop :=
  ∀ a, work.left a = a

/-- The work does not fail. -/
def Succeeds (work : ArrayM α β) : Prop :=
  ∀ a e c, work a ≠ .error e c

theorem outcome_of_ok {work : ArrayM α β} {a c : SlotArray α} {b : β} (h : work a = .ok b c) :
    work.outcome a = .ok (b, c) := by
  rw [outcome, h]

/-- Such work is told by its outcome. -/
theorem Restores.apply_eq {work : ArrayM α β} (h : work.Restores) (a : SlotArray α) :
    work a = match work.outcome a with
      | .ok (b, c) => .ok b c
      | .error e => .error e a := by
  rw [outcome]
  cases hw : work a with
  | ok b c => rfl
  | error e c => rw [h a e c hw]

theorem Restores.apply_unit {work : ArrayM α Unit} (h : work.Restores) (a : SlotArray α) :
    work a = match Prod.snd <$> work.outcome a with
      | .ok c => .ok () c
      | .error e => .error e a := by
  rw [h.apply_eq]
  cases work.outcome a <;> rfl

theorem Succeeds.restores {work : ArrayM α β} (h : work.Succeeds) : work.Restores :=
  fun a e c herr => absurd herr (h a e c)

theorem looks_ask (query : SlotArray α → Except Fault β) : (ask query).Looks := by
  intro a
  rw [left, ask]
  cases query a <;> rfl

theorem looks_get : (get : ArrayM α (SlotArray α)).Looks := fun _ => rfl

theorem succeeds_modify (change : SlotArray α → SlotArray α) :
    (modify change : ArrayM α Unit).Succeeds := by
  intro a e c h
  cases h

theorem succeeds_clear (position : Nat) : (clear position : ArrayM α (Option α)).Succeeds := by
  intro a e c h
  cases h

theorem succeeds_pure (b : β) : (pure b : ArrayM α β).Succeeds := by
  intro a e c h
  cases h

theorem bind_apply (work : ArrayM α β) (next : β → ArrayM α γ) (a : SlotArray α) :
    (work >>= next) a = match work a with
      | .ok b c => next b c
      | .error e c => .error e c := by
  change EStateM.bind work next a = _
  rw [EStateM.bind]
  cases work a <;> rfl

/-- Looking first does no harm. -/
theorem Looks.bind {work : ArrayM α β} {next : β → ArrayM α γ} (h : work.Looks)
    (hnext : ∀ b, (next b).Restores) : (work >>= next).Restores := by
  intro a e c herr
  have hleft := h a
  rw [left] at hleft
  rw [bind_apply] at herr
  cases hw : work a with
  | error e' d =>
    rw [hw] at hleft herr
    cases herr
    exact hleft
  | ok b d =>
    rw [hw] at hleft herr
    cases hleft
    exact hnext b _ _ _ herr

theorem Restores.bind {work : ArrayM α β} {next : β → ArrayM α γ} (h : work.Restores)
    (hnext : ∀ b, (next b).Succeeds) : (work >>= next).Restores := by
  intro a e c herr
  rw [bind_apply] at herr
  cases hw : work a with
  | error e' d =>
    rw [hw] at herr
    cases herr
    exact h _ _ _ hw
  | ok b d =>
    rw [hw] at herr
    exact absurd herr (hnext b _ _ _)

theorem Succeeds.bind {work : ArrayM α β} {next : β → ArrayM α γ} (h : work.Succeeds)
    (hnext : ∀ b, (next b).Succeeds) : (work >>= next).Succeeds := by
  intro a e c herr
  rw [bind_apply] at herr
  cases hw : work a with
  | error e' d => exact h _ _ _ hw
  | ok b d =>
    rw [hw] at herr
    exact hnext b _ _ _ herr

theorem Restores.ite {c : Prop} [Decidable c] {work other : ArrayM α β} (h : work.Restores)
    (hother : other.Restores) : (if c then work else other).Restores := by
  split
  · exact h
  · exact hother

theorem restores_ensureSpace (size : Nat) (limits : ArrayLimits) :
    (ensureSpace size limits : ArrayM α Unit).Restores :=
  looks_get.bind fun _ => (succeeds_pure ()).restores.ite
    ((looks_ask _).bind fun _ => (succeeds_modify _).restores)

theorem restores_extend (extension : Nat) (limits : ArrayLimits) :
    (extend extension limits : ArrayM α Unit).Restores :=
  (looks_ask _).bind fun _ => looks_get.bind fun _ => (looks_ask _).bind fun _ =>
    ((succeeds_modify _).bind fun _ => succeeds_modify _).restores

theorem restores_growTo (position : Nat) (limits : ArrayLimits) :
    (growTo position limits : ArrayM α Unit).Restores :=
  looks_get.bind fun _ => (restores_extend _ limits).ite (succeeds_pure ()).restores

theorem restores_append (value : α) (limits : ArrayLimits) : (append value limits).Restores :=
  (looks_ask _).bind fun _ => looks_get.bind fun _ =>
    (restores_growTo _ limits).bind fun _ => (succeeds_modify _).bind fun _ => succeeds_pure _

theorem restores_openGap (position : Nat) (limits : ArrayLimits) :
    (openGap position limits : ArrayM α Unit).Restores :=
  looks_get.bind fun a => (restores_extend _ limits).bind fun _ => by
    split
    · exact succeeds_modify _
    · exact succeeds_pure ()

theorem restores_insert (value : Option α) (target : InsertAt) (limits : ArrayLimits) :
    (insert value target limits).Restores :=
  (looks_ask _).bind fun _ => (looks_ask _).bind fun _ =>
    (restores_openGap _ limits).bind fun _ => (succeeds_modify _).bind fun _ => succeeds_pure _

theorem restores_delete (position : Nat) : (delete position : ArrayM α (Option α)).Restores :=
  (looks_ask _).bind fun _ => (looks_ask _).bind fun _ =>
    ((succeeds_clear position).bind fun _ =>
      (succeeds_modify _).bind fun _ => succeeds_pure _).restores

theorem succeeds_forM_clear (positions : List Nat) :
    (positions.forM fun position => do
      let _ ← (clear position : ArrayM α (Option α))).Succeeds := by
  induction positions with
  | nil => exact succeeds_pure ()
  | cons position positions ih =>
    exact ((succeeds_clear position).bind fun _ => succeeds_pure ()).bind fun _ => ih

theorem restores_shrink (amount : Nat) : (shrink amount : ArrayM α Unit).Restores :=
  (looks_ask _).bind fun _ => looks_get.bind fun _ =>
    ((succeeds_forM_clear _).bind fun _ => succeeds_modify _).restores

theorem restores_cover (subscripts : List Nat) (limits : ArrayLimits) :
    (cover subscripts limits : ArrayM α Unit).Restores :=
  looks_get.bind fun a => by
    refine Restores.ite (fun _ _ _ h => ?_) (Restores.ite (succeeds_pure ()).restores
      ((looks_ask _).bind fun _ => (succeeds_modify _).restores))
    cases h
    rfl

end ArrayM

end Managed
