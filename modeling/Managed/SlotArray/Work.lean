import Managed.SlotArray.Basic

/-!
# Work on an array

An array is changed in place. `ArrayM` is work of that kind: it keeps the array on failure, so what
was done before the failure remains done. `outcome` is what the work comes to for a caller who has no
use for the array of a failure.
-/

namespace Managed

abbrev ArrayM (α : Type) : Type → Type :=
  EStateM Fault (SlotArray α)

namespace ArrayM

variable {α β γ : Type}

/-- Asks a question about the array, and fails if it has no answer. -/
def ask (query : SlotArray α → Except Fault β) : ArrayM α β := fun a =>
  match query a with
  | .ok b => .ok b a
  | .error e => .error e a

/-- Makes the slot at a position a hole and gives the item it held. -/
def clear (position : Nat) : ArrayM α (Option α) :=
  modifyGet (·.clear position)

/-- The answer of the work with the array it leaves, unless it fails. -/
def outcome (work : ArrayM α β) (a : SlotArray α) : Except Fault (β × SlotArray α) :=
  match work a with
  | .ok b c => .ok (b, c)
  | .error e _ => .error e

/-- The array that the work leaves, also if it fails. -/
def left (work : ArrayM α β) (a : SlotArray α) : SlotArray α :=
  match work a with
  | .ok _ c => c
  | .error _ c => c

/-! ## Outcomes step by step -/

theorem outcome_bind (work : ArrayM α β) (next : β → ArrayM α γ) (a : SlotArray α) :
    outcome (work >>= next) a = outcome work a >>= fun (b, c) => outcome (next b) c := by
  change (match EStateM.bind work next a with | .ok b c => _ | .error e _ => _) = _
  rw [EStateM.bind, outcome]
  cases work a <;> rfl

/-- Work without an answer goes on with the array it leaves. -/
theorem outcome_unit_bind (work : ArrayM α Unit) (next : Unit → ArrayM α β) (a : SlotArray α) :
    outcome (work >>= next) a = Prod.snd <$> outcome work a >>= fun c => outcome (next ()) c := by
  rw [outcome_bind]
  cases outcome work a <;> rfl

theorem outcome_ask_bind (query : SlotArray α → Except Fault β) (next : β → ArrayM α γ)
    (a : SlotArray α) :
    outcome (ask query >>= next) a = query a >>= fun b => outcome (next b) a := by
  rw [outcome_bind, outcome, ask]
  cases query a <;> rfl

theorem outcome_get_bind (next : SlotArray α → ArrayM α β) (a : SlotArray α) :
    outcome (get >>= next) a = outcome (next a) a :=
  rfl

end ArrayM

end Managed
