import Managed.Heap.Basic

/-!
# Marking

A collection first marks what it can reach from a list of handles. A minor collection looks at young
objects only and never goes through an old one. Every step of the walk takes one handle from the list
of those to visit. Marking an object adds the handles it holds to the list, which happens once for each
object, so the walk ends (`pending_mark`).
-/

namespace Managed

inductive CollectionKind where
  | minor
  | major
deriving DecidableEq, Repr, Inhabited

/-- The generations a collection marks and sweeps. -/
def CollectionKind.covers : CollectionKind → Generation → Bool
  | minor, g => g.isYoung
  | major, _ => true

def Slot.isMarked {α : Type} (s : Slot α) : Bool :=
  s.entry.any (·.header.marked)

/-- The handles that a walk may still come upon in a slot. -/
def Slot.pending {α : Type} [Traced α] (s : Slot α) : List Ref :=
  match s.entry with
  | some e => if e.header.marked then [] else Traced.refs e.value
  | none => []

namespace Heap

variable {α : Type}

/-- The entry that `r` names, if the collection covers it and has not marked it yet. -/
def markable? (kind : CollectionKind) (h : Heap α) (r : Ref) : Option (Entry α) :=
  (h.resolve? r).filter fun e => kind.covers e.header.generation && !e.header.marked

def mark (h : Heap α) (r : Ref) : Heap α :=
  h.modifyHeader r Header.mark

/-- How many live objects bear a mark. -/
def marked (h : Heap α) : Nat :=
  h.slots.countP Slot.isMarked

/-- Marking changes one slot. -/
theorem slots_mark {h : Heap α} {r : Ref} {e : Entry α} (he : h.resolve? r = some e) :
    ∃ before s after, s.entry = some e ∧ h.slots.toList = before ++ s :: after ∧
      (h.mark r).slots.toList =
        before ++ (s.map fun e => { e with header := e.header.mark }) :: after := by
  simp only [resolve?, Option.bind_eq_some_iff, Slot.entryFor?_eq] at he
  obtain ⟨s, hs, hse⟩ := he
  obtain ⟨hi, rfl⟩ := Array.getElem?_eq_some_iff.mp hs
  split at hse
  · next hser =>
    have hset : (h.mark r).slots = h.slots.set r.index
        (h.slots[r.index].map fun e => { e with header := e.header.mark }) hi := by
      simp only [mark, modifyHeader, modifyEntry, Slot.modifyFor_eq]
      refine Array.ext (by simp) fun j hj hj' => ?_
      rw [Array.getElem_modify, Array.getElem_set]
      split
      · next hij =>
        subst hij
        rw [if_pos hser]
      · rfl
    refine ⟨h.slots.toList.take r.index, h.slots[r.index], h.slots.toList.drop (r.index + 1), hse,
      ?_, ?_⟩
    · rw [← Array.getElem_toList, ← List.drop_eq_getElem_cons, List.take_append_drop]
    · rw [hset, Array.toList_set, List.set_eq_take_append_cons_drop, if_pos (by simpa using hi)]
  · cases hse

variable [Traced α]

def pending (h : Heap α) : List Ref :=
  h.slots.toList.flatMap Slot.pending

theorem pending_mark {kind : CollectionKind} {h : Heap α} {r : Ref} {e : Entry α}
    (he : h.markable? kind r = some e) :
    (h.mark r).pending.length + (Traced.refs e.value).length = h.pending.length := by
  obtain ⟨hr, hm⟩ := Option.filter_eq_some_iff.mp he
  simp only [Bool.and_eq_true, Bool.not_eq_true'] at hm
  obtain ⟨before, s, after, hs, heq, heq'⟩ := slots_mark hr
  have hold : s.pending = Traced.refs e.value := by
    simp [Slot.pending, hs, hm.2]
  have hnew : (s.map fun e => { e with header := e.header.mark }).pending = [] := by
    rw [Slot.pending, Slot.entry_map, hs]
    rfl
  simp only [pending, heq, heq', List.flatMap_append, List.flatMap_cons, hold, hnew,
    List.length_append, List.length_nil]
  omega

/-- Marks every object the collection can reach from the handles in the list. -/
def markFrom (kind : CollectionKind) (h : Heap α) (work : List Ref) : Heap α :=
  match work with
  | [] => h
  | r :: rest =>
    match _he : h.markable? kind r with
    | none => markFrom kind h rest
    | some e => markFrom kind (h.mark r) (Traced.refs e.value ++ rest)
termination_by h.pending.length + work.length
decreasing_by
  · simp
  · have hlength := pending_mark _he
    simp only [List.length_append, List.length_cons]
    omega

end Heap

end Managed
