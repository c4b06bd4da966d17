import Mathlib.Data.List.Forall2
import Managed.Supplier

/-!
# A supplier as a list of pairs

A supplier stands for the pairs that it has not passed yet (`Has`). To show the current item and index
is to look at the first of them, and to step on is to drop it.
-/

namespace Managed.Supplier

/-- A supplier that has the pairs `rest` before it. -/
structure Has (s : Supplier) (rest : List (Ref × Ref)) : Prop where
  items : s.remainingItems = rest.map Prod.fst
  indexes : s.remainingIndexes = rest.map Prod.snd

/-- A new supplier of some pairs. -/
def ofPairs (pairs : List (Ref × Ref)) : Supplier :=
  ofLists (pairs.map Prod.fst) (pairs.map Prod.snd)

variable {s t : Supplier} {rest : List (Ref × Ref)}

theorem has_ofPairs (pairs : List (Ref × Ref)) : (ofPairs pairs).Has pairs :=
  ⟨rfl, rfl⟩

theorem ofLists_eq_ofPairs {items indexes : List Ref} (h : items.length = indexes.length) :
    ofLists items indexes = ofPairs (items.zip indexes) := by
  rw [ofPairs, List.map_fst_zip (Nat.le_of_eq h), List.map_snd_zip (Nat.le_of_eq h.symm)]

theorem Has.mem_refs (h : s.Has rest) {x : Ref} :
    x ∈ Traced.refs s ↔ ∃ p ∈ rest, x = p.1 ∨ x = p.2 := by
  change x ∈ s.remainingItems ++ s.remainingIndexes ↔ _
  rw [h.items, h.indexes, List.mem_append, List.mem_map, List.mem_map]
  constructor
  · rintro (⟨p, hp, rfl⟩ | ⟨p, hp, rfl⟩)
    · exact ⟨p, hp, Or.inl rfl⟩
    · exact ⟨p, hp, Or.inr rfl⟩
  · rintro ⟨p, hp, rfl | rfl⟩
    · exact Or.inl ⟨p, hp, rfl⟩
    · exact Or.inr ⟨p, hp, rfl⟩

theorem Has.item (h : s.Has rest) :
    s.item = match rest with
      | p :: _ => .ok p.1
      | [] => .error .supplierExhausted := by
  have hfirst : s.items[s.position]? = (rest.map Prod.fst).head? := by
    rw [← h.items, remainingItems, List.head?_drop]
  rw [Supplier.item, current, hfirst]
  cases rest <;> rfl

theorem Has.index (h : s.Has rest) :
    s.index = match rest with
      | p :: _ => .ok p.2
      | [] => .error .supplierExhausted := by
  have hfirst : s.indexes[s.position]? = (rest.map Prod.snd).head? := by
    rw [← h.indexes, remainingIndexes, List.head?_drop]
  rw [Supplier.index, current, hfirst]
  cases rest <;> rfl

theorem Has.available (h : s.Has rest) : s.available = !rest.isEmpty := by
  have hlength := congrArg List.length h.items
  rw [remainingItems, List.length_drop, List.length_map] at hlength
  rw [Supplier.available, Bool.eq_iff_iff]
  cases rest with
  | nil =>
    simp only [List.length_nil] at hlength
    simp
    omega
  | cons p rest =>
    simp only [List.length_cons] at hlength
    simp
    omega

theorem next_eq_ok (h : s.next = .ok t) : t = { s with position := s.position + 1 } := by
  unfold next at h
  split at h
  · cases h
    rfl
  · cases h

/-- To step on is to drop the first pair. -/
theorem Has.next {p : Ref × Ref} (h : s.Has (p :: rest)) : ∃ t, s.next = .ok t ∧ t.Has rest := by
  have havailable : s.available = true := h.available
  refine ⟨{ s with position := s.position + 1 }, by rw [Supplier.next, if_pos havailable], ?_, ?_⟩
  · have hitems : s.items.drop s.position = p.1 :: rest.map Prod.fst := h.items
    rw [remainingItems, ← List.drop_drop, hitems, List.drop_one, List.tail_cons]
  · have hindexes : s.indexes.drop s.position = p.2 :: rest.map Prod.snd := h.indexes
    rw [remainingIndexes, ← List.drop_drop, hindexes, List.drop_one, List.tail_cons]

theorem Has.next_nil (h : s.Has []) : s.next = .error .supplierExhausted := by
  have havailable : s.available = false := h.available
  rw [Supplier.next, havailable]
  rfl

theorem mem_drop_of_current {refs : List Ref} {x : Ref} (h : s.current refs = .ok x) :
    x ∈ refs.drop s.position := by
  unfold current at h
  split at h
  · next hfirst =>
    cases h
    exact List.mem_of_mem_head? (by rw [List.head?_drop]; exact hfirst)
  · cases h

theorem mem_refs_of_item {x : Ref} (h : s.item = .ok x) : x ∈ Traced.refs s :=
  List.mem_append_left _ (mem_drop_of_current h)

theorem mem_refs_of_index {x : Ref} (h : s.index = .ok x) : x ∈ Traced.refs s :=
  List.mem_append_right _ (mem_drop_of_current h)

/-- What is held after a step was held before. -/
theorem mem_refs_of_next (h : s.next = .ok t) {x : Ref} (hx : x ∈ Traced.refs t) :
    x ∈ Traced.refs s := by
  rw [next_eq_ok h] at hx
  rcases List.mem_append.mp hx with hx | hx
  · exact List.mem_append_left _ (List.drop_subset_drop_left _ (Nat.le_succ _) hx)
  · exact List.mem_append_right _ (List.drop_subset_drop_left _ (Nat.le_succ _) hx)

end Managed.Supplier
