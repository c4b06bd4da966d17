import Managed.Proofs.Sorting.Related
import Managed.Proofs.SlotArray.Slots
import Managed.SlotArray.Detached

/-!
# Arrays after a sort

An array that can be sorted has its items in the first slots. A sort rearranges these slots, also if
its comparator fails, so the same slots are occupied as before (`isSome_slotAt_sorted`) and by the same
items (`slotAt_sorted`). Sorts of two arrays whose slots correspond run side by side (`alike_sort`).
-/

namespace Managed

namespace Detached

open Sorting

variable {ε σ α : Type}

/-- The storage as a sort leaves it, whether it succeeds or fails. -/
def settled : EStateM.Result ε (Detached α × σ) Unit → Detached α
  | .ok _ (d, _) => d
  | .error _ (d, _) => d

theorem leftIn_front (storage : Array (Option α)) (s : σ) {count : Nat} (h : 0 + count ≤ storage.size)
    {act : SortM ε σ (Option α) count Unit} (hact : Rearranges act) :
    ∃ front : List (Option α), front.Perm (storage.toList.take count) ∧
      (leftIn (within 0 count h act (storage.toVector, s))).toArray.toList =
        front ++ storage.toList.drop count := by
  obtain ⟨w, hw, heq⟩ := leftIn_within h hact storage.toVector s
  rw [toList_slice, List.drop_zero] at hw
  refine ⟨w.toList, hw, ?_⟩
  rw [heq]
  exact (toList_splice _ _ _ _).trans (by simp)

theorem settled_sort (stable : Bool) (compare : Comparator ε σ α) (d : Detached α) (s : σ) :
    ∃ storage front, settled (sort stable compare (d, s)) = { d with storage } ∧
      front.Perm (d.storage.toList.take (min d.items d.storage.size)) ∧
      storage.toList = front ++ d.storage.toList.drop (min d.items d.storage.size) := by
  have hact : Rearranges (if stable then mergeSort (onSlots compare) (min d.items d.storage.size)
      else quickSort (onSlots compare) (min d.items d.storage.size)) := by
    split
    · exact rearranges_mergeSort _ _
    · exact rearranges_quickSort _ _
  obtain ⟨front, hperm, hlist⟩ := leftIn_front d.storage s (by omega) hact
  simp only [sort]
  split
  · next u v s' hok =>
    rw [hok] at hlist
    exact ⟨v.toArray, front, rfl, hperm, hlist⟩
  · next e v s' herr =>
    rw [herr] at hlist
    exact ⟨v.toArray, front, rfl, hperm, hlist⟩

/-! ## Sorts side by side -/

variable {ε' σ' α' : Type}

/-- Storage taken from two arrays, with slots that correspond. -/
structure Matches (item : α → α' → Prop) (d : Detached α) (d' : Detached α') : Prop where
  size : d'.size = d.size
  items : d'.items = d.items
  last : d'.last = d.last
  capacity : d'.storage.size = d.storage.size
  slot : ∀ i (h : i < d.storage.size) (h' : i < d'.storage.size),
    Option.Rel item d.storage[i] d'.storage[i]

/-- The storage with `f x` in place of each item `x`. -/
def map (f : α → α') (d : Detached α) : Detached α' :=
  { storage := d.storage.map (Option.map f), size := d.size, items := d.items, last := d.last }

theorem map_id (d : Detached α) : d.map id = d := by
  simp [map]

theorem matches_map {item : α → α' → Prop} {f : α → α'} {d : Detached α}
    (hf : ∀ x, some x ∈ d.storage → item x (f x)) : d.Matches item (d.map f) := by
  refine ⟨rfl, rfl, rfl, by simp [map], fun i hi _ => ?_⟩
  simp only [map, Array.getElem_map]
  cases hslot : d.storage[i] with
  | none => exact Option.Rel.none
  | some x => exact Option.Rel.some (hf x (hslot ▸ Array.getElem_mem hi))

/-- Where an item corresponds to one item only, so does the storage. -/
theorem eq_map_of_matches {item : α → α' → Prop} {f : α → α'} {d : Detached α} {d' : Detached α'}
    (hf : ∀ x y, item x y → y = f x) (h : d.Matches item d') : d' = d.map f := by
  obtain ⟨storage, _, _, _⟩ := d
  obtain ⟨storage', _, _, _⟩ := d'
  obtain ⟨rfl, rfl, rfl, hcap, hslot⟩ := h
  simp only [map, mk.injEq, and_true]
  refine Array.ext (by simpa using hcap) fun i hi' hi => ?_
  rw [Array.size_map] at hi
  have hrel := hslot i hi hi'
  rw [Array.getElem_map]
  generalize storage[i] = slot at hrel ⊢
  generalize storage'[i] = slot' at hrel ⊢
  cases hrel with
  | none => rfl
  | some h => rw [hf _ _ h]; rfl

/-- A sort of storage given as a vector. -/
theorem sort_vector (stable : Bool) (compare : Comparator ε σ α) {n : Nat}
    (v : Vector (Option α) n) (size items last : Nat) (s : σ) :
    sort stable compare ({ storage := v.toArray, size, items, last }, s) =
      match within 0 (min items n) (by omega)
        (if stable then mergeSort (onSlots compare) (min items n)
          else quickSort (onSlots compare) (min items n)) (v, s) with
      | .ok u (w, s) => .ok u ({ storage := w.toArray, size, items, last }, s)
      | .error e (w, s) => .error e ({ storage := w.toArray, size, items, last }, s) := by
  obtain ⟨storage, rfl⟩ := v
  have hv : Vector.mk storage rfl = storage.toVector := rfl
  simp only [sort, hv]
  cases within 0 (min items storage.size) _ _ (storage.toVector, s) with
  | ok u w => rfl
  | error e w => rfl

/-- A sort of storage that has room for the items. -/
theorem sort_items (stable : Bool) (compare : Comparator ε σ α) {m n : Nat} (v : Vector (Option α) n)
    (h : 0 + m ≤ n) (size last : Nat) (s : σ) :
    sort stable compare ({ storage := v.toArray, size, items := m, last }, s) =
      match within 0 m h (if stable then mergeSort (onSlots compare) m
        else quickSort (onSlots compare) m) (v, s) with
      | .ok u (w, s) => .ok u ({ storage := w.toArray, size, items := m, last }, s)
      | .error e (w, s) => .error e ({ storage := w.toArray, size, items := m, last }, s) := by
  have hcount : ∀ (count : Nat) (hle : 0 + count ≤ n), count = m →
      within 0 count hle (if stable then mergeSort (onSlots compare) count
        else quickSort (onSlots compare) count) (v, s) =
      within 0 m h (if stable then mergeSort (onSlots compare) m
        else quickSort (onSlots compare) m) (v, s) := by
    rintro _ _ rfl
    rfl
  rw [sort_vector, hcount (min m n) _ (by omega)]

variable {L : Likeness ε ε' σ σ'} {item : α → α' → Prop} {compare : Comparator ε σ α}
  {compare' : Comparator ε' σ' α'}

theorem comparators_onSlots (hc : L.Comparators item compare compare') :
    L.Comparators (Option.Rel item) (onSlots compare) (onSlots compare') := by
  intro a b a' b' ha hb
  cases ha with
  | none => exact Likeness.alike_pure rfl
  | some ha =>
    cases hb with
    | none => exact Likeness.alike_pure rfl
    | some hb => exact hc _ _ _ _ ha hb

/-- Sorts with comparators that say the same of items that correspond. -/
theorem alike_sort (hc : L.Comparators item compare compare') (stable : Bool) {d : Detached α}
    {d' : Detached α'} (hd : d.Matches item d') {s : σ} {s' : σ'} (hs : L.state s s') :
    Likeness.Results { state := fun p p' => p.1.Matches item p'.1 ∧ L.state p.2 p'.2, fault := L.fault }
      (fun _ _ => True) (sort stable compare (d, s)) (sort stable compare' (d', s')) := by
  obtain ⟨storage, _, _, _⟩ := d
  obtain ⟨storage', size, items, last⟩ := d'
  obtain ⟨rfl, rfl, rfl, hcap, hslot⟩ := hd
  -- both storages as vectors of one length
  obtain ⟨n, v, rfl⟩ : ∃ n, ∃ v : Vector (Option α) n, v.toArray = storage :=
    ⟨storage.size, storage.toVector, rfl⟩
  obtain ⟨v', rfl⟩ : ∃ v' : Vector (Option α') n, v'.toArray = storage' :=
    ⟨⟨storage', by simpa using hcap⟩, rfl⟩
  have hitem : ∀ i (h : i < n), Option.Rel item v[i] v'[i] := by
    intro i hi
    exact hslot i (by simpa using hi) (by simpa using hi)
  have hact : (L.onItems (Option.Rel item) (min items n)).Alike (fun _ _ => True)
      (if stable then mergeSort (onSlots compare) (min items n)
        else quickSort (onSlots compare) (min items n))
      (if stable then mergeSort (onSlots compare') (min items n)
        else quickSort (onSlots compare') (min items n)) := by
    split
    · exact Likeness.alike_mergeSort (comparators_onSlots hc) _
    · exact Likeness.alike_quickSort (comparators_onSlots hc) _
  have hmatches : ∀ (w : Vector (Option α) n) (w' : Vector (Option α') n),
      (∀ i (h : i < n), Option.Rel item w[i] w'[i]) →
      Matches item { storage := w.toArray, size, items, last }
        { storage := w'.toArray, size, items, last } := by
    intro w w' hw
    refine ⟨rfl, rfl, rfl, by simp, fun i hi _ => ?_⟩
    exact hw i (by simpa using hi)
  rw [sort_vector, sort_vector]
  rcases (hact.within (by omega : 0 + min items n ≤ n) (v, s) (v', s') ⟨hitem, hs⟩).cases with
    ⟨_, _, p, p', hx, hx', _, hp⟩ | ⟨e, e', p, p', hx, hx', he, hp⟩
  · rw [hx, hx']
    exact ⟨trivial, hmatches p.1 p'.1 hp.1, hp.2⟩
  · rw [hx, hx']
    exact ⟨he, hmatches p.1 p'.1 hp.1, hp.2⟩

end Detached

namespace SlotArray

variable {ε σ α : Type}

/-- The array that a sort leaves behind. One that cannot be sorted stays as it is. -/
def sorted (a : SlotArray α) (stable : Bool) (compare : Sorting.Comparator ε σ α) (s : σ) :
    SlotArray α :=
  match a.detach with
  | .error _ => a
  | .ok (d, emptied) => emptied.attach (Detached.settled (Detached.sort stable compare (d, s)))

theorem detach_eq_ok {a emptied : SlotArray α} {d : Detached α} (h : a.detach = .ok (d, emptied)) :
    (∀ slot ∈ a.storage.toList.take (min a.items a.storage.size), slot.isSome = true) ∧
      d = { storage := a.storage, size := a.size, items := a.items, last := a.last } ∧
      emptied = { shape := a.shape } := by
  obtain ⟨n, hn, h⟩ := bind_eq_ok h
  cases h
  refine ⟨fun slot hslot => ?_, rfl, rfl⟩
  unfold densePrefix at hn
  split at hn
  · cases hn
  · next hnone =>
    have hsome := Array.findIdx?_eq_none_iff.mp hnone slot ?_
    · simpa using hsome
    · rw [← Array.length_toList, ← List.take_eq_take_min] at hslot
      rwa [← Array.mem_toList_iff, Array.toList_extract, List.extract_eq_take_drop, List.drop_zero,
        Nat.sub_zero]

theorem cell_toList (block : Array (Option α)) (i : Nat) : cell block i = (block.toList[i]?).join := by
  rw [cell, Array.getElem?_toList]

/-- A sort changes the storage alone, and there nothing but the order of the first slots, which are
all occupied. -/
theorem sorted_cases (a : SlotArray α) (stable : Bool) (compare : Sorting.Comparator ε σ α) (s : σ) :
    ∃ storage, a.sorted stable compare s = { a with storage } ∧ storage.size = a.capacity ∧
      ∃ n, (∀ i < n, (a.slotAt i).isSome = true) ∧ (∀ i, n ≤ i → cell storage i = a.slotAt i) ∧
        ∀ i < n, ∃ j < n, cell storage i = a.slotAt j := by
  unfold sorted
  split
  · exact ⟨a.storage, rfl, rfl, 0, by omega, fun _ _ => rfl, by omega⟩
  · next d emptied hd =>
    obtain ⟨hdense, rfl, rfl⟩ := detach_eq_ok hd
    obtain ⟨storage, front, heq, hperm, hlist⟩ := Detached.settled_sort stable compare _ s
    rw [heq]
    dsimp only at hperm hlist
    generalize hn : min a.items a.storage.size = n at hdense hperm hlist
    have hfront : front.length = n := by
      rw [hperm.length_eq, List.length_take, Array.length_toList]
      omega
    have hslots : ∀ slot ∈ a.storage.toList.take n, ∃ j < n, slot = a.slotAt j := by
      intro slot hslot
      obtain ⟨j, hj⟩ := List.mem_iff_getElem?.mp hslot
      rw [List.getElem?_take] at hj
      split at hj
      · next hlt => exact ⟨j, hlt, by rw [slotAt, cell_toList, hj]; rfl⟩
      · cases hj
    refine ⟨storage, rfl, ?_, n, fun i hi => ?_, fun i hi => ?_, fun i hi => ?_⟩
    · rw [← Array.length_toList, hlist, List.length_append, hfront, List.length_drop,
        Array.length_toList, capacity]
      omega
    · have hlt : i < a.storage.toList.length := by
        rw [Array.length_toList]
        omega
      have hmem := List.mem_iff_getElem?.mpr ⟨i, (List.getElem?_take_of_lt hi).trans
        (List.getElem?_eq_getElem hlt)⟩
      rw [slotAt, cell_toList, List.getElem?_eq_getElem hlt]
      exact hdense _ hmem
    · rw [cell_toList, hlist, List.getElem?_append_right (by omega), hfront, List.getElem?_drop,
        Nat.add_sub_cancel' hi, slotAt, cell_toList]
    · have hlt : i < front.length := by omega
      obtain ⟨j, hj, heq⟩ := hslots front[i] (hperm.mem_iff.mp (List.getElem_mem hlt))
      refine ⟨j, hj, ?_⟩
      rw [cell_toList, hlist, List.getElem?_append_left hlt, List.getElem?_eq_getElem hlt, ← heq]
      rfl

section

variable (a : SlotArray α) (stable : Bool) (compare : Sorting.Comparator ε σ α) (s : σ)

theorem isSome_slotAt_sorted (i : Nat) :
    ((a.sorted stable compare s).slotAt i).isSome = (a.slotAt i).isSome := by
  obtain ⟨storage, heq, _, n, hdense, hrest, hfront⟩ := sorted_cases a stable compare s
  rw [heq]
  change (cell storage i).isSome = _
  by_cases hi : i < n
  · obtain ⟨j, hj, hcell⟩ := hfront i hi
    rw [hcell, hdense i hi, hdense j hj]
  · rw [hrest i (Nat.le_of_not_lt hi)]

variable {a}

theorem padded_sorted (ha : a.Padded) : (a.sorted stable compare s).Padded := by
  obtain ⟨storage, heq, hsize, _⟩ := sorted_cases a stable compare s
  refine ⟨?_, fun i hi => ?_⟩
  · rw [heq, capacity, hsize]
    exact ha.size_le
  · have hnone := isSome_slotAt_sorted a stable compare s i
    rw [heq] at hi
    rw [ha.spare i hi] at hnone
    exact Option.not_isSome_iff_eq_none.mp (by simp [hnone])

theorem mem_allItems_sorted (ha : a.Padded) {x : α}
    (hx : x ∈ (a.sorted stable compare s).allItems) : x ∈ a.allItems := by
  obtain ⟨i, _, hslot⟩ := mem_allItems.mp hx
  obtain ⟨storage, heq, _, n, _, hrest, hfront⟩ := sorted_cases a stable compare s
  rw [heq] at hslot
  change cell storage i = some x at hslot
  have hfound : ∃ j, a.slotAt j = some x := by
    by_cases hi : i < n
    · obtain ⟨j, _, hcell⟩ := hfront i hi
      exact ⟨j, by rw [← hcell, hslot]⟩
    · exact ⟨i, by rw [← hrest i (Nat.le_of_not_lt hi), hslot]⟩
  obtain ⟨j, hj⟩ := hfound
  exact mem_allItems.mpr ⟨j, ha.lt_size (by rw [hj]; rfl), hj⟩

end

end SlotArray

end Managed
