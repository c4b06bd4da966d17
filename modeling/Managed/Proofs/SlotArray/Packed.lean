import Managed.Proofs.SlotArray.Sorted
import Managed.Proofs.Sorting.Examined

/-!
# Packed arrays

An array that is only ever appended to is packed: its items fill all of its slots, and there may be
spare storage. It stands for the list of its items. Appending adds an item to the list as long as the
limit on elements allows it (`append_packed`, `append_packed_full`), and a sort arranges the list
(`sort_packed`).
-/

namespace Managed

/-- The storage of a packed array. -/
def Detached.packed {α : Type} (items : List α) (spare : Nat) : Detached α where
  storage := (items.map some).toArray ++ Array.replicate spare none
  size := items.length
  items := items.length
  last := items.length

namespace SlotArray

variable {α : Type}

/-- The array with the given items in all of its slots and with spare storage. -/
def packed (items : List α) (spare : Nat) : SlotArray α :=
  ({} : SlotArray α).attach (.packed items spare)

variable {items : List α} {spare : Nat}

theorem slots_packed : (packed items spare).slots = (items.map some).toArray := by
  have hsize : ((items.map some).toArray : Array (Option α)).size = items.length := by simp
  simp only [slots, packed, attach, Detached.packed, ← hsize]
  rw [Array.extract_append_left, Array.extract_size]

theorem capacity_packed : (packed items spare).capacity = items.length + spare := by
  simp [capacity, packed, attach, Detached.packed]

theorem allItems_packed : (packed items spare).allItems = items := by
  rw [allItems, entries, slots_packed, List.zipIdx_map, List.filterMap_map, List.map_filterMap]
  conv => rhs; rw [← List.zipIdx_map_fst 1 items, ← List.filterMap_eq_map]
  rfl

/-! ## Appending -/

theorem put_packed (x : α) :
    { packed items (spare + 1) with size := items.length + 1 }.put (items.length + 1) (some x) =
      packed (items ++ [x]) spare := by
  have hstorage : ((items.map some).toArray ++ Array.replicate (spare + 1) none).setIfInBounds
      items.length (some x) = ((items ++ [x]).map some).toArray ++ Array.replicate spare none := by
    apply Array.toList_inj.mp
    simp [List.replicate_succ]
  have hheld : occupied (packed items (spare + 1)).storage (items.length + 1) = false := by
    simp [occupied, packed, attach, Detached.packed]
  simp only [put, hheld]
  simp [packed, attach, Detached.packed, hstorage]

theorem withRoom_packed (spare : Nat) {limits : ArrayLimits} (hword : items.length + 1 ≤ Word.max)
    (hmax : items.length + 1 ≤ limits.maxElements) :
    ∃ spare', (packed items spare).withRoom (items.length + 1) limits = packed items (spare' + 1) := by
  have hgrown := le_grownCapacity hmax hword
  unfold withRoom
  split
  · next hroom =>
    rw [capacity_packed] at hroom
    exact ⟨spare - 1, by rw [Nat.sub_add_cancel (by omega)]⟩
  · refine ⟨limits.grownCapacity (items.length + 1) - items.length - 1, ?_⟩
    rw [reallocate, slots_packed, Nat.sub_add_cancel (by omega)]
    rfl

/-- Appending asks for one more slot. -/
theorem append_packed_cases {limits : ArrayLimits} (x : α) (hword : items.length + 1 ≤ Word.max) :
    (packed items spare).append x limits =
      if limits.maxElements < items.length + 1 then
        .error (.capacityExceeded (items.length + 1) limits.maxElements)
      else
        .ok (items.length + 1, { (packed items spare).withRoom (items.length + 1) limits with
          size := items.length + 1 }.put (items.length + 1) (some x)) := by
  have hsize : (packed items spare).size < (packed items spare).last + 1 := Nat.lt_succ_self _
  have hone : (packed items spare).last + 1 - (packed items spare).size = 1 :=
    Nat.add_sub_cancel_left items.length 1
  have hsum : Word.addSat (packed items spare).size 1 = items.length + 1 := Nat.min_eq_left hword
  have hlinear : ∀ op, (packed items spare).requireLinear op = .ok () := fun _ => rfl
  simp only [append_eq, growTo_eq, hlinear, if_pos hsize, hone, extend_eq, hsum, bind, Except.bind,
    ArrayLimits.check]
  by_cases hmax : limits.maxElements < items.length + 1
  · simp only [if_pos hmax]
  · simp only [if_neg hmax]
    rfl

theorem append_packed (spare : Nat) {limits : ArrayLimits} (x : α) (hword : items.length + 1 ≤ Word.max)
    (hmax : items.length + 1 ≤ limits.maxElements) :
    ∃ spare', (packed items spare).append x limits =
      .ok (items.length + 1, packed (items ++ [x]) spare') := by
  obtain ⟨spare', hroom⟩ := withRoom_packed spare hword hmax
  refine ⟨spare', ?_⟩
  rw [append_packed_cases x hword, if_neg (by omega), hroom, put_packed]

theorem append_packed_full (spare : Nat) {limits : ArrayLimits} (x : α) (hword : items.length + 1 ≤ Word.max)
    (hmax : limits.maxElements < items.length + 1) :
    (packed items spare).append x limits =
      .error (.capacityExceeded (items.length + 1) limits.maxElements) := by
  rw [append_packed_cases x hword, if_pos hmax]

/-! ## Sorting -/

theorem detach_packed :
    (packed items spare).detach = .ok (.packed items spare, {}) := by
  have hfront : (packed items spare).storage.extract 0 (packed items spare).items =
      (items.map some).toArray := slots_packed
  have hdense : (packed items spare).densePrefix = .ok items.length := by
    unfold densePrefix
    rw [hfront, Array.findIdx?_eq_none_iff.mpr (by simp)]
    rfl
  rw [detach, hdense]
  rfl

end SlotArray

namespace Detached

open Sorting

variable {ε ε' σ σ' α α' : Type} {L : Likeness ε ε' σ σ'} {item : α → α' → Prop}
  {compare : Comparator ε σ α} {compare' : Comparator ε' σ' α'}

theorem alike_occupied (hc : L.Comparators item compare compare') (stable : Bool) (n : Nat) :
    (L.onItems (fun slot x' => ∃ x, slot = some x ∧ item x x') n).Alike (fun _ _ => True)
      (arrange stable (onSlots compare) n) (arrange stable compare' n) := by
  refine Likeness.alike_arrange ?_ stable n
  rintro _ _ a' b' ⟨a, rfl, ha⟩ ⟨b, rfl, hb⟩
  exact hc a b a' b' ha hb

/-- Items that fill the first slots are sorted as they would be by themselves. -/
theorem sort_front (stable : Bool) (compare : Comparator ε σ α) (items : List α)
    (rest : Array (Option α)) (size last : Nat) (s : σ) :
    let front (items : List α) : Array (Option α) := (items.map some).toArray ++ rest
    sort stable compare ({ storage := front items, size, items := items.length, last }, s) =
      match arrange stable compare items.length (⟨items.toArray, rfl⟩, s) with
      | .ok u (w, s) =>
        .ok u ({ storage := front w.toList, size, items := items.length, last }, s)
      | .error e (w, s) =>
        .error e ({ storage := front w.toList, size, items := items.length, last }, s) := by
  intro front
  let same : Likeness ε ε σ σ := { state := Eq, fault := Eq }
  have hc : same.Comparators Eq compare compare := by
    rintro a b _ _ rfl rfl t _ rfl
    cases compare a b t <;> exact ⟨rfl, rfl⟩
  have h : 0 + items.length ≤ items.length + rest.size := by omega
  obtain ⟨u, hu⟩ : ∃ u : Vector (Option α) (items.length + rest.size),
      u.toArray = front items :=
    ⟨⟨front items, by simp [front]⟩, rfl⟩
  have hlist : u.toList = items.map some ++ rest.toList := by simp [Vector.toList, hu, front]
  have hslots : ∀ i (hi : i < items.length),
      ∃ x, (slice u 0 items.length h)[i] = some x ∧
        x = (⟨items.toArray, rfl⟩ : Vector α items.length)[i] := by
    intro i hi
    refine ⟨items[i], ?_, rfl⟩
    have hslot : u.toList[i]? = some (some items[i]) := by
      rw [hlist, List.getElem?_append_left (by simpa using hi)]
      simp [hi]
    rw [Vector.getElem?_toList, Vector.getElem?_eq_some_iff] at hslot
    rw [Likeness.getElem_slice]
    simpa using hslot.2
  have hspliced : ∀ (w : Vector (Option α) items.length) (w' : Vector α items.length),
      (∀ i (_ : i < items.length), ∃ x, w[i] = some x ∧ x = w'[i]) →
      (splice u 0 h w).toArray = front w'.toList := by
    intro w w' hw
    have hsome : w = w'.map some := by
      refine Vector.ext fun i hi => ?_
      obtain ⟨x, hx, rfl⟩ := hw i hi
      rw [hx, Vector.getElem_map]
    apply Array.toList_inj.mp
    change (splice u 0 h w).toList = _
    rw [toList_splice, hlist, hsome]
    simp [front, Vector.toList_map]
  rw [← hu, sort_items stable compare u h, within]
  rcases (alike_occupied hc stable items.length (slice u 0 _ h, s) (⟨items.toArray, rfl⟩, s)
    ⟨hslots, rfl⟩).cases with
    ⟨_, _, ⟨w, t⟩, ⟨w', _⟩, hx, hx', _, hw, rfl⟩ | ⟨_, _, ⟨w, t⟩, ⟨w', _⟩, hx, hx', rfl, hw, rfl⟩
  · rw [arrange] at hx
    rw [hx, hx']
    simp only [hspliced w w' hw]
  · rw [arrange] at hx
    rw [hx, hx']
    simp only [hspliced w w' hw]

/-- The items of a packed array are sorted as the things that correspond to them are. -/
theorem sort_packed (hc : L.Comparators item compare compare') (stable : Bool) {items : List α}
    (spare : Nat) {n : Nat} {v v' : Vector α' n} {s : σ} {s' t' : σ'}
    (hitems : List.Forall₂ item items v.toList) (hs : L.state s s')
    (hrun : (if stable then mergeSort compare' n else quickSort compare' n) (v, s') =
      .ok () (v', t')) :
    ∃ m t, sort stable compare (packed items spare, s) = .ok () (packed m spare, t) ∧
      List.Forall₂ item m v'.toList ∧ L.state t t' := by
  obtain rfl : n = items.length := by rw [hitems.length_eq, Vector.length_toList]
  have hstart : ∀ i (_ : i < items.length),
      item (⟨items.toArray, rfl⟩ : Vector α items.length)[i] v[i] := by
    intro i hi
    have hget := hitems.get hi (by simpa using hi)
    simpa using hget
  have hrun' : arrange stable compare' items.length (v, s') = .ok () (v', t') := hrun
  have hsort : sort stable compare (packed items spare, s) = _ :=
    sort_front stable compare items (Array.replicate spare none) items.length items.length s
  rcases (Likeness.alike_arrange hc stable items.length (⟨items.toArray, rfl⟩, s) (v, s')
    ⟨hstart, hs⟩).cases with
    ⟨_, _, ⟨w, t⟩, _, hok, hok', _, hw, ht⟩ | ⟨_, _, _, _, _, herr', _⟩
  · rw [hrun'] at hok'
    cases hok'
    refine ⟨w.toList, t, ?_, Likeness.forall₂_toList hw, ht⟩
    rw [hsort, hok]
    simp [packed]
  · rw [hrun'] at herr'
    cases herr'

end Detached

end Managed
