import Managed.Proofs.Space.Barriers

/-!
# Sorts in a space

While an array is sorted the space shows it empty, and every comparator call gets that space
(`sortBy_recording`). Afterwards the space is the one from before with the sorted array in place of the
array, whether the comparator has failed or not (`sortBy_of_ok`). The two kinds of sort are cases of
one, with the memory of the comparator forgotten in the end (`sort_eq`, `sortWith_eq`).
-/

namespace Managed.Space

variable {σ : Type} {s : Space} {r : Ref}

/-! ## What a sort leaves -/

theorem sortBy_of_error {e : Fault} (hd : s.array r >>= SlotArray.detach = .error e) (stable : Bool)
    (compare : Space → Sorting.Comparator Fault σ Ref) (memory : σ) :
    sortBy r stable compare (s, memory) = .error e (s, memory) := by
  simp only [sortBy, hd]

theorem sortBy_of_ok {d : Detached Ref} {emptied : SlotArray Ref}
    (hd : s.array r >>= SlotArray.detach = .ok (d, emptied)) (stable : Bool)
    (compare : Space → Sorting.Comparator Fault σ Ref) (memory : σ) :
    sortBy r stable compare (s, memory) =
      match Detached.sort stable (compare (s.setObject r (.array emptied))) (d, memory) with
      | .ok u (e, memory) => .ok u (s.setObject r (.array (emptied.attach e)), memory)
      | .error fault (e, memory) =>
        .error fault (s.setObject r (.array (emptied.attach e)), memory) := by
  obtain ⟨a, ha, _⟩ := bind_eq_ok hd
  simp only [sortBy, hd]
  cases Detached.sort stable (compare (s.setObject r (.array emptied))) (d, memory) with
  | ok u e => simp only [setObject_setObject (array_eq_ok.mp ha)]
  | error fault e => simp only [setObject_setObject (array_eq_ok.mp ha)]

/-- A sort that is not refused puts the sorted array in place of the array, also if it fails. -/
theorem sortBy_sorted {a emptied : SlotArray Ref} {d : Detached Ref} (ha : s.array r = .ok a)
    (hd : a.detach = .ok (d, emptied)) (stable : Bool)
    (compare : Space → Sorting.Comparator Fault σ Ref) (memory : σ) :
    let sorted := a.sorted stable (compare (s.setObject r (.array emptied))) memory
    ∃ memory', sortBy r stable compare (s, memory) = .ok () (s.setObject r (.array sorted), memory') ∨
      ∃ e, sortBy r stable compare (s, memory) = .error e (s.setObject r (.array sorted), memory') := by
  have hd' : s.array r >>= SlotArray.detach = .ok (d, emptied) := by
    rw [ha]
    exact hd
  rw [sortBy_of_ok hd', SlotArray.sorted, hd]
  dsimp only
  cases Detached.sort stable (compare (s.setObject r (.array emptied))) (d, memory) with
  | ok u p => exact ⟨p.2, Or.inl rfl⟩
  | error e p => exact ⟨p.2, Or.inr ⟨e, rfl⟩⟩

/-- A sort, after which the memory of the comparator is forgotten. -/
def sorting (r : Ref) (stable : Bool) (compare : Space → Sorting.Comparator Fault σ Ref)
    (memory : σ) : SpaceM Unit := fun s =>
  match sortBy r stable compare (s, memory) with
  | .ok u (s, _) => .ok u s
  | .error e (s, _) => .error e s

theorem sorting_of_error {e : Fault} (hd : s.array r >>= SlotArray.detach = .error e) (stable : Bool)
    (compare : Space → Sorting.Comparator Fault σ Ref) (memory : σ) :
    sorting r stable compare memory s = .error e s := by
  simp only [sorting, sortBy_of_error hd]

theorem sorting_of_ok {d : Detached Ref} {emptied : SlotArray Ref}
    (hd : s.array r >>= SlotArray.detach = .ok (d, emptied)) (stable : Bool)
    (compare : Space → Sorting.Comparator Fault σ Ref) (memory : σ) :
    sorting r stable compare memory s =
      match Detached.sort stable (compare (s.setObject r (.array emptied))) (d, memory) with
      | .ok u (e, _) => .ok u (s.setObject r (.array (emptied.attach e)))
      | .error fault (e, _) => .error fault (s.setObject r (.array (emptied.attach e))) := by
  simp only [sorting, sortBy_of_ok hd]
  cases Detached.sort stable (compare (s.setObject r (.array emptied))) (d, memory) <;> rfl

theorem left_sorting {a emptied : SlotArray Ref} {d : Detached Ref} (ha : s.array r = .ok a)
    (hd : a.detach = .ok (d, emptied)) (stable : Bool)
    (compare : Space → Sorting.Comparator Fault σ Ref) (memory : σ) :
    left (sorting r stable compare memory s) =
      s.setObject r (.array (a.sorted stable (compare (s.setObject r (.array emptied))) memory)) := by
  obtain ⟨memory', hrun | ⟨e, hrun⟩⟩ := sortBy_sorted ha hd stable compare memory
  · rw [sorting, hrun]
    rfl
  · rw [sorting, hrun]
    rfl

/-! ## The two kinds of sort -/

/-- The comparator of a sort by the natural order. -/
def natural (s : Space) : Sorting.Comparator Fault Unit Ref := fun a b memory =>
  match s.compareNatural a b with
  | .ok o => .ok o memory
  | .error e => .error e memory

theorem sort_eq (r : Ref) (stable : Bool) : sort r stable = sorting r stable natural () := by
  funext s
  unfold sorting
  -- the comparator that `sort` builds is `natural` once both are unfolded
  cases h : sortBy r stable natural (s, ()) with
  | ok u t =>
    simp only [sort]
    erw [h]
  | error e t =>
    simp only [sort]
    erw [h]

/-- The comparator of a sort by answers. -/
def answered (comparator : ObjectComparator σ) (s : Space) : Sorting.Comparator Fault σ Ref :=
  fun a b memory =>
    let (answer, memory) := comparator s a b memory
    match verdict answer with
    | .ok o => .ok o memory
    | .error e => .error e memory

theorem sortWith_eq (r : Ref) (stable : Bool) (comparator : ObjectComparator σ) (memory : σ) :
    (Operation.sortWith r stable comparator memory).run =
      (fun _ => .done) <$> sorting r stable (answered comparator) memory := by
  funext s
  have hanswered : sortWith r stable comparator = sortBy r stable (answered comparator) := rfl
  simp only [Operation.run, Functor.map, EStateM.map, sorting, hanswered]
  cases sortBy r stable (answered comparator) (s, memory) <;> rfl

theorem sortByAnswer_eq (r : Ref) (stable : Bool) (answer : Space → Ref → Ref → Option Object) :
    sortByAnswer r stable answer =
      sorting r stable (answered fun s a b memory => (answer s a b, memory)) () := by
  funext s
  have hanswered : sortWith r stable (fun s a b memory => (answer s a b, memory)) =
      sortBy r stable (answered fun s a b (memory : Unit) => (answer s a b, memory)) := rfl
  simp only [sortByAnswer, sorting, hanswered]
  cases sortBy r stable (answered fun s a b memory => (answer s a b, memory)) (s, ()) <;> rfl

/-! ## A record of the calls -/

/-- The comparator with a record of the spaces that it is called with. -/
def recording (compare : Space → Sorting.Comparator Fault σ Ref) :
    Space → Sorting.Comparator Fault (σ × List Space) Ref := fun s a b (memory, calls) =>
  match compare s a b memory with
  | .ok o memory => .ok o (memory, s :: calls)
  | .error e memory => .error e (memory, s :: calls)

/-- A result with a record of calls beside the memory. -/
def recorded (calls : List Space) :
    EStateM.Result Fault (Space × σ) Unit → EStateM.Result Fault (Space × σ × List Space) Unit
  | .ok u (s, memory) => .ok u (s, memory, calls)
  | .error e (s, memory) => .error e (s, memory, calls)

/-- To keep a record makes no difference to a sort, and all calls on record are with the space that
shows the array empty. -/
theorem sortBy_recording {d : Detached Ref} {emptied : SlotArray Ref}
    (hd : s.array r >>= SlotArray.detach = .ok (d, emptied)) (stable : Bool)
    (compare : Space → Sorting.Comparator Fault σ Ref) (memory : σ) :
    ∃ calls, sortBy r stable (recording compare) (s, memory, []) =
        recorded calls (sortBy r stable compare (s, memory)) ∧
      ∀ t ∈ calls, t = s.setObject r (.array emptied) := by
  let within : Sorting.Likeness Fault Fault σ (σ × List Space) :=
    { state := fun m p => p.1 = m ∧ ∀ t ∈ p.2, t = s.setObject r (.array emptied), fault := Eq }
  have hc : within.Comparators Eq (compare (s.setObject r (.array emptied)))
      (recording compare (s.setObject r (.array emptied))) := by
    rintro a b _ _ rfl rfl _ ⟨m, calls⟩ ⟨rfl, hcalls⟩
    have hpush : ∀ t ∈ s.setObject r (.array emptied) :: calls,
        t = s.setObject r (.array emptied) := by
      intro t ht
      rcases List.mem_cons.mp ht with rfl | ht
      · rfl
      · exact hcalls t ht
    unfold recording
    dsimp only
    cases compare (s.setObject r (.array emptied)) a b m with
    | ok o m' => exact ⟨rfl, rfl, hpush⟩
    | error e m' => exact ⟨rfl, rfl, hpush⟩
  rw [sortBy_of_ok hd, sortBy_of_ok hd]
  have hmatch : d.Matches Eq (d.map id) := Detached.matches_map fun _ _ => rfl
  rw [Detached.map_id] at hmatch
  have hsame : ∀ {e e' : Detached Ref}, e.Matches Eq e' → e' = e := by
    intro e e' he
    rw [Detached.eq_map_of_matches (f := id) (fun _ _ h => h.symm) he, Detached.map_id]
  have hstart : within.state memory (memory, []) := ⟨rfl, nofun⟩
  rcases (Detached.alike_sort hc stable hmatch hstart).cases with
    ⟨_, _, ⟨e, m⟩, ⟨e', _, calls⟩, hx, hx', _, he, rfl, hcalls⟩ |
    ⟨_, _, ⟨e, m⟩, ⟨e', _, calls⟩, hx, hx', rfl, he, rfl, hcalls⟩
  · obtain rfl : e' = e := hsame he
    rw [hx, hx']
    exact ⟨calls, rfl, hcalls⟩
  · obtain rfl : e' = e := hsame he
    rw [hx, hx']
    exact ⟨calls, rfl, hcalls⟩

end Managed.Space
