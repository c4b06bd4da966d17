import Managed.Proofs.Heap.Generations

/-!
# Handles and objects

The chronicle of a run lists its objects in the order of their allocation, each with the handle it was
given out under, the value last stored through that handle and whether a collection has freed it. What
a collection frees is read off the table: an object is gone when its slot is empty. The chronicle knows
nothing of serials. A heap answers as the chronicle says (`Told`) as long as no slot has been freed
`2 ^ 32` times, so no two objects ever share a handle (`handles_never_alias`).
-/

namespace Managed

/-- What has become of an object. -/
structure Life (α : Type) where
  ref : Ref
  value : α
  freed : Bool := false
deriving DecidableEq

namespace Heap

variable {α : Type}

def occupied (h : Heap α) (i : Nat) : Bool :=
  (h.slots[i]?.bind Slot.entry).isSome

theorem occupied_of_contains {h : Heap α} {r : Ref} (hr : h.contains r = true) :
    h.occupied r.index = true := by
  obtain ⟨e, he⟩ := contains_iff.mp hr
  obtain ⟨s, hs, _, hentry⟩ := resolve?_eq_some.mp he
  simp [occupied, hs, hentry]

theorem contains_of_occupied {h : Heap α} {i : Nat} {u : UInt32} (ho : h.occupied i = true)
    (hu : h.serial? i = some u) : h.contains ⟨i, u⟩ = true := by
  obtain ⟨s, hs, rfl⟩ := Option.map_eq_some_iff.mp hu
  simpa [occupied, contains, resolve?, hs, Slot.entryFor?_eq] using ho

/-- After a collection the slot of an object is empty or still holds that object. -/
theorem occupied_collect [Traced α] {h : Heap α} (ht : h.Tidy) (kind : CollectionKind)
    (roots : RootSet) {r : Ref} (hr : h.contains r = true) :
    (h.collect kind roots).occupied r.index = (h.collect kind roots).contains r := by
  cases hc : (h.collect kind roots).contains r with
  | true => exact occupied_of_contains hc
  | false =>
    obtain ⟨e, he⟩ := contains_iff.mp hr
    have hser := serial?_collect ht kind roots r.index
    rw [serial?_of_resolve? he, Option.map_some, hr, hc, Bool.not_false, Bool.and_self,
      if_pos rfl] at hser
    rw [Bool.eq_false_iff]
    intro ho
    -- an object under the next serial would have been there before
    have hnext := contains_of_occupied ho hser
    rw [contains_collect ht, Bool.and_eq_true] at hnext
    obtain ⟨e', he'⟩ := contains_iff.mp hnext.1
    have hbefore : h.serial? r.index = some (r.serial + 1) := serial?_of_resolve? he'
    rw [serial?_of_resolve? he] at hbefore
    simp at hbefore

theorem get?_setValue (h : Heap α) (r : Ref) (v : α) (x : Ref) :
    (h.modifyEntry r fun e => { e with value := v }).get? x =
      if x = r ∧ h.contains r = true then some v else h.get? x := by
  rw [get?, resolve?_modifyEntry]
  by_cases hx : x = r
  · subst hx
    cases he : h.resolve? x <;> simp [contains, he, get?]
  · rw [if_neg hx, if_neg fun hx' => hx hx'.1]
    rfl

theorem get?_eq_none {h : Heap α} {r : Ref} : h.get? r = none ↔ h.contains r = false := by
  simp [get?, contains]

/-- A handle under which there is an object. -/
theorem access_of_get? {h : Heap α} {r : Ref} {v : α} (hv : h.get? r = some v) :
    h.contains r = true ∧ h.get r = .ok v ∧ (∃ g, h.generation r = .ok g) ∧
      ∀ w, ∃ h', h.set r w = .ok h' ∧ h'.get r = .ok w := by
  obtain ⟨e, he, rfl⟩ := get?_eq_some.mp hv
  have hc : h.contains r = true := contains_iff.mpr ⟨e, he⟩
  refine ⟨hc, by rw [get, he], ⟨_, by rw [generation, he]⟩, fun w => ⟨_, if_pos hc, ?_⟩⟩
  rw [get, resolve?_modifyEntry, if_pos rfl, he]
  rfl

/-- A handle under which there is none. -/
theorem stale_of_not_contains [Traced α] {h : Heap α} {r : Ref} (hr : h.contains r = false) :
    h.get r = .error (.stale r) ∧ h.generation r = .error (.stale r) ∧
      h.tenure r = .error (.stale r) ∧ ∀ w, h.set r w = .error (.stale r) := by
  have hnone : h.resolve? r = none := by simpa [contains] using hr
  exact ⟨by rw [get, hnone], by rw [generation, hnone], by rw [tenure, hnone],
    fun w => if_neg (by rw [hr]; exact Bool.false_ne_true)⟩

end Heap

/-! ## The chronicle of a run -/

variable {α : Type} [Traced α]

/-- The objects after an action on a heap. -/
def Action.onLives (h : Heap α) (roots : RootSet) (lives : List (Life α)) :
    Action α → List (Life α)
  | alloc value =>
    match h.alloc value with
    | .ok (ref, _) => lives ++ [{ ref, value }]
    | .error _ => lives
  | store owner value _ =>
    lives.map fun o => if o.ref = owner ∧ o.freed = false then { o with value } else o
  | collect kind =>
    lives.map fun o =>
      if (h.collect kind roots).occupied o.ref.index then o else { o with freed := true }
  | barrier _ _ | tenure _ | pushStack _ | clearStack | addGlobal _ | removeGlobal _ => lives

namespace Session

/-- The objects after a run, given those before it. -/
def chronicle (s : Session α) (lives : List (Life α)) : List (Action α) → List (Life α)
  | [] => lives
  | a :: rest => (s.act a).chronicle (a.onLives s.heap s.roots lives) rest

/-- A heap answers as its chronicle says. -/
structure Told (s : Session α) (lives : List (Life α)) : Prop where
  tidy : s.heap.Tidy
  numbered : s.heap.Numbered s.issued s.freed
  refs : lives.map Life.ref = s.issued
  nodup : s.issued.Nodup
  kept : ∀ o ∈ lives, o.freed = false → s.heap.get? o.ref = some o.value
  gone : ∀ o ∈ lives, o.freed = true → s.heap.contains o.ref = false

theorem told_start (limits : HeapLimits) : (start limits : Session α).Told [] :=
  ⟨(sound_start limits).tidy, Heap.numbered_empty limits, rfl, List.nodup_nil, by simp, by simp⟩

variable {s : Session α} {lives : List (Life α)}

omit [Traced α] in
theorem Told.issued (ht : s.Told lives) {o : Life α} (ho : o ∈ lives) : o.ref ∈ s.issued := by
  rw [← ht.refs]
  exact List.mem_map_of_mem ho

/-- An action that gives out no handle. The objects are as before, with other values or freed. -/
theorem Told.of_map (ht : s.Told lives) (hf : ∀ i, s.freed i < 2 ^ 32) {a : Action α}
    (halloc : ∀ v, a ≠ .alloc v) (f : Life α → Life α) (href : ∀ o, (f o).ref = o.ref)
    (hone : ∀ o ∈ lives,
      ((f o).freed = false → (s.act a).heap.get? o.ref = some (f o).value) ∧
      ((f o).freed = true → (s.act a).heap.contains o.ref = false)) :
    (s.act a).Told (lives.map f) where
  tidy := Heap.tidy_onHeap ht.tidy s.roots a
  numbered := numbered_act ht.tidy ht.numbered hf a
  refs := by
    rw [issued_of_not_alloc s halloc, ← ht.refs, List.map_map]
    exact List.map_congr_left fun o _ => href o
  nodup := by
    rw [issued_of_not_alloc s halloc]
    exact ht.nodup
  kept := by
    intro o' ho'
    obtain ⟨o, ho, rfl⟩ := List.mem_map.mp ho'
    rw [href]
    exact (hone o ho).1
  gone := by
    intro o' ho'
    obtain ⟨o, ho, rfl⟩ := List.mem_map.mp ho'
    rw [href]
    exact (hone o ho).2

/-- An action that changes no object. -/
theorem Told.of_same (ht : s.Told lives) (hf : ∀ i, s.freed i < 2 ^ 32) {a : Action α}
    (halloc : ∀ v, a ≠ .alloc v) (hget : ∀ x, (s.act a).heap.get? x = s.heap.get? x) :
    (s.act a).Told lives := by
  rw [← List.map_id lives]
  refine ht.of_map hf halloc id (fun _ => rfl) fun o ho => ⟨fun hk => ?_, fun hg => ?_⟩
  · exact (hget o.ref).trans (ht.kept o ho hk)
  · exact Heap.get?_eq_none.mp ((hget o.ref).trans (Heap.get?_eq_none.mpr (ht.gone o ho hg)))

theorem told_alloc (ht : s.Told lives) (hf : ∀ i, s.freed i < 2 ^ 32) (v : α) :
    (s.act (.alloc v)).Told (Action.onLives s.heap s.roots lives (.alloc v)) := by
  have hn := numbered_act ht.tidy ht.numbered hf (.alloc v)
  have htidy := Heap.tidy_onHeap ht.tidy s.roots (.alloc v)
  cases ha : s.heap.alloc v with
  | error e =>
    simp only [Action.onLives, ha]
    have hheap : (s.act (.alloc v)).heap = s.heap := by simp only [act, Action.onHeap, ha]
    have hissued : (s.act (.alloc v)).issued = s.issued := by
      simp only [act, Action.gives, ha, List.append_nil]
    exact ⟨htidy, hn, by rw [hissued, ht.refs], by rw [hissued]; exact ht.nodup,
      by rw [hheap]; exact ht.kept, by rw [hheap]; exact ht.gone⟩
  | ok p =>
    obtain ⟨r, h'⟩ := p
    have hal := Heap.alloc_cases ha ht.tidy.free_vacant
    have hfresh := hal.fresh ht.numbered (hf r.index)
    have hother : ∀ o ∈ lives, o.ref ≠ r := by
      rintro o ho rfl
      exact hfresh (ht.issued ho)
    have hheap : (s.act (.alloc v)).heap = h' := by simp only [act, Action.onHeap, ha]
    have hissued : (s.act (.alloc v)).issued = s.issued ++ [r] := by
      simp only [act, Action.gives, ha]
    simp only [Action.onLives, ha]
    refine ⟨htidy, hn, by rw [hissued, List.map_append, ht.refs]; rfl, ?_, fun o ho hk => ?_,
      fun o ho hg => ?_⟩
    · rw [hissued]
      refine List.nodup_append.mpr ⟨ht.nodup, List.nodup_cons.mpr ⟨by simp, List.nodup_nil⟩, ?_⟩
      rintro x hx y hy rfl
      exact hfresh (List.mem_singleton.mp hy ▸ hx)
    · rw [hheap, hal.get?]
      rcases List.mem_append.mp ho with ho | ho
      · rw [if_neg (hother o ho)]
        exact ht.kept o ho hk
      · rw [List.mem_singleton.mp ho, if_pos rfl]
    · rw [hheap, hal.contains]
      rcases List.mem_append.mp ho with ho | ho
      · rw [ht.gone o ho hg, Bool.or_false, beq_eq_false_iff_ne]
        exact hother o ho
      · rw [List.mem_singleton.mp ho] at hg
        cases hg

theorem get?_store (ht : s.heap.Tidy) (owner : Ref) (v : α) (stored : List Ref) (x : Ref) :
    (s.act (.store owner v stored)).heap.get? x =
      if x = owner ∧ s.heap.contains owner = true then some v else s.heap.get? x := by
  simp only [act, Action.onHeap]
  split
  · next h' hset =>
    obtain ⟨_, rfl⟩ := Heap.set_eq_ok hset
    have ht₁ : (s.heap.modifyEntry owner fun e => { e with value := v }).Tidy :=
      Heap.tidy_modifyEntry ht owner (fun _ => rfl) fun _ => rfl
    rw [(Heap.foldl_writeBarrier ht₁.recorded owner stored).1.get?, Heap.get?_setValue]
  · next e hset =>
    rw [if_neg]
    rintro ⟨_, hc⟩
    rw [Heap.set, if_pos hc] at hset
    cases hset

theorem told_store (ht : s.Told lives) (hf : ∀ i, s.freed i < 2 ^ 32) (owner : Ref) (v : α)
    (stored : List Ref) :
    (s.act (.store owner v stored)).Told
      (Action.onLives s.heap s.roots lives (.store owner v stored)) := by
  refine ht.of_map hf (by simp) _ (fun o => by split <;> rfl) fun o ho => ?_
  have hget := get?_store ht.tidy owner v stored o.ref
  cases hk : o.freed with
  | false =>
    have hold := ht.kept o ho hk
    have hc : s.heap.contains o.ref = true := Heap.contains_iff_get?.mpr ⟨_, hold⟩
    by_cases hown : o.ref = owner
    · subst hown
      simp [hget, hc]
    · simp [hget, hown, hk, hold]
  | true =>
    have hc := ht.gone o ho hk
    rw [if_neg (by rintro ⟨rfl, hc'⟩; simp [hc] at hc'), Heap.get?_eq_none.mpr hc] at hget
    simp [hk, Heap.get?_eq_none.mp hget]

theorem told_collect (ht : s.Told lives) (hf : ∀ i, s.freed i < 2 ^ 32) (kind : CollectionKind) :
    (s.act (.collect kind)).Told (Action.onLives s.heap s.roots lives (.collect kind)) := by
  have hheap : (s.act (.collect kind)).heap = s.heap.collect kind s.roots := rfl
  refine ht.of_map hf (by simp) _ (fun o => by split <;> rfl) fun o ho => ?_
  rw [hheap]
  cases hk : o.freed with
  | false =>
    have hold := ht.kept o ho hk
    have hc : s.heap.contains o.ref = true := Heap.contains_iff_get?.mpr ⟨_, hold⟩
    rw [Heap.occupied_collect ht.tidy kind s.roots hc, Heap.contains_collect ht.tidy, hc,
      Heap.get?_collect ht.tidy, hold]
    cases s.heap.spares kind s.roots o.ref <;> simp [hk]
  | true =>
    have hgone := ht.gone o ho hk
    have hfreed : (if (s.heap.collect kind s.roots).occupied o.ref.index then o
        else { o with freed := true }).freed = true := by split <;> simp [hk]
    rw [hfreed, Heap.contains_collect ht.tidy, hgone]
    simp

theorem told_act (ht : s.Told lives) (hf : ∀ i, s.freed i < 2 ^ 32) (a : Action α) :
    (s.act a).Told (a.onLives s.heap s.roots lives) := by
  cases a with
  | alloc v => exact told_alloc ht hf v
  | store owner v stored => exact told_store ht hf owner v stored
  | collect kind => exact told_collect ht hf kind
  | barrier owner v =>
    exact ht.of_same hf (by simp) (Heap.sameObjects_writeBarrier s.heap owner v).get?
  | tenure r =>
    refine ht.of_same hf (by simp) fun x => ?_
    simp only [act, Action.onHeap]
    split
    · next h' hten =>
      rcases Heap.tenure_cases hten with rfl | rfl
      · rfl
      · rw [(Heap.sameObjects_rememberHolder _ r).get?, Heap.get?_tenured]
    · rfl
  | pushStack _ => exact ht.of_same hf (by simp) fun _ => rfl
  | clearStack => exact ht.of_same hf (by simp) fun _ => rfl
  | addGlobal _ => exact ht.of_same hf (by simp) fun _ => rfl
  | removeGlobal _ => exact ht.of_same hf (by simp) fun _ => rfl

theorem told_run (ht : s.Told lives) {actions : List (Action α)}
    (hf : ∀ i, (s.run actions).freed i < 2 ^ 32) :
    (s.run actions).Told (s.chronicle lives actions) := by
  induction actions generalizing s lives with
  | nil => exact ht
  | cons a rest ih =>
    have hnow : ∀ i, s.freed i < 2 ^ 32 := fun i =>
      Nat.lt_of_le_of_lt (freed_le_run s (a :: rest) i) (hf i)
    exact ih (told_act ht hnow a) hf

/-- Handles never alias. In a run in which no slot is freed `2 ^ 32` times, whatever handles it uses,
all handles given out differ. One whose object has not been freed gives the value last stored through
it, and can be stored through again; every access through one whose object has been freed reports that
the handle is stale, whatever is in its slot now. -/
theorem handles_never_alias (limits : HeapLimits) (actions : List (Action α))
    (hfreed : ∀ i, ((Session.start limits).run actions).freed i < 2 ^ 32) :
    let s := (Session.start limits).run actions
    let lives := (Session.start limits).chronicle [] actions
    lives.map Life.ref = s.issued ∧ s.issued.Nodup ∧
      ∀ o ∈ lives,
        (s.heap.contains o.ref = true ↔ o.freed = false) ∧
        (o.freed = false →
          s.heap.get o.ref = .ok o.value ∧ (∃ g, s.heap.generation o.ref = .ok g) ∧
            ∀ w, ∃ h', s.heap.set o.ref w = .ok h' ∧ h'.get o.ref = .ok w) ∧
        (o.freed = true →
          s.heap.get o.ref = .error (.stale o.ref) ∧
            s.heap.generation o.ref = .error (.stale o.ref) ∧
            s.heap.tenure o.ref = .error (.stale o.ref) ∧
            ∀ w, s.heap.set o.ref w = .error (.stale o.ref)) := by
  intro s lives
  have ht : s.Told lives := told_run (told_start limits) hfreed
  refine ⟨ht.refs, ht.nodup, fun o ho => ⟨⟨fun hc => ?_, fun hk => ?_⟩, fun hk => ?_, fun hg => ?_⟩⟩
  · rw [← Bool.not_eq_true]
    intro hg
    rw [ht.gone o ho hg] at hc
    cases hc
  · exact (Heap.access_of_get? (ht.kept o ho hk)).1
  · exact (Heap.access_of_get? (ht.kept o ho hk)).2
  · exact Heap.stale_of_not_contains (ht.gone o ho hg)

/-- A slot is used again after a collection; a store through the handle of its first object is
refused, and one through the handle of the second is not. -/
theorem handles_never_alias_reused_slot :
    let a : Ref := ⟨0, 0⟩
    let b : Ref := ⟨0, 1⟩
    let actions : List (Action Supplier) :=
      [.alloc {}, .collect .minor, .alloc {}, .store b ⟨[b], [b], 0⟩ [b], .store a ⟨[a], [b], 0⟩ [a, b]]
    let s := (Session.start {}).run actions
    (∀ i, s.freed i < 2 ^ 32) ∧ s.issued = [a, b] ∧ s.heap.get a = .error (.stale a) ∧
      s.heap.get b = .ok ⟨[b], [b], 0⟩ := by
  intro a b actions s
  have hfreed : ∀ i, s.freed i < 2 ^ 32 := by
    intro i
    have hle : s.freed i ≤ 0 + 5 := freed_run_le _ actions i
    omega
  have hlives : (Session.start {}).chronicle [] actions =
      [⟨a, {}, true⟩, ⟨b, ⟨[b], [b], 0⟩, false⟩] := by decide +kernel
  obtain ⟨hrefs, _, hall⟩ := handles_never_alias {} actions hfreed
  rw [hlives] at hrefs hall
  have hstale := (hall ⟨a, {}, true⟩ List.mem_cons_self).2.2 rfl
  have hlive := (hall ⟨b, ⟨[b], [b], 0⟩, false⟩ (List.mem_cons_of_mem _ List.mem_cons_self)).2.1 rfl
  exact ⟨hfreed, hrefs.symm, hstale.1, hlive.1⟩

end Session

end Managed
