import Managed.Proofs.Heap.Collecting

/-!
# Runs of a heap

A session is a heap with its roots, together with a record of the handles it has given out and of how
often the object of each slot has been freed. An action is one thing a mutator can do: allocate, store
a new value and call the barrier for what it stored, call the barrier without need, tenure, change the
roots or collect.

A lawful run uses no handles but those given out before, and a store calls the barrier for every
handle that the object did not hold already. Whether lawful or not, an action leaves a tidy heap tidy
(`tidy_onHeap`), and only allocations and collections change which handles resolve
(`samePlaces_onHeap`).
-/

namespace Managed

/-- One thing that can be done to a heap and its roots. -/
inductive Action (α : Type) where
  | alloc (value : α)
  /-- Replaces the value of `owner`, then calls the barrier for each handle in `stored`. -/
  | store (owner : Ref) (value : α) (stored : List Ref)
  | barrier (owner value : Ref)
  | tenure (r : Ref)
  | pushStack (r : Ref)
  | clearStack
  | addGlobal (r : Ref)
  | removeGlobal (r : Ref)
  | collect (kind : CollectionKind)

structure Session (α : Type) where
  heap : Heap α := {}
  roots : RootSet := {}
  /-- The handles given out so far. -/
  issued : List Ref := []
  /-- How often the object of each slot has been freed. -/
  freed : Nat → Nat := fun _ => 0

namespace Heap

variable {α : Type}

/-- Whether the object in slot `i` of `h` is gone in `h'`. -/
def frees (h h' : Heap α) (i : Nat) : Bool :=
  (h.serial? i).any fun u => h.contains ⟨i, u⟩ && !h'.contains ⟨i, u⟩

/-- Two heaps whose slots are occupied alike. -/
structure SamePlaces (h h' : Heap α) : Prop where
  free : h'.free = h.free
  serial : ∀ i, h'.serial? i = h.serial? i
  contains : ∀ x, h'.contains x = h.contains x

theorem SameObjects.samePlaces {h h' : Heap α} (hs : SameObjects h h') : SamePlaces h h' :=
  ⟨hs.free, hs.serial, hs.contains⟩

theorem SamePlaces.trans {h₁ h₂ h₃ : Heap α} (h : SamePlaces h₁ h₂) (h' : SamePlaces h₂ h₃) :
    SamePlaces h₁ h₃ :=
  ⟨h'.free.trans h.free, fun i => (h'.serial i).trans (h.serial i),
    fun x => (h'.contains x).trans (h.contains x)⟩

theorem samePlaces_modifyEntry (h : Heap α) (r : Ref) (f : Entry α → Entry α) :
    SamePlaces h (h.modifyEntry r f) :=
  ⟨rfl, serial?_modifyEntry h r f, contains_modifyEntry h r f⟩

theorem vacant_iff {h : Heap α} {i : Nat} :
    h.Vacant i ↔ ∃ u, h.serial? i = some u ∧ h.contains ⟨i, u⟩ = false := by
  simp [Vacant, contains]

theorem SamePlaces.vacant {h h' : Heap α} (hs : SamePlaces h h') {i : Nat} (hv : h.Vacant i) :
    h'.Vacant i := by
  obtain ⟨u, hu, hnone⟩ := vacant_iff.mp hv
  exact vacant_iff.mpr ⟨u, (hs.serial i).trans hu, (hs.contains _).trans hnone⟩

/-- Nothing is freed where everything that was there stays. -/
theorem frees_eq_false {h h' : Heap α} (hk : ∀ x, h.contains x = true → h'.contains x = true)
    (i : Nat) : h.frees h' i = false := by
  unfold frees
  cases h.serial? i with
  | none => rfl
  | some u =>
    rw [Option.any_some, Bool.and_eq_false_iff, Bool.not_eq_false']
    cases hc : h.contains ⟨i, u⟩ with
    | false => exact Or.inl rfl
    | true => exact Or.inr (hk _ hc)

theorem Allocated.contains {h h' : Heap α} {v : α} {r : Ref} (ha : Allocated h v r h') (x : Ref) :
    h'.contains x = (x == r || h.contains x) := by
  rw [Heap.contains, ha.resolve]
  by_cases hx : x = r
  · simp [hx]
  · simp [hx, Heap.contains]

theorem Allocated.contains_of_contains {h h' : Heap α} {v : α} {r : Ref} (ha : Allocated h v r h')
    {x : Ref} (hx : h.contains x = true) : h'.contains x = true := by
  simp [ha.contains, hx]

theorem Allocated.tidy {h h' : Heap α} {v : α} {r : Ref} (ha : Allocated h v r h') (ht : h.Tidy) :
    h'.Tidy := by
  have hmark : ∀ x, h'.hasMark x = h.hasMark x := by
    intro x
    rw [hasMark, ha.resolve]
    split
    · next hx => rw [hasMark, hx, ha.stale]; rfl
    · rfl
  have hbit : ∀ x, h'.remembers x = h.remembers x := by
    intro x
    rw [remembers, ha.resolve]
    split
    · next hx => rw [remembers, hx, ha.stale]; rfl
    · rfl
  have hrec : h'.Recorded := by
    intro x
    rw [hbit, ha.remembered]
    exact ht.recorded x
  have hvac : ∀ i, i ≠ r.index → h.Vacant i → h'.Vacant i := by
    intro i hi hv
    obtain ⟨u, hu, hnone⟩ := hv
    have hne : (⟨i, u⟩ : Ref) ≠ r := fun h' => hi (congrArg Ref.index h')
    refine ⟨u, ?_, by rw [ha.resolve, if_neg hne, hnone]⟩
    rcases ha.slot with ⟨_, _, hser⟩ | ⟨_, _, _, _, hser⟩
    · rw [hser, hu]
    · rw [hser, if_neg hi, hu]
  rcases ha.slot with ⟨hfree, _⟩ | ⟨_, hfree', _⟩
  · have hnodup := ht.free_nodup
    rw [hfree, List.nodup_cons] at hnodup
    refine ⟨hnodup.2, fun i hi => ?_, fun x => (hmark x).trans (ht.unmarked x), hrec⟩
    refine hvac i ?_ (ht.free_vacant i (by rw [hfree]; exact List.mem_cons_of_mem _ hi))
    rintro rfl
    exact hnodup.1 hi
  · refine ⟨?_, fun i hi => ?_, fun x => (hmark x).trans (ht.unmarked x), hrec⟩
    · rw [hfree']
      exact List.nodup_nil
    · rw [hfree'] at hi
      cases hi

/-- A change of one entry that keeps the mark and the remembered bit. -/
theorem tidy_modifyEntry {h : Heap α} (ht : h.Tidy) (r : Ref) {f : Entry α → Entry α}
    (hm : ∀ e, (f e).header.marked = e.header.marked)
    (hb : ∀ e, (f e).header.remembered = e.header.remembered) : (h.modifyEntry r f).Tidy := by
  have hs := samePlaces_modifyEntry h r f
  refine ⟨ht.free_nodup, fun i hi => hs.vacant (ht.free_vacant i hi), fun x => ?_, fun x => ?_⟩
  · have hx := ht.unmarked x
    unfold hasMark at hx ⊢
    rw [resolve?_modifyEntry]
    split
    · next h' =>
      subst h'
      cases he : h.resolve? x with
      | none => rfl
      | some e => simpa [he, hm] using hx
    · exact hx
  · have hx := ht.recorded x
    unfold remembers at hx ⊢
    rw [resolve?_modifyEntry]
    split
    · next h' =>
      subst h'
      cases he : h.resolve? x with
      | none => simpa [he] using hx
      | some e => simpa [he, hb] using hx
    · exact hx

end Heap

/-! ## Actions -/

namespace Action

variable {α : Type} [Traced α]

/-- The heap after an action. An action that fails leaves it as it is. -/
def onHeap (h : Heap α) (roots : RootSet) : Action α → Heap α
  | alloc value =>
    match h.alloc value with
    | .ok (_, h') => h'
    | .error _ => h
  | store owner value stored =>
    match h.set owner value with
    | .ok h' => stored.foldl (fun h x => h.writeBarrier owner x) h'
    | .error _ => h
  | barrier owner value => h.writeBarrier owner value
  | tenure r =>
    match h.tenure r with
    | .ok h' => h'
    | .error _ => h
  | collect kind => h.collect kind roots
  | pushStack _ | clearStack | addGlobal _ | removeGlobal _ => h

def onRoots (roots : RootSet) : Action α → RootSet
  | pushStack r => roots.pushStack r
  | clearStack => roots.clearStack
  | addGlobal r => roots.addGlobal r
  | removeGlobal r => (roots.removeGlobal? r).getD roots
  | alloc _ | store _ _ _ | barrier _ _ | tenure _ | collect _ => roots

/-- The handles that an action gives out. -/
def gives (h : Heap α) : Action α → List Ref
  | alloc value =>
    match h.alloc value with
    | .ok (r, _) => [r]
    | .error _ => []
  | _ => []

/-- The handles that an action uses. What a stored value holds is told by `Disciplined`. -/
def refs : Action α → List Ref
  | alloc value => Traced.refs value
  | store owner _ stored => owner :: stored
  | barrier owner value => [owner, value]
  | tenure r | pushStack r | addGlobal r | removeGlobal r => [r]
  | clearStack | collect _ => []

/-- The value that an action puts in the heap. -/
def value? : Action α → Option α
  | alloc v | store _ v _ => some v
  | _ => none

/-- Whether a store calls the barrier for every handle that is new in the object. -/
def Disciplined (h : Heap α) : Action α → Prop
  | store owner value stored => ∀ x ∈ Traced.refs value, x ∈ h.children owner ∨ x ∈ stored
  | _ => True

instance (h : Heap α) : (a : Action α) → Decidable (a.Disciplined h)
  | store _ _ _ => inferInstanceAs (Decidable (∀ x ∈ _, _ ∨ _))
  | alloc _ | barrier _ _ | tenure _ | pushStack _ | clearStack | addGlobal _ | removeGlobal _
  | collect _ => inferInstanceAs (Decidable True)

end Action

namespace Session

variable {α : Type}

/-- The session of a new heap. -/
def start (limits : HeapLimits) : Session α :=
  { heap := { limits } }

variable [Traced α]

def act (s : Session α) (a : Action α) : Session α :=
  let heap := a.onHeap s.heap s.roots
  { heap
    roots := a.onRoots s.roots
    issued := s.issued ++ a.gives s.heap
    freed := fun i => s.freed i + (s.heap.frees heap i).toNat }

def run (s : Session α) (actions : List (Action α)) : Session α :=
  actions.foldl act s

/-- Whether a run uses only handles given out before and calls the barrier where it has to. -/
def Lawful (s : Session α) : List (Action α) → Prop
  | [] => True
  | a :: rest => (∀ x ∈ a.refs, x ∈ s.issued) ∧ a.Disciplined s.heap ∧ (s.act a).Lawful rest

instance decidableLawful (s : Session α) : ∀ actions, Decidable (s.Lawful actions)
  | [] => inferInstanceAs (Decidable True)
  | a :: rest =>
    have := decidableLawful (s.act a) rest
    inferInstanceAs (Decidable (_ ∧ _ ∧ _))

end Session

/-! ## What an action does -/

namespace Heap

variable {α : Type}

/-- The heap in which `r` has just become old. -/
def tenured (h : Heap α) (r : Ref) : Heap α :=
  { h.modifyHeader r (·.enter .old) with
    tally := { h.tally with promoted := h.tally.promoted + 1 } }

theorem resolve?_tenured (h : Heap α) (r x : Ref) :
    (h.tenured r).resolve? x =
      if x = r then (h.resolve? r).map (fun e => { e with header := e.header.enter .old })
      else h.resolve? x :=
  resolve?_modifyHeader h r (·.enter .old) x

theorem get?_tenured (h : Heap α) (r x : Ref) : (h.tenured r).get? x = h.get? x := by
  rw [get?, get?, resolve?_tenured]
  split
  · next hx =>
    subst hx
    cases h.resolve? x <;> rfl
  · rfl

theorem samePlaces_tenured (h : Heap α) (r : Ref) : SamePlaces h (h.tenured r) :=
  ⟨rfl, serial?_modifyEntry h r _, contains_modifyEntry h r _⟩

theorem tidy_tenured {h : Heap α} (ht : h.Tidy) (r : Ref) : (h.tenured r).Tidy := by
  have ht₁ : (h.modifyHeader r (·.enter .old)).Tidy :=
    tidy_modifyEntry ht r (fun _ => rfl) fun _ => rfl
  exact ⟨ht₁.free_nodup, ht₁.free_vacant, ht₁.unmarked, ht₁.recorded⟩

variable [Traced α]

theorem tenure_cases {h h' : Heap α} {r : Ref} (ht : h.tenure r = .ok h') :
    h' = h ∨ h' = (h.tenured r).rememberHolder r := by
  unfold tenure at ht
  split at ht
  · cases ht
  · split at ht
    · exact Or.inl (Except.ok.inj ht).symm
    · exact Or.inr (Except.ok.inj ht).symm

theorem tidy_rememberHolder {h : Heap α} (ht : h.Tidy) (owner : Ref) :
    (h.rememberHolder owner).Tidy := by
  obtain ⟨hs, hr, hm, _⟩ := rememberHolders_spec ht.recorded [owner]
  exact ht.of_sameObjects hs hm hr

/-- An action other than an allocation or a collection leaves all objects in place. -/
theorem samePlaces_onHeap (h : Heap α) (roots : RootSet) {a : Action α} (ht : h.Tidy)
    (halloc : ∀ v, a ≠ .alloc v) (hcollect : ∀ kind, a ≠ .collect kind) :
    SamePlaces h (a.onHeap h roots) := by
  have hrefl : SamePlaces h h := (SameObjects.refl h).samePlaces
  cases a with
  | alloc v => exact absurd rfl (halloc v)
  | collect kind => exact absurd rfl (hcollect kind)
  | store owner value stored =>
    simp only [Action.onHeap]
    split
    · next h₁ hset =>
      obtain ⟨_, rfl⟩ := set_eq_ok hset
      have ht₁ : (h.modifyEntry owner fun e => { e with value }).Tidy :=
        tidy_modifyEntry ht owner (fun _ => rfl) fun _ => rfl
      exact (samePlaces_modifyEntry h owner _).trans
        (foldl_writeBarrier ht₁.recorded owner stored).1.samePlaces
    · exact hrefl
  | barrier owner value => exact (sameObjects_writeBarrier h owner value).samePlaces
  | tenure r =>
    simp only [Action.onHeap]
    split
    · next h' hten =>
      rcases tenure_cases hten with rfl | rfl
      · exact hrefl
      · exact (samePlaces_tenured h r).trans (sameObjects_rememberHolder _ r).samePlaces
    · exact hrefl
  | pushStack _ => exact hrefl
  | clearStack => exact hrefl
  | addGlobal _ => exact hrefl
  | removeGlobal _ => exact hrefl

theorem tidy_onHeap {h : Heap α} (ht : h.Tidy) (roots : RootSet) (a : Action α) :
    (a.onHeap h roots).Tidy := by
  cases a with
  | alloc v =>
    simp only [Action.onHeap]
    split
    · next r h' ha => exact (alloc_cases ha ht.free_vacant).tidy ht
    · exact ht
  | collect kind => exact tidy_collect ht kind roots
  | store owner value stored =>
    simp only [Action.onHeap]
    split
    · next h₁ hset =>
      obtain ⟨_, rfl⟩ := set_eq_ok hset
      have ht₁ : (h.modifyEntry owner fun e => { e with value }).Tidy :=
        tidy_modifyEntry ht owner (fun _ => rfl) fun _ => rfl
      obtain ⟨hs, hr, hm, _⟩ := foldl_writeBarrier ht₁.recorded owner stored
      exact ht₁.of_sameObjects hs hm hr
    · exact ht
  | barrier owner value =>
    exact ht.of_sameObjects (sameObjects_writeBarrier h owner value)
      (hasMark_writeBarrier h owner value) (recorded_writeBarrier ht.recorded owner value)
  | tenure r =>
    simp only [Action.onHeap]
    split
    · next h' hten =>
      rcases tenure_cases hten with rfl | rfl
      · exact ht
      · exact tidy_rememberHolder (tidy_tenured ht r) r
    · exact ht
  | pushStack _ => exact ht
  | clearStack => exact ht
  | addGlobal _ => exact ht
  | removeGlobal _ => exact ht

end Heap

end Managed
