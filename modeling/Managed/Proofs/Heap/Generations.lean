import Managed.Proofs.Heap.Numbering
import Managed.Supplier

/-!
# Generational safety

A stale handle stays stale, so an old object that holds one does not come to hold a young object by
chance. With that, lawful actions keep every old object that holds a young one in the remembered set
(`barriered_act`), and no collection of a lawful run loses anything that can still be used
(`generational_safety`).
-/

namespace Managed

/-! ## Sound sessions -/

namespace Session

variable {α : Type} [Traced α]

/-- Every handle held by an object has been given out. -/
def Closed (s : Session α) : Prop :=
  ∀ r, ∀ x ∈ s.heap.children r, x ∈ s.issued

/-- What actions keep that use only handles given out, with or without barriers. -/
structure Consistent (s : Session α) : Prop where
  tidy : s.heap.Tidy
  numbered : s.heap.Numbered s.issued s.freed
  closed : s.Closed

/-- What lawful actions keep. -/
structure Sound (s : Session α) : Prop extends Consistent s where
  barriered : s.heap.Barriered

theorem sound_start (limits : HeapLimits) : (start limits : Session α).Sound := by
  have hres : ∀ r, (start limits : Session α).heap.resolve? r = none := fun _ => rfl
  refine ⟨⟨⟨List.nodup_nil, by simp [start], fun x => ?_, fun x => ?_⟩, Heap.numbered_empty limits,
    fun r x hx => ?_⟩, fun owner hy => ?_⟩
  · rw [Heap.hasMark, hres]
    rfl
  · rw [Heap.remembers, hres]
    simp [start]
  · rw [Heap.children, Heap.get?, hres] at hx
    cases hx
  · have hc := Heap.contains_of_holdsYoung hy
    rw [Heap.contains, hres] at hc
    cases hc

theorem freed_of_kept (s : Session α) {a : Action α}
    (hk : ∀ x, s.heap.contains x = true → (a.onHeap s.heap s.roots).contains x = true) :
    (s.act a).freed = s.freed := by
  funext i
  simp [act, Heap.frees_eq_false hk i]

theorem issued_of_not_alloc (s : Session α) {a : Action α} (halloc : ∀ v, a ≠ .alloc v) :
    (s.act a).issued = s.issued := by
  cases a with
  | alloc v => exact absurd rfl (halloc v)
  | _ => exact List.append_nil _

/-- The two outcomes of an allocation. -/
theorem act_alloc_cases {s : Session α} (ht : s.heap.Tidy) (v : α) :
    s.act (.alloc v) = s ∨
      ∃ r h', Heap.Allocated s.heap v r h' ∧
        s.act (.alloc v) = { s with heap := h', issued := s.issued ++ [r] } := by
  cases ha : s.heap.alloc v with
  | error e =>
    left
    have hheap : Action.onHeap s.heap s.roots (.alloc v) = s.heap := by rw [Action.onHeap, ha]
    have hfreed := freed_of_kept s (a := .alloc v) fun x hx => by rwa [hheap]
    have hgives : Action.gives s.heap (.alloc v) = [] := by rw [Action.gives, ha]
    cases s
    simp_all [act, Action.onRoots]
  | ok p =>
    obtain ⟨r, h'⟩ := p
    have hal := Heap.alloc_cases ha ht.free_vacant
    have hheap : Action.onHeap s.heap s.roots (.alloc v) = h' := by rw [Action.onHeap, ha]
    have hfreed := freed_of_kept s (a := .alloc v) fun x hx => by
      rw [hheap]
      exact hal.contains_of_contains hx
    have hgives : Action.gives s.heap (.alloc v) = [r] := by rw [Action.gives, ha]
    refine Or.inr ⟨r, h', hal, ?_⟩
    cases s
    simp_all [act, Action.onRoots]

theorem numbered_act {s : Session α} (ht : s.heap.Tidy)
    (hn : s.heap.Numbered s.issued s.freed) (hf : ∀ i, s.freed i < 2 ^ 32) (a : Action α) :
    (s.act a).heap.Numbered (s.act a).issued (s.act a).freed := by
  by_cases halloc : ∃ v, a = .alloc v
  · obtain ⟨v, rfl⟩ := halloc
    rcases act_alloc_cases ht v with heq | ⟨r, h', hal, heq⟩
    · rwa [heq]
    · rw [heq]
      exact hal.numbered hn (hf r.index)
  have hissued := issued_of_not_alloc s fun v h => halloc ⟨v, h⟩
  rw [hissued]
  by_cases hcollect : ∃ kind, a = .collect kind
  · obtain ⟨kind, rfl⟩ := hcollect
    exact Heap.numbered_collect ht hn kind s.roots
  · have hs := Heap.samePlaces_onHeap s.heap s.roots ht (fun v h => halloc ⟨v, h⟩)
      fun kind h => hcollect ⟨kind, h⟩
    rw [freed_of_kept s fun x hx => by rwa [hs.contains]]
    exact hs.numbered hn

end Session

/-! ## What objects hold -/

namespace Heap

variable {α : Type} {h h' : Heap α}

theorem Allocated.needsBarrier {v : α} {r : Ref} (ha : Allocated h v r h') {x : Ref}
    (hx : h'.needsBarrier x = true) : x ≠ r ∧ h.needsBarrier x = true := by
  rw [Heap.needsBarrier, ha.resolve] at hx
  split at hx
  · cases hx
  · next hne => exact ⟨hne, hx⟩

theorem Allocated.isYoung {v : α} {r : Ref} (ha : Allocated h v r h') {x : Ref} (hne : x ≠ r) :
    h'.isYoung x = h.isYoung x := by
  rw [Heap.isYoung, ha.resolve, if_neg hne]
  rfl

theorem isYoung_setValue (r : Ref) (v : α) (x : Ref) :
    (h.modifyEntry r fun e => { e with value := v }).isYoung x = h.isYoung x := by
  rw [isYoung, resolve?_modifyEntry]
  split
  · next hx =>
    subst hx
    cases he : h.resolve? x <;> simp [isYoung, he]
  · rfl

theorem needsBarrier_setValue (r : Ref) (v : α) (x : Ref) :
    (h.modifyEntry r fun e => { e with value := v }).needsBarrier x = h.needsBarrier x := by
  rw [needsBarrier, resolve?_modifyEntry]
  split
  · next hx =>
    subst hx
    cases he : h.resolve? x <;> simp [needsBarrier, he]
  · rfl

theorem isYoung_of_tenured {r x : Ref} (hx : (h.tenured r).isYoung x = true) :
    h.isYoung x = true := by
  rw [isYoung, resolve?_tenured] at hx
  split at hx
  · cases he : h.resolve? r <;> simp [he, Header.enter, Generation.isYoung, Generation.next?] at hx
  · exact hx

theorem needsBarrier_tenured {r x : Ref} (hne : x ≠ r) :
    (h.tenured r).needsBarrier x = h.needsBarrier x := by
  rw [needsBarrier, resolve?_tenured, if_neg hne]
  rfl

theorem generation_eq_old {r : Ref} : h.generation r = .ok .old ↔ h.needsBarrier r = true := by
  unfold generation
  split
  · next e he => simp [needsBarrier, he]
  · next he => simp [needsBarrier, he]

theorem Allocated.watched {v : α} {r : Ref} (ha : Allocated h v r h') {owner x : Ref}
    (hw : h.Watched owner x) (hne : x ≠ r) : h'.Watched owner x := by
  intro hold hyoung
  rw [ha.isYoung hne] at hyoung
  rw [ha.remembered]
  exact hw (ha.needsBarrier hold).2 hyoung

/-- A store changes no generation, and barriers only add to the remembered set. -/
theorem watched_store (ht : h.Tidy) {o x : Ref} (hw : h.Watched o x) (owner : Ref) (v : α)
    (stored : List Ref) : (stored.foldl (fun h x => h.writeBarrier owner x)
      (h.modifyEntry owner fun e => { e with value := v })).Watched o x := by
  have ht₁ : (h.modifyEntry owner fun e => { e with value := v }).Tidy :=
    tidy_modifyEntry ht owner (fun _ => rfl) fun _ => rfl
  obtain ⟨hs, _, _, hsub, _⟩ := foldl_writeBarrier ht₁.recorded owner stored
  intro hold hyoung
  rw [hs.needsBarrier, needsBarrier_setValue] at hold
  rw [hs.isYoung, isYoung_setValue] at hyoung
  exact hsub o (hw hold hyoung)

variable [Traced α]

theorem children_of_not_contains {r : Ref} (hr : h.contains r = false) : h.children r = [] := by
  cases he : h.resolve? r with
  | none => simp [children, Heap.get?, he]
  | some e => simp [contains, he] at hr

theorem Allocated.children {v : α} {r : Ref} (ha : Allocated h v r h') (x : Ref) :
    h'.children x = if x = r then Traced.refs v else h.children x := by
  rw [Heap.children, ha.get?]
  split
  · rfl
  · rfl

/-- A store seen through the other handles. -/
theorem children_setValue (r : Ref) (v : α) (x : Ref) :
    (h.modifyEntry r fun e => { e with value := v }).children x =
      if x = r ∧ h.contains r = true then Traced.refs v else h.children x := by
  rw [children, Heap.get?, resolve?_modifyEntry]
  by_cases hx : x = r
  · subst hx
    cases he : h.resolve? x <;> simp [contains, he, children, Heap.get?]
  · rw [if_neg hx, if_neg fun hx' => hx hx'.1]
    rfl

theorem children_tenured (r x : Ref) : (h.tenured r).children x = h.children x := by
  rw [children, children, get?_tenured]

/-! ## Old objects that hold young ones -/

theorem Guarded.of_sameObjects {owner : Ref} (hb : h.Guarded owner) (hs : SameObjects h h')
    (hsub : ∀ x ∈ h.remembered.refs, x ∈ h'.remembered.refs) : h'.Guarded owner := by
  intro hy
  rw [hs.holdsYoung] at hy
  exact hsub owner (hb hy)

/-- A new object is young, and what is new is held by no object yet. -/
theorem Allocated.guarded {v : α} {r : Ref} (ha : Allocated h v r h') {owner : Ref}
    (hb : h.Guarded owner) (hfresh : r ∉ h.children owner) : h'.Guarded owner := by
  intro hy
  obtain ⟨hold, x, hx, hyoung⟩ := holdsYoung_iff.mp hy
  rw [ha.children, if_neg (ha.needsBarrier hold).1] at hx
  have hxr : x ≠ r := by
    rintro rfl
    exact hfresh hx
  exact ha.watched (hb.watched hx) hxr hold hyoung

/-- A store followed by the barrier for everything that is new in the object. -/
theorem guarded_store (ht : h.Tidy) {o owner : Ref} (hb : h.Guarded o) {v : α} {stored : List Ref}
    (hstored : o = owner → ∀ x ∈ Traced.refs v, x ∈ h.children owner ∨ x ∈ stored) :
    (stored.foldl (fun h x => h.writeBarrier owner x)
      (h.modifyEntry owner fun e => { e with value := v })).Guarded o := by
  have ht₁ : (h.modifyEntry owner fun e => { e with value := v }).Tidy :=
    tidy_modifyEntry ht owner (fun _ => rfl) fun _ => rfl
  obtain ⟨hs, _, _, _, hown⟩ := foldl_writeBarrier ht₁.recorded owner stored
  intro hy
  obtain ⟨hold, x, hx, hyoung⟩ := holdsYoung_iff.mp hy
  rw [hs.children, children_setValue] at hx
  split at hx
  · next ho =>
    obtain ⟨rfl, _⟩ := ho
    -- a young handle in the new value was there before, or the barrier was called for it
    rcases hstored rfl x hx with hx | hx
    · exact watched_store ht (hb.watched hx) o v stored hold hyoung
    · rw [hs.needsBarrier] at hold
      rw [hs.isYoung] at hyoung
      exact hown hold ⟨x, hx, hyoung⟩
  · exact watched_store ht (hb.watched hx) owner v stored hold hyoung

/-- Tenuring an object looks at what it holds. -/
theorem watched_tenured (ht : h.Tidy) {owner x : Ref} (hw : h.Watched owner x)
    (hx : x ∈ h.children owner) (r : Ref) : ((h.tenured r).rememberHolder r).Watched owner x := by
  obtain ⟨hs, _, _, hmem⟩ := rememberHolders_spec (tidy_tenured ht r).recorded [r]
  intro hold hyoung
  rw [show (h.tenured r).rememberHolder r = (h.tenured r).rememberHolders [r] from rfl] at hold hyoung ⊢
  rw [hs.needsBarrier] at hold
  rw [hs.isYoung] at hyoung
  rw [hmem]
  by_cases ho : owner = r
  · rw [← children_tenured r] at hx
    exact Or.inr ⟨by simp [ho], holdsYoung_iff.mpr ⟨hold, x, hx, hyoung⟩⟩
  · rw [needsBarrier_tenured ho] at hold
    exact Or.inl (hw hold (isYoung_of_tenured hyoung))

theorem guarded_tenured (ht : h.Tidy) {owner : Ref} (hb : h.Guarded owner) (r : Ref) :
    ((h.tenured r).rememberHolder r).Guarded owner := by
  intro hy
  obtain ⟨hold, x, hx, hyoung⟩ := holdsYoung_iff.mp hy
  rw [(sameObjects_rememberHolder _ _).children, children_tenured] at hx
  exact watched_tenured ht (hb.watched hx) hx r hold hyoung

end Heap

/-! ## Lawful actions -/

namespace Session

variable {α : Type} [Traced α] {s : Session α}

/-- What a store puts in an object was there or comes with a barrier, so it has been given out. -/
theorem issued_of_disciplined (hclosed : s.Closed) {a : Action α} (hrefs : ∀ x ∈ a.refs, x ∈ s.issued)
    (hd : a.Disciplined s.heap) : ∀ v, a.value? = some v → ∀ x ∈ Traced.refs v, x ∈ s.issued := by
  intro v hv x hx
  cases a with
  | alloc w =>
    cases hv
    exact hrefs x hx
  | store owner w stored =>
    cases hv
    rcases hd x hx with hx | hx
    · exact hclosed owner x hx
    · exact hrefs x (List.mem_cons_of_mem _ hx)
  | _ => cases hv

theorem closed_act (ht : s.heap.Tidy) (hclosed : s.Closed) {a : Action α}
    (hissued : ∀ v, a.value? = some v → ∀ x ∈ Traced.refs v, x ∈ s.issued) : (s.act a).Closed := by
  have hold : ∀ x ∈ s.issued, x ∈ (s.act a).issued := fun x hx => List.mem_append_left _ hx
  intro r x hx
  cases a with
  | alloc v =>
    rcases act_alloc_cases ht v with heq | ⟨new, h', hal, heq⟩
    · rw [heq] at hx ⊢
      exact hclosed r x hx
    · rw [heq] at hx ⊢
      simp only [hal.children] at hx
      split at hx
      · exact List.mem_append_left _ (hissued v rfl x hx)
      · exact List.mem_append_left _ (hclosed r x hx)
  | store owner v stored =>
    apply hold
    simp only [act, Action.onHeap] at hx
    split at hx
    · next h₁ hset =>
      obtain ⟨_, rfl⟩ := Heap.set_eq_ok hset
      have ht₁ : (s.heap.modifyEntry owner fun e => { e with value := v }).Tidy :=
        Heap.tidy_modifyEntry ht owner (fun _ => rfl) fun _ => rfl
      rw [(Heap.foldl_writeBarrier ht₁.recorded owner stored).1.children,
        Heap.children_setValue] at hx
      split at hx
      · exact hissued v rfl x hx
      · exact hclosed r x hx
    · exact hclosed r x hx
  | barrier owner v =>
    rw [show (s.act (.barrier owner v)).heap = s.heap.writeBarrier owner v from rfl,
      (Heap.sameObjects_writeBarrier s.heap owner v).children] at hx
    exact hold x (hclosed r x hx)
  | tenure t =>
    apply hold
    simp only [act, Action.onHeap] at hx
    split at hx
    · next h' hten =>
      rcases Heap.tenure_cases hten with rfl | rfl
      · exact hclosed r x hx
      · rw [(Heap.sameObjects_rememberHolder _ t).children, Heap.children_tenured] at hx
        exact hclosed r x hx
    · exact hclosed r x hx
  | collect kind =>
    rw [show (s.act (.collect kind)).heap = s.heap.collect kind s.roots from rfl] at hx
    by_cases hc : (s.heap.collect kind s.roots).contains r = true
    · rw [Heap.children_collect ht kind s.roots hc] at hx
      exact hold x (hclosed r x hx)
    · rw [Heap.children_of_not_contains (by simpa using hc)] at hx
      cases hx
  | pushStack _ => exact hold x (hclosed r x hx)
  | clearStack => exact hold x (hclosed r x hx)
  | addGlobal _ => exact hold x (hclosed r x hx)
  | removeGlobal _ => exact hold x (hclosed r x hx)

theorem barriered_act (hs : s.Sound) (hf : ∀ i, s.freed i < 2 ^ 32) {a : Action α}
    (hd : a.Disciplined s.heap) : (s.act a).heap.Barriered := by
  cases a with
  | alloc v =>
    rcases act_alloc_cases hs.tidy v with heq | ⟨new, h', hal, heq⟩
    · rw [heq]
      exact hs.barriered
    · rw [heq]
      have hfresh := hal.fresh hs.numbered (hf new.index)
      exact fun o => hal.guarded (hs.barriered o) fun ho => hfresh (hs.closed o new ho)
  | store owner v stored =>
    simp only [act, Action.onHeap]
    split
    · next h₁ hset =>
      obtain ⟨_, rfl⟩ := Heap.set_eq_ok hset
      exact fun o => Heap.guarded_store hs.tidy (hs.barriered o) fun _ => hd
    · exact hs.barriered
  | barrier owner v =>
    exact fun o => Heap.Guarded.of_sameObjects (hs.barriered o)
      (Heap.sameObjects_writeBarrier s.heap owner v) fun x hx =>
        Heap.subset_writeBarrier_refs hs.tidy.recorded owner v hx
  | tenure r =>
    simp only [act, Action.onHeap]
    split
    · next h' hten =>
      rcases Heap.tenure_cases hten with rfl | rfl
      · exact hs.barriered
      · exact fun o => Heap.guarded_tenured hs.tidy (hs.barriered o) r
    · exact hs.barriered
  | collect kind => exact Heap.barriered_collect hs.tidy kind s.roots hs.barriered
  | pushStack _ => exact hs.barriered
  | clearStack => exact hs.barriered
  | addGlobal _ => exact hs.barriered
  | removeGlobal _ => exact hs.barriered

theorem consistent_act (hs : s.Consistent) (hf : ∀ i, s.freed i < 2 ^ 32) {a : Action α}
    (hissued : ∀ v, a.value? = some v → ∀ x ∈ Traced.refs v, x ∈ s.issued) : (s.act a).Consistent :=
  ⟨Heap.tidy_onHeap hs.tidy s.roots a, numbered_act hs.tidy hs.numbered hf a,
    closed_act hs.tidy hs.closed hissued⟩

theorem sound_act (hs : s.Sound) (hf : ∀ i, s.freed i < 2 ^ 32) {a : Action α}
    (hrefs : ∀ x ∈ a.refs, x ∈ s.issued) (hd : a.Disciplined s.heap) : (s.act a).Sound :=
  ⟨consistent_act hs.toConsistent hf (issued_of_disciplined hs.closed hrefs hd),
    barriered_act hs hf hd⟩

/-! ## Actions other than collections -/

theorem contains_act (ht : s.heap.Tidy) {a : Action α} (hq : ∀ kind, a ≠ .collect kind) {x : Ref}
    (hx : s.heap.contains x = true) : (s.act a).heap.contains x = true := by
  by_cases halloc : ∃ v, a = .alloc v
  · obtain ⟨v, rfl⟩ := halloc
    rcases act_alloc_cases ht v with heq | ⟨r, h', hal, heq⟩
    · rwa [heq]
    · rw [heq]
      exact hal.contains_of_contains hx
  · have hs := Heap.samePlaces_onHeap s.heap s.roots ht (fun v h => halloc ⟨v, h⟩) hq
    exact (hs.contains x).trans hx

/-- What is newly given out is live. -/
theorem mem_issued_act (ht : s.heap.Tidy) {a : Action α} {x : Ref} (hx : x ∈ (s.act a).issued) :
    x ∈ s.issued ∨ (s.act a).heap.contains x = true := by
  by_cases halloc : ∃ v, a = .alloc v
  · obtain ⟨v, rfl⟩ := halloc
    rcases act_alloc_cases ht v with heq | ⟨r, h', hal, heq⟩
    · rw [heq] at hx
      exact Or.inl hx
    · rw [heq] at hx ⊢
      rcases List.mem_append.mp hx with hx | hx
      · exact Or.inl hx
      · right
        simp [hal.contains, List.mem_singleton.mp hx]
  · rw [issued_of_not_alloc s fun v h => halloc ⟨v, h⟩] at hx
    exact Or.inl hx

theorem tidy_run (ht : s.heap.Tidy) (actions : List (Action α)) : (s.run actions).heap.Tidy := by
  induction actions generalizing s with
  | nil => exact ht
  | cons a rest ih => exact ih (Heap.tidy_onHeap ht s.roots a)

theorem closed_run (ht : s.heap.Tidy) (hclosed : s.Closed) {actions : List (Action α)}
    (hl : s.Lawful actions) : (s.run actions).Closed := by
  induction actions generalizing s with
  | nil => exact hclosed
  | cons a rest ih =>
    obtain ⟨hrefs, hd, hrest⟩ := hl
    exact ih (Heap.tidy_onHeap ht s.roots a)
      (closed_act ht hclosed (issued_of_disciplined hclosed hrefs hd)) hrest

theorem mem_issued_of_mem (s : Session α) (actions : List (Action α)) {x : Ref}
    (hx : x ∈ s.issued) : x ∈ (s.run actions).issued := by
  induction actions generalizing s with
  | nil => exact hx
  | cons a rest ih => exact ih (s.act a) (List.mem_append_left _ hx)

section

variable {actions : List (Action α)} (ht : s.heap.Tidy)
  (hq : ∀ a ∈ actions, ∀ kind, a ≠ .collect kind)
include ht hq

theorem contains_run {x : Ref} (hx : s.heap.contains x = true) :
    (s.run actions).heap.contains x = true := by
  induction actions generalizing s with
  | nil => exact hx
  | cons a rest ih =>
    refine ih (Heap.tidy_onHeap ht s.roots a) (fun b hb => hq b (List.mem_cons_of_mem _ hb)) ?_
    exact contains_act ht (hq a List.mem_cons_self) hx

theorem freed_run : (s.run actions).freed = s.freed := by
  induction actions generalizing s with
  | nil => rfl
  | cons a rest ih =>
    have ht' : (s.act a).heap.Tidy := Heap.tidy_onHeap ht s.roots a
    have hrest := ih ht' fun b hb => hq b (List.mem_cons_of_mem _ hb)
    exact hrest.trans (freed_of_kept s fun x hx => contains_act ht (hq a List.mem_cons_self) hx)

theorem mem_issued_run {x : Ref} (hx : x ∈ (s.run actions).issued) :
    x ∈ s.issued ∨ (s.run actions).heap.contains x = true := by
  induction actions generalizing s with
  | nil => exact Or.inl hx
  | cons a rest ih =>
    have ht' := Heap.tidy_onHeap ht s.roots a
    have hq' : ∀ b ∈ rest, ∀ kind, b ≠ .collect kind := fun b hb => hq b (List.mem_cons_of_mem _ hb)
    rcases ih ht' hq' hx with hx | hx
    · exact (mem_issued_act ht hx).imp_right fun hc => contains_run ht' hq' hc
    · exact Or.inr hx

end

/-! ## Lawful runs -/

theorem freed_le_act (s : Session α) (a : Action α) (i : Nat) : s.freed i ≤ (s.act a).freed i :=
  Nat.le_add_right _ _

theorem freed_le_run (s : Session α) (actions : List (Action α)) (i : Nat) :
    s.freed i ≤ (s.run actions).freed i := by
  induction actions generalizing s with
  | nil => exact Nat.le_refl _
  | cons a rest ih => exact Nat.le_trans (freed_le_act s a i) (ih (s.act a))

/-- A slot is freed at most once by each action. -/
theorem freed_run_le (s : Session α) (actions : List (Action α)) (i : Nat) :
    (s.run actions).freed i ≤ s.freed i + actions.length := by
  induction actions generalizing s with
  | nil => exact Nat.le_refl _
  | cons a rest ih =>
    have hle := ih (s.act a)
    have hone : (s.act a).freed i ≤ s.freed i + 1 := Nat.add_le_add_left (Bool.toNat_le _) _
    rw [List.length_cons]
    exact Nat.le_trans hle (by omega)

theorem run_append (s : Session α) (before after : List (Action α)) :
    s.run (before ++ after) = (s.run before).run after :=
  List.foldl_append

theorem lawful_append {before after : List (Action α)} :
    s.Lawful (before ++ after) ↔ s.Lawful before ∧ (s.run before).Lawful after := by
  induction before generalizing s with
  | nil => simp [Lawful, run]
  | cons a rest ih =>
    rw [List.cons_append, Lawful, Lawful, ih, and_assoc, and_assoc]
    rfl

theorem consistent_run (hs : s.Consistent) {actions : List (Action α)} (hl : s.Lawful actions)
    (hf : ∀ i, (s.run actions).freed i < 2 ^ 32) : (s.run actions).Consistent := by
  induction actions generalizing s with
  | nil => exact hs
  | cons a rest ih =>
    obtain ⟨hrefs, hd, hrest⟩ := hl
    have hnow : ∀ i, s.freed i < 2 ^ 32 := fun i =>
      Nat.lt_of_le_of_lt (freed_le_run s (a :: rest) i) (hf i)
    exact ih (consistent_act hs hnow (issued_of_disciplined hs.closed hrefs hd)) hrest hf

theorem sound_run (hs : s.Sound) {actions : List (Action α)} (hl : s.Lawful actions)
    (hf : ∀ i, (s.run actions).freed i < 2 ^ 32) : (s.run actions).Sound := by
  induction actions generalizing s with
  | nil => exact hs
  | cons a rest ih =>
    obtain ⟨hrefs, hd, hrest⟩ := hl
    have hnow : ∀ i, s.freed i < 2 ^ 32 := fun i =>
      Nat.lt_of_le_of_lt (freed_le_run s (a :: rest) i) (hf i)
    exact ih (sound_act hs hnow hrefs hd) hrest hf

/-- Nothing that can still be used is lost in a lawful run in which no slot is freed `2 ^ 32` times.
After every step the old objects that hold young ones are remembered, and a collection of either kind,
whatever its roots, keeps what can be reached from them and what any survivor holds, all with its
value. -/
theorem generational_safety (limits : HeapLimits) (actions : List (Action α))
    (hlaw : (Session.start limits).Lawful actions)
    (hfreed : ∀ i, ((Session.start limits).run actions).freed i < 2 ^ 32) (n : Nat) :
    let h := ((Session.start limits).run (actions.take n)).heap
    (∀ owner x, h.generation owner = .ok .old → x ∈ h.children owner → h.isYoung x = true →
      owner ∈ h.remembered.refs) ∧
    ∀ kind roots,
      (∀ x, h.Reaches roots.toList x →
        ∃ v, h.get? x = some v ∧ (h.collect kind roots).get? x = some v) ∧
      ∀ owner x v, (h.collect kind roots).contains owner = true →
        x ∈ (h.collect kind roots).children owner → h.get? x = some v →
        (h.collect kind roots).get? x = some v := by
  intro h
  have hsound : ((Session.start limits).run (actions.take n)).Sound := by
    rw [← List.take_append_drop n actions] at hlaw hfreed
    refine sound_run (sound_start limits) (lawful_append.mp hlaw).1 fun i => ?_
    rw [run_append] at hfreed
    exact Nat.lt_of_le_of_lt (freed_le_run _ _ i) (hfreed i)
  have ht : h.Tidy := hsound.tidy
  have hb : h.Barriered := hsound.barriered
  refine ⟨fun owner x hold hx hyoung => ?_, fun kind roots => ⟨fun x hx => ?_, ?_⟩⟩
  · exact hb owner (Heap.holdsYoung_iff.mpr ⟨Heap.generation_eq_old.mp hold, x, hx, hyoung⟩)
  · obtain ⟨v, hv⟩ := Heap.contains_iff_get?.mp (Heap.contains_of_reaches hx)
    refine ⟨v, hv, ?_⟩
    rw [Heap.get?_collect ht, Heap.spared_of_reaches ht kind roots hb hx, if_pos rfl, hv]
  · intro owner x v howner hx hv
    have hkids := Heap.children_collect ht kind roots howner
    rw [Heap.contains_collect ht, Bool.and_eq_true] at howner
    rw [hkids] at hx
    rw [Heap.get?_collect ht, Heap.spared_of_held ht kind roots hb howner.1 howner.2 hx,
      if_pos rfl, hv]

/-- An old supplier is given a young object and survives a minor collection with it. -/
theorem generational_safety_supplier :
    let a : Ref := ⟨0, 0⟩
    let b : Ref := ⟨1, 0⟩
    let actions : List (Action Supplier) :=
      [.alloc {}, .tenure a, .alloc {}, .store a ⟨[b], [a], 0⟩ [b, a], .pushStack a, .collect .minor]
    (Session.start {}).Lawful actions ∧
      (∀ i, ((Session.start {}).run actions).freed i < 2 ^ 32) ∧
      a ∈ ((Session.start {}).run (actions.take 5)).heap.remembered.refs ∧
      ∃ v, (((Session.start {}).run (actions.take 5)).heap.collect .minor ⟨#[a], #[]⟩).get? b =
        some v := by
  intro a b actions
  have hlaw : (Session.start {}).Lawful actions := by decide
  have hfreed : ∀ i, ((Session.start {}).run actions).freed i < 2 ^ 32 := by
    intro i
    have hle : ((Session.start {}).run actions).freed i ≤ 0 + 6 := freed_run_le _ actions i
    omega
  obtain ⟨hrem, hkeep⟩ := generational_safety {} actions hlaw hfreed 5
  have hreach : ((Session.start {}).run (actions.take 5)).heap.Reaches [a] b :=
    .held (.root (List.mem_singleton.mpr rfl) (by decide : Heap.contains _ a = true))
      (by decide) (by decide)
  obtain ⟨v, _, hv⟩ := (hkeep .minor ⟨#[a], #[]⟩).1 b hreach
  have hmem := hrem a b (Heap.generation_eq_old.mpr (by decide)) (by decide) (by decide)
  exact ⟨hlaw, hfreed, hmem, v, hv⟩

end Session

end Managed
