import Managed.Proofs.Space.Answers

/-!
# Barrier discipline

Every run of a space that uses only handles of this space keeps the remembered set complete and the
roots in step with the record of what was rooted and unrooted (`Sound`). So a collection loses nothing
that can be reached from a root (`barrier_discipline`).
-/

namespace Managed

/-! ## The values in a heap -/

namespace Session

variable {α : Type} [Traced α] {s : Session α}

/-- An object has the value it had before, or the one that the action brings. -/
theorem get?_act (ht : s.heap.Tidy) {a : Action α} {x : Ref} {v : α}
    (hx : (s.act a).heap.get? x = some v) : s.heap.get? x = some v ∨ a.value? = some v := by
  cases a with
  | alloc w =>
    rcases act_alloc_cases ht w with heq | ⟨r, h', hal, heq⟩
    · rw [heq] at hx
      exact Or.inl hx
    · rw [heq] at hx
      rw [hal.get?] at hx
      split at hx
      · exact Or.inr hx
      · exact Or.inl hx
  | store owner w stored =>
    simp only [act, Action.onHeap] at hx
    split at hx
    · next h₁ hset =>
      obtain ⟨_, rfl⟩ := Heap.set_eq_ok hset
      have ht₁ : (s.heap.modifyEntry owner fun e => { e with value := w }).Tidy :=
        Heap.tidy_modifyEntry ht owner (fun _ => rfl) fun _ => rfl
      rw [(Heap.foldl_writeBarrier ht₁.recorded owner stored).1.get?, Heap.get?,
        Heap.resolve?_modifyEntry] at hx
      split at hx
      · cases he : s.heap.resolve? owner with
        | none => simp [he] at hx
        | some e =>
          rw [he] at hx
          exact Or.inr hx
      · exact Or.inl hx
    · exact Or.inl hx
  | barrier owner w =>
    have hs := Heap.sameObjects_writeBarrier s.heap owner w
    exact Or.inl ((hs.get? x).symm.trans hx)
  | tenure r =>
    simp only [act, Action.onHeap] at hx
    split at hx
    · next h' hten =>
      rcases Heap.tenure_cases hten with rfl | rfl
      · exact Or.inl hx
      · rw [(Heap.sameObjects_rememberHolder _ r).get?, Heap.get?_tenured] at hx
        exact Or.inl hx
    · exact Or.inl hx
  | collect kind =>
    rw [show (s.act (.collect kind)).heap = s.heap.collect kind s.roots from rfl,
      Heap.get?_collect ht] at hx
    split at hx
    · exact Or.inl hx
    · cases hx
  | pushStack _ => exact Or.inl hx
  | clearStack => exact Or.inl hx
  | addGlobal _ => exact Or.inl hx
  | removeGlobal _ => exact Or.inl hx

theorem get?_run (ht : s.heap.Tidy) {actions : List (Action α)} {x : Ref} {v : α}
    (hx : (s.run actions).heap.get? x = some v) :
    s.heap.get? x = some v ∨ ∃ a ∈ actions, a.value? = some v := by
  induction actions generalizing s with
  | nil => exact Or.inl hx
  | cons a rest ih =>
    have ht' : (s.act a).heap.Tidy := Heap.tidy_onHeap ht s.roots a
    rcases ih ht' hx with hx | ⟨b, hb, hv⟩
    · exact (get?_act ht hx).imp_right fun hv => ⟨a, List.mem_cons_self, hv⟩
    · exact Or.inr ⟨b, List.mem_cons_of_mem _ hb, hv⟩

theorem Consistent.congr {issued : List Ref} (hs : s.Consistent)
    (hmem : ∀ x, x ∈ issued ↔ x ∈ s.issued) : ({ s with issued } : Session α).Consistent := by
  refine ⟨hs.tidy, ⟨hs.numbered.serial, hs.numbered.unused, fun r hr => ?_, fun r hr => ?_,
    fun r hr => ?_, fun r hr => ?_⟩, fun r x hx => ?_⟩
  · exact (hmem r).mpr (hs.numbered.live r hr)
  · exact hs.numbered.slot r ((hmem r).mp hr)
  · exact hs.numbered.past r ((hmem r).mp hr)
  · exact hs.numbered.stale r ((hmem r).mp hr)
  · exact (hmem x).mpr (hs.closed r x hx)

end Session

/-! ## Roots -/

namespace RootSet

theorem count_swap {xs : Array Ref} {i j : Nat} (hi : i < xs.size) (hj : j < xs.size) (x : Ref) :
    (xs.swap i j hi hj).count x = xs.count x := by
  rw [← Array.count_toList, ← Array.count_toList]
  exact (Array.perm_iff_toList_perm.mp (Array.swap_perm hi hj)).count_eq x

theorem count_pop {xs : Array Ref} {r : Ref} (hr : xs[xs.size - 1]? = some r) (x : Ref) :
    xs.count x = xs.pop.count x + if x = r then 1 else 0 := by
  have hpos : 0 < xs.size := by
    obtain ⟨hlt, _⟩ := Array.getElem?_eq_some_iff.mp hr
    omega
  obtain ⟨ys, y, rfl⟩ := Array.exists_push_of_size_pos hpos
  have hy : y = r := by simpa using hr
  simp [Array.count_push, hy, @eq_comm Ref r x]

/-- Removing a root takes away one of its entries. -/
theorem count_removeGlobal? {roots roots' : RootSet} {r : Ref}
    (h : roots.removeGlobal? r = some roots') (x : Ref) :
    roots.globals.count x = roots'.globals.count x + if x = r then 1 else 0 := by
  obtain ⟨i, hi, rfl⟩ := Option.map_eq_some_iff.mp h
  rw [Array.idxOf?_eq_map_finIdxOf?_val, Option.map_eq_some_iff] at hi
  obtain ⟨⟨i, hlt⟩, hfound, rfl⟩ := hi
  have hr : roots.globals[i] = r := (Array.finIdxOf?_eq_some_iff.mp hfound).1
  have hlast : roots.globals.size - 1 < roots.globals.size := by omega
  dsimp only
  rw [Array.swapIfInBounds_def, dif_pos hlt, dif_pos hlast, ← count_swap hlt hlast x]
  apply count_pop
  rw [Array.size_swap, Array.getElem?_eq_getElem (by rwa [Array.size_swap]),
    Array.getElem_swap_right, hr]

theorem mem_of_removeGlobal? {roots roots' : RootSet} {r x : Ref}
    (h : roots.removeGlobal? r = some roots') (hx : x ∈ roots'.toList) : x ∈ roots.toList := by
  have hcount := count_removeGlobal? h x
  rcases List.mem_append.mp hx with hx | hx
  · obtain ⟨i, _, rfl⟩ := Option.map_eq_some_iff.mp h
    exact List.mem_append_left _ hx
  · have hpos := Array.count_pos_iff.mpr (Array.mem_toList_iff.mp hx)
    exact List.mem_append_right _
      (Array.mem_toList_iff.mpr (Array.count_pos_iff.mp (by omega)))

end RootSet

namespace Session

theorem roots_run {bound : Nat} {actions : List (Action Object)}
    (hq : ∀ a ∈ actions, a.Quiet bound) (s : Session Object) : (s.run actions).roots = s.roots := by
  induction actions generalizing s with
  | nil => rfl
  | cons a rest ih =>
    have hone : (s.act a).roots = s.roots := by
      have ha := hq a List.mem_cons_self
      cases a <;> first | rfl | cases ha
    have hrest := ih (fun b hb => hq b (List.mem_cons_of_mem _ hb)) (s.act a)
    exact hrest.trans hone

end Session

namespace Space

variable {brought : Nat} {known known' : List Ref} {s s' : Space}

theorem Moves.roots (h : Moves brought known s known' s') : s'.roots = s.roots := by
  obtain ⟨_, actions, hq, hrun⟩ := h
  obtain ⟨_, freed', heq⟩ := hrun fun _ => 0
  have hroots := Session.roots_run hq (s.session known fun _ => 0)
  rw [heq] at hroots
  exact hroots

/-- Moves keep all arrays within the bound, unless there is no room for one. -/
theorem Moves.fit (h : Moves brought known s known' s') (hg : Grounded known s) (hfit : s.Fit brought)
    (hroom : ∀ r o, s'.heap.get? r = some o → o.Roomy) : s'.Fit brought := by
  obtain ⟨hlimits, actions, hq, hrun⟩ := h
  obtain ⟨_, freed', heq⟩ := hrun fun _ => 0
  intro r o ho
  rw [bound, hlimits]
  have hget : ((s.session known fun _ => 0).run actions).heap.get? r = some o := by rwa [heq]
  rcases Session.get?_run hg.tidy hget with hold | ⟨a, ha, hv⟩
  · exact hfit r o hold
  · have hquiet := hq a ha
    cases a with
    | alloc w =>
      cases hv
      exact hquiet (hroom r o ho)
    | store owner w stored =>
      cases hv
      exact hquiet (hroom r o ho)
    | _ => cases hv

end Space

/-! ## Runs of a space -/

namespace Track

/-- Whether a run uses only handles of its space, and what it brings into the space are consistent
arrays of up to `brought` slots. -/
def Lawful (brought : Nat) (t : Track) : List Operation → Prop
  | [] => True
  | op :: rest =>
    (∀ x ∈ op.refs, x ∈ t.issued) ∧ op.Suits (t.space.bound brought) ∧ (t.step op).Lawful brought rest

/-- Whether no operation of a run stops half-way. -/
def Whole (t : Track) : List Operation → Prop
  | [] => True
  | op :: rest => ¬op.StopsHalfway t.space ∧ (t.step op).Whole rest

/-- What holds after every operation of a lawful run. -/
structure Consistent (brought : Nat) (t : Track) : Prop where
  session : (t.space.session t.issued t.freed).Consistent
  fit : t.space.Fit brought
  roots : ∀ r, t.space.roots.globals.count r + t.unrooted r = t.rooted r

/-- What holds as long as no operation has stopped half-way. -/
structure Sound (brought : Nat) (t : Track) : Prop extends Consistent brought t where
  barriered : t.space.heap.Barriered

variable {brought : Nat} {t : Track}

theorem Consistent.grounded (hs : t.Consistent brought) : Space.Grounded t.issued t.space :=
  ⟨hs.session.tidy, hs.session.closed⟩

theorem sound_start (brought : Nat) (limits : SpaceLimits) : (start limits).Sound brought := by
  obtain ⟨hconsistent, hbarriered⟩ := Session.sound_start (α := Object) limits.heap
  refine ⟨⟨hconsistent, fun r o ho => ?_, fun r => rfl⟩, hbarriered⟩
  simp [start, Space.ofLimits, Heap.get?, Heap.resolve?] at ho

/-- An operation that frees nothing. -/
theorem freed_step {op : Operation}
    (hlive : ∀ x, t.space.heap.contains x = true → (t.step op).space.heap.contains x = true) :
    (t.step op).freed = t.freed := by
  funext i
  have hnone := Heap.frees_eq_false hlive i
  simp only [step] at hnone ⊢
  rw [hnone]
  rfl

/-- The record of the handles given out is that of the live objects. -/
theorem session_step {op : Operation} {known : List Ref}
    (hknown : ((t.step op).space.session known (t.step op).freed).Consistent)
    (hsub : ∀ x ∈ t.issued, x ∈ known)
    (hnew : ∀ x ∈ known, x ∈ t.issued ∨ (t.step op).space.heap.contains x = true) :
    ((t.step op).space.session (t.step op).issued (t.step op).freed).Consistent := by
  refine hknown.congr fun x => ?_
  rw [step, List.mem_append, Heap.mem_liveRefs]
  constructor
  · rintro (hx | hx)
    · exact hsub x hx
    · exact hknown.numbered.live x hx
  · exact hnew x

/-- An operation that amounts to one action on the heap. -/
theorem session_of_act (hs : t.Consistent brought) {op : Operation} {a : Action Object}
    (hspace : (t.step op).space = t.space.perform a)
    (hact : ((t.space.session t.issued t.freed).act a).Consistent) :
    ((t.step op).space.session (t.step op).issued (t.step op).freed).Consistent := by
  have hfreed : (t.step op).freed = ((t.space.session t.issued t.freed).act a).freed := by
    change (fun i => t.freed i + (t.space.heap.frees (t.step op).space.heap i).toNat) = _
    rw [hspace]
    rfl
  have hknown : ((t.step op).space.session ((t.space.session t.issued t.freed).act a).issued
      (t.step op).freed).Consistent := by
    rw [hspace, hfreed]
    exact hact
  refine session_step hknown (fun x hx => List.mem_append_left _ hx) fun x hx => ?_
  rw [hspace]
  exact Session.mem_issued_act hs.session.tidy hx

/-- The record of the roots set and removed by an operation that does neither. -/
theorem roots_step (hs : t.Consistent brought) {op : Operation} (hquiet : op.Quiet)
    (hroots : (t.step op).space.roots = t.space.roots) (r : Ref) :
    (t.step op).space.roots.globals.count r + (t.step op).unrooted r = (t.step op).rooted r := by
  have hrooted : (t.step op).rooted r = t.rooted r := by
    cases op <;> first | rfl | cases hquiet
  have hunrooted : (t.step op).unrooted r = t.unrooted r := by
    cases op <;> first | rfl | cases hquiet
  rw [hrooted, hunrooted, hroots]
  exact hs.roots r

section

variable {op : Operation} (hroom : ∀ r o, (t.step op).space.heap.get? r = some o → o.Roomy)
include hroom

/-- An operation that moves lawfully. -/
theorem consistent_of_moves (hs : t.Consistent brought) (hf : ∀ i, t.freed i < 2 ^ 32)
    {known : List Ref} (hmoves : Space.Moves brought t.issued t.space known (t.step op).space)
    (hquiet : op.Quiet) : (t.step op).Consistent brought := by
  obtain ⟨hlive, hnew⟩ := hmoves.live hs.grounded
  have hknown := hmoves.consistent hs.session hf
  rw [← freed_step hlive] at hknown
  exact ⟨session_step hknown hmoves.subset hnew, hmoves.fit hs.grounded hs.fit hroom,
    roots_step hs hquiet hmoves.roots⟩

/-- An array that has taken some of the items holds nothing but handles of the space, though no barrier
has been called for them. -/
theorem consistent_of_stopsHalfway (hs : t.Consistent brought) (hf : ∀ i, t.freed i < 2 ^ 32)
    (hstops : op.StopsHalfway t.space) : (t.step op).Consistent brought := by
  cases op with
  | appendAll array other =>
    obtain ⟨a, b, ha, hb, _⟩ := hstops
    have hobj := Space.array_eq_ok.mp ha
    obtain ⟨c, handles, hspace, hrev⟩ := Space.left_appendAll hs.fit ha hb
    have hspace :
        (t.step (.appendAll array other)).space = t.space.stored array (.array c) handles := by
      rw [← hspace, step, Operation.run, Space.left_map]
    have hissued : ∀ x ∈ Traced.refs (Object.array c), x ∈ t.issued := by
      intro x hx
      rcases hrev.origin x hx with hx | hx
      · exact hs.grounded.known_of_allItems ha hx
      · exact hs.grounded.known_of_allItems hb hx
    have hact := Session.consistent_act (a := .store array (.array c) handles) hs.session hf
      fun v hv x hx => by
        cases hv
        exact hissued x hx
    refine ⟨session_of_act hs hspace hact, fun r o ho => ?_,
      roots_step hs trivial (by rw [hspace]; rfl)⟩
    have hroomy := hroom r o ho
    rw [hspace] at ho ⊢
    rcases Session.get?_act (s := t.space.session t.issued t.freed) hs.session.tidy
      (a := .store array (.array c) handles) ho with hold | hv
    · exact hs.fit r o hold
    · cases hv
      exact hrev.fits hroomy
  | _ => cases hstops

end

/-- An operation that leaves all objects alone. -/
theorem session_of_heap (hs : t.Consistent brought) {op : Operation}
    (hheap : (t.step op).space.heap = t.space.heap) :
    ((t.step op).space.session (t.step op).issued (t.step op).freed).Consistent := by
  have hfreed : (t.step op).freed = t.freed := freed_step fun x hx => by rwa [hheap]
  have hknown : ((t.step op).space.session t.issued (t.step op).freed).Consistent := by
    rw [hfreed, Space.session, hheap]
    exact ⟨hs.session.tidy, hs.session.numbered, hs.session.closed⟩
  exact session_step hknown (fun _ hx => hx) fun _ hx => Or.inl hx

theorem consistent_root (hs : t.Consistent brought) (r : Ref) :
    (t.step (.root r)).Consistent brought := by
  refine ⟨session_of_heap hs rfl, hs.fit, fun x => ?_⟩
  have hcount : (t.step (.root r)).space.roots.globals.count x =
      t.space.roots.globals.count x + if r = x then 1 else 0 := by
    show (t.space.roots.globals.push r).count x = _
    rw [Array.count_push]
    simp only [beq_iff_eq]
  have hroots := hs.roots x
  have hrooted : (t.step (.root r)).rooted x = t.rooted x + if r = x then 1 else 0 := rfl
  have hunrooted : (t.step (.root r)).unrooted x = t.unrooted x := rfl
  rw [hcount, hrooted, hunrooted]
  omega

theorem consistent_unroot (hs : t.Consistent brought) (r : Ref) :
    (t.step (.unroot r)).Consistent brought := by
  cases hrem : t.space.roots.removeGlobal? r with
  | none =>
    have hrun : Operation.run (.unroot r) t.space = .ok (.truth false) t.space := by
      simp [Operation.run, Functor.map, EStateM.map, Space.unroot, hrem]
    have hspace : (t.step (.unroot r)).space = t.space := by rw [step, hrun]; rfl
    refine ⟨session_of_heap hs (by rw [hspace]), by rw [hspace]; exact hs.fit, fun x => ?_⟩
    have hunrooted : (t.step (.unroot r)).unrooted x = t.unrooted x := by rw [step, hrun]; rfl
    rw [hspace, hunrooted]
    exact hs.roots x
  | some roots =>
    have hrun : Operation.run (.unroot r) t.space = .ok (.truth true) { t.space with roots } := by
      simp [Operation.run, Functor.map, EStateM.map, Space.unroot, hrem]
    have hspace : (t.step (.unroot r)).space = { t.space with roots } := by rw [step, hrun]; rfl
    refine ⟨session_of_heap hs (by rw [hspace]), by rw [hspace]; exact hs.fit, fun x => ?_⟩
    have hunrooted : (t.step (.unroot r)).unrooted x = t.unrooted x + if r = x then 1 else 0 := by
      rw [step, hrun]
    have hcount := RootSet.count_removeGlobal? hrem x
    have hroots := hs.roots x
    have hrooted : (t.step (.unroot r)).rooted x = t.rooted x := rfl
    rw [hspace, hunrooted, hrooted]
    dsimp only
    simp only [@eq_comm Ref r x]
    omega

theorem space_collect (t : Track) (kind : CollectionKind) :
    (t.step (.collect kind)).space = t.space.perform (.collect kind) := by
  cases kind <;> rfl

theorem heap_collect (t : Track) (kind : CollectionKind) :
    (t.step (.collect kind)).space.heap = t.space.heap.collect kind t.space.roots := by
  rw [space_collect]
  rfl

theorem consistent_collect (hs : t.Consistent brought) (hf : ∀ i, t.freed i < 2 ^ 32)
    (kind : CollectionKind) : (t.step (.collect kind)).Consistent brought := by
  have hact := Session.consistent_act hs.session hf (a := .collect kind) fun _ hv => by cases hv
  have hspace := space_collect t kind
  refine ⟨session_of_act hs hspace hact, fun r o ho => ?_, fun x => ?_⟩
  · rw [heap_collect, Heap.get?_collect hs.grounded.tidy] at ho
    rw [hspace]
    split at ho
    · exact hs.fit r o ho
    · cases ho
  · rw [hspace]
    cases kind <;> exact hs.roots x

section

variable {op : Operation} (hf : ∀ i, t.freed i < 2 ^ 32) (hrefs : ∀ x ∈ op.refs, x ∈ t.issued)
  (hsuits : op.Suits (t.space.bound brought))
include hf hrefs hsuits

theorem consistent_step (hs : t.Consistent brought)
    (hroom : ∀ r o, (t.step op).space.heap.get? r = some o → o.Roomy) :
    (t.step op).Consistent brought := by
  by_cases hstops : op.StopsHalfway t.space
  · exact consistent_of_stopsHalfway hroom hs hf hstops
  by_cases hquiet : op.Quiet
  · obtain ⟨known, hmoves⟩ := (Space.obeys_run hs.grounded hs.fit hrefs hsuits hstops hquiet).moves
    exact consistent_of_moves hroom hs hf hmoves hquiet
  · cases op with
    | root r => exact consistent_root hs r
    | unroot r => exact consistent_unroot hs r
    | collect kind => exact consistent_collect hs hf kind
    | _ => exact absurd trivial hquiet

/-- The barriers have been called, unless the operation stops half-way. -/
theorem barriered_step (hs : t.Sound brought) (hwhole : ¬op.StopsHalfway t.space) :
    (t.step op).space.heap.Barriered := by
  have hsession : (t.space.session t.issued t.freed).Sound := ⟨hs.session, hs.barriered⟩
  by_cases hquiet : op.Quiet
  · obtain ⟨known, hmoves⟩ := (Space.obeys_run hs.grounded hs.fit hrefs hsuits hwhole hquiet).moves
    exact (hmoves.sound hsession hf).barriered
  · cases op with
    | root r => exact hs.barriered
    | unroot r =>
      have hheap : (t.step (.unroot r)).space.heap = t.space.heap := by
        simp only [step, Operation.run, Space.left_map, Space.unroot]
        cases t.space.roots.removeGlobal? r <;> rfl
      rw [hheap]
      exact hs.barriered
    | collect kind =>
      rw [heap_collect]
      exact Heap.barriered_collect hs.session.tidy kind t.space.roots hs.barriered
    | _ => exact absurd trivial hquiet

theorem sound_step (hs : t.Sound brought) (hwhole : ¬op.StopsHalfway t.space)
    (hroom : ∀ r o, (t.step op).space.heap.get? r = some o → o.Roomy) : (t.step op).Sound brought :=
  ⟨consistent_step hf hrefs hsuits hs.toConsistent hroom, barriered_step hf hrefs hsuits hs hwhole⟩

end

/-! ## Whole runs -/

theorem freed_le_run (t : Track) (ops : List Operation) (i : Nat) :
    t.freed i ≤ (t.run ops).freed i := by
  induction ops generalizing t with
  | nil => exact Nat.le_refl _
  | cons op rest ih => exact Nat.le_trans (Nat.le_add_right _ _) (ih (t.step op))

/-- A slot is freed at most once by each operation. -/
theorem freed_run_le (t : Track) (ops : List Operation) (i : Nat) :
    (t.run ops).freed i ≤ t.freed i + ops.length := by
  induction ops generalizing t with
  | nil => exact Nat.le_refl _
  | cons op rest ih =>
    have hle := ih (t.step op)
    have hone : (t.step op).freed i ≤ t.freed i + 1 := Nat.add_le_add_left (Bool.toNat_le _) _
    rw [List.length_cons]
    exact Nat.le_trans hle (by omega)

theorem roomy_step {op : Operation} {rest : List Operation}
    (hroom : ∀ n r a, (t.run ((op :: rest).take n)).space.array r = .ok a → a.capacity < Word.max) :
    ∀ r o, (t.step op).space.heap.get? r = some o → o.Roomy := by
  intro r o ho
  cases o with
  | array a => exact hroom 1 r a (Space.array_eq_ok.mpr ho)
  | _ => trivial

section

variable {ops : List Operation} (hl : t.Lawful brought ops) (hf : ∀ i, (t.run ops).freed i < 2 ^ 32)
  (hroom : ∀ n r a, (t.run (ops.take n)).space.array r = .ok a → a.capacity < Word.max) (n : Nat)
include hl hf hroom

theorem consistent_run (hs : t.Consistent brought) : (t.run (ops.take n)).Consistent brought := by
  induction ops generalizing t n with
  | nil =>
    rw [List.take_nil]
    exact hs
  | cons op rest ih =>
    cases n with
    | zero => exact hs
    | succ n =>
      obtain ⟨hrefs, hsuits, hrest⟩ := hl
      have hnow : ∀ i, t.freed i < 2 ^ 32 := fun i =>
        Nat.lt_of_le_of_lt (freed_le_run t (op :: rest) i) (hf i)
      have hstep := consistent_step hnow hrefs hsuits hs (roomy_step hroom)
      exact ih hrest hf (fun m => hroom (m + 1)) n hstep

/-- If no operation stops half-way, all barriers are called. -/
theorem sound_run (hs : t.Sound brought) (hw : t.Whole ops) : (t.run (ops.take n)).Sound brought := by
  induction ops generalizing t n with
  | nil =>
    rw [List.take_nil]
    exact hs
  | cons op rest ih =>
    cases n with
    | zero => exact hs
    | succ n =>
      obtain ⟨hrefs, hsuits, hrest⟩ := hl
      have hnow : ∀ i, t.freed i < 2 ^ 32 := fun i =>
        Nat.lt_of_le_of_lt (freed_le_run t (op :: rest) i) (hf i)
      have hstep := sound_step hnow hrefs hsuits hs hw.1 (roomy_step hroom)
      exact ih hrest hf (fun m => hroom (m + 1)) n hstep hw.2

end

theorem mem_roots_of_unrooted_lt (hs : t.Consistent brought) {r : Ref}
    (hr : t.unrooted r < t.rooted r) : r ∈ t.space.roots.toList := by
  have hcount : 0 < t.space.roots.globals.count r := by
    have hroots := hs.roots r
    omega
  exact List.mem_append_right _ (Array.mem_toList_iff.mpr (Array.count_pos_iff.mp hcount))

/-- Operations of a space keep the barrier discipline, whatever they are given, whether they succeed or
fail: after each of them every old object that holds a young one is remembered. So a collection of
either kind keeps, with its value, all that can be reached from a handle that has been rooted more often
than it has been unrooted. The run uses handles of its space only, no slot is freed `2 ^ 32` times, and
no array takes up all words. The one operation that breaks the discipline is an append of all items that
stops half-way (`appendAll_beyond_limits`). -/
theorem barrier_discipline (limits : SpaceLimits) (ops : List Operation)
    (hlaw : (start limits).Lawful Word.max ops) (hwhole : (start limits).Whole ops)
    (hfreed : ∀ i, ((start limits).run ops).freed i < 2 ^ 32)
    (hroom : ∀ n r a, ((start limits).run (ops.take n)).space.array r = .ok a →
      a.capacity < Word.max) (n : Nat) :
    let t := (start limits).run (ops.take n)
    (∀ owner x, t.space.heap.generation owner = .ok .old → x ∈ t.space.heap.children owner →
      t.space.heap.isYoung x = true → owner ∈ t.space.heap.remembered.refs) ∧
    ∀ kind r x, t.unrooted r < t.rooted r → t.space.heap.Reaches [r] x →
      ∃ o, t.space.heap.get? x = some o ∧ (t.step (.collect kind)).space.heap.get? x = some o := by
  intro t
  have hs : t.Sound Word.max := sound_run hlaw hfreed hroom n (sound_start _ limits) hwhole
  have ht : t.space.heap.Tidy := hs.grounded.tidy
  refine ⟨fun owner x hold hx hyoung => ?_, fun kind r x hr hx => ?_⟩
  · exact hs.barriered owner (Heap.holdsYoung_iff.mpr ⟨Heap.generation_eq_old.mp hold, x, hx, hyoung⟩)
  · have hroots : ∀ y ∈ [r], y ∈ t.space.roots.toList := by
      simpa using mem_roots_of_unrooted_lt hs.toConsistent hr
    obtain ⟨o, ho⟩ := Heap.contains_iff_get?.mp (Heap.contains_of_reaches hx)
    refine ⟨o, ho, ?_⟩
    rw [heap_collect, Heap.get?_collect ht,
      Heap.spared_of_reaches ht kind t.space.roots hs.barriered (hx.mono hroots), if_pos rfl, ho]

/-- Whether no array of a space takes up all words. -/
def roomy (s : Space) : Bool :=
  s.heap.liveRefs.all fun r => (s.heap.get? r).all fun
    | .array a => a.capacity < Word.max
    | _ => true

theorem capacity_of_roomy {s : Space} (h : roomy s = true) {r : Ref} {a : SlotArray Ref}
    (ha : s.array r = .ok a) : a.capacity < Word.max := by
  have hobj := Space.array_eq_ok.mp ha
  have hlive : r ∈ s.heap.liveRefs := Heap.mem_liveRefs.mpr (Heap.contains_iff_get?.mpr ⟨_, hobj⟩)
  have hr := List.all_eq_true.mp h r hlive
  rw [hobj] at hr
  simpa using hr

/-- The prefixes of a run are looked through one by one. -/
theorem capacity_of_prefixes {ops : List Operation} (after : List Operation → Space)
    (h : ∀ n < ops.length + 1, roomy (after (ops.take n)) = true) (n : Nat) (r : Ref)
    (a : SlotArray Ref) (ha : (after (ops.take n)).array r = .ok a) : a.capacity < Word.max := by
  by_cases hn : n < ops.length + 1
  · exact capacity_of_roomy (h n hn) ha
  · refine capacity_of_roomy (h ops.length (by omega)) (r := r) ?_
    rwa [List.take_of_length_le (by omega)] at ha ⊢

/-- The two arrays are looked up and compared. -/
theorem not_stopsHalfway_of_any {s : Space} {array other : Ref}
    (h : (s.array array).toOption.any (fun a => (s.array other).toOption.any fun b =>
      a.StopsHalfway b.allItems.length s.limits) = false) :
    ¬(Operation.appendAll array other).StopsHalfway s := by
  rintro ⟨a, b, ha, hb, hstops⟩
  rw [ha, hb] at h
  simp [Except.toOption, hstops] at h

/-- An array with four slots to spare. -/
def spacious : SlotArray Ref :=
  { storage := Array.replicate 4 none }

theorem slotAt_spacious (i : Nat) : spacious.slotAt i = none := by
  rw [SlotArray.slotAt, spacious, SlotArray.cell_replicate]
  split <;> rfl

theorem fits_spacious : spacious.Fits Word.max :=
  ⟨⟨by decide, fun i _ => slotAt_spacious i⟩, SlotArray.shaped_of_linear rfl, by decide⟩

/-- All items of another array, a young string, are appended to a tenured array that has more storage
than the limits allow for. The array is remembered, and a minor collection keeps the string. -/
theorem barrier_discipline_appendAll :
    let limits : SpaceLimits := { arrays := { maxElements := 2 } }
    let a : Ref := ⟨0, 0⟩
    let b : Ref := ⟨1, 0⟩
    let ops : List Operation := [.alloc (.array spacious), .root a, .tenure a, .newString "k",
      .arrayOf [some b], .appendAll a ⟨2, 0⟩]
    (start limits).Lawful Word.max ops ∧ (start limits).Whole ops ∧
      (∀ i, ((start limits).run ops).freed i < 2 ^ 32) ∧
      (∀ n r c, ((start limits).run (ops.take n)).space.array r = .ok c → c.capacity < Word.max) ∧
      a ∈ ((start limits).run ops).space.heap.remembered.refs ∧
      ∃ o, (((start limits).run ops).step (.collect .minor)).space.heap.get? b = some o := by
  intro limits a b ops
  have hlaw : (start limits).Lawful Word.max ops :=
    ⟨by decide, fits_spacious, by decide +kernel, trivial, by decide +kernel, trivial, by decide,
      trivial, by decide +kernel, trivial, by decide +kernel, trivial, trivial⟩
  have hwhole : (start limits).Whole ops :=
    ⟨id, id, id, id, id, not_stopsHalfway_of_any (by decide +kernel), trivial⟩
  have hfreed : ∀ i, ((start limits).run ops).freed i < 2 ^ 32 := by
    intro i
    have hle : ((start limits).run ops).freed i ≤ 0 + 6 := freed_run_le _ ops i
    omega
  have hroom : ∀ n r c, ((start limits).run (ops.take n)).space.array r = .ok c →
      c.capacity < Word.max :=
    capacity_of_prefixes (fun ops => ((start limits).run ops).space) (by decide +kernel)
  have hmain := barrier_discipline limits ops hlaw hwhole hfreed hroom 6
  rw [show ops.take 6 = ops from rfl] at hmain
  obtain ⟨hrem, hkeep⟩ := hmain
  have hreach : ((start limits).run ops).space.heap.Reaches [a] b :=
    .held (.root (List.mem_singleton.mpr rfl) (by decide +kernel : Heap.contains _ a = true))
      (by decide +kernel) (by decide +kernel)
  obtain ⟨o, _, ho⟩ := hkeep .minor a b (by decide +kernel) hreach
  have hmem := hrem a b (Heap.generation_eq_old.mpr (by decide +kernel)) (by decide +kernel)
    (by decide +kernel)
  exact ⟨hlaw, hwhole, hfreed, hroom, hmem, o, ho⟩

/-- The array has storage for two more items, but the limits allow for one. The first item is in place
when the second is refused, and no barrier has been called for it. So a collection frees an object that
a root reaches. -/
theorem appendAll_beyond_limits :
    let limits : SpaceLimits := { arrays := { maxElements := 2 } }
    let a : Ref := ⟨0, 0⟩
    let b : Ref := ⟨2, 0⟩
    let ops : List Operation := [.alloc (.array spacious), .root a, .tenure a, .newString "a",
      .tenure ⟨1, 0⟩, .append a ⟨1, 0⟩, .newString "b", .arrayOf [some b, some b],
      .appendAll a ⟨3, 0⟩]
    let t := (start limits).run ops
    (start limits).Lawful Word.max ops ∧ t.unrooted a < t.rooted a ∧
      t.space.heap.generation a = .ok .old ∧ b ∈ t.space.heap.children a ∧
      t.space.heap.isYoung b = true ∧ a ∉ t.space.heap.remembered.refs ∧
      t.space.heap.Reaches [a] b ∧ (t.step (.collect .minor)).space.heap.contains b = false := by
  intro limits a b ops t
  have hlaw : (start limits).Lawful Word.max ops :=
    ⟨by decide, fits_spacious, by decide +kernel, trivial, by decide +kernel, trivial, by decide,
      trivial, by decide +kernel, trivial, by decide +kernel, trivial, by decide, trivial,
      by decide +kernel, trivial, by decide +kernel, trivial, trivial⟩
  refine ⟨hlaw, by decide +kernel, Heap.generation_eq_old.mpr (by decide +kernel), by decide +kernel,
    by decide +kernel, by decide +kernel, ?_, by decide +kernel⟩
  exact .held (.root (List.mem_singleton.mpr rfl) (by decide +kernel : Heap.contains _ a = true))
    (by decide +kernel) (by decide +kernel)

end Track

end Managed
