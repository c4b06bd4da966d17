import Managed.Proofs.Space.Discipline
import Managed.Proofs.Space.ParallelChanges
import Managed.Proofs.Space.Program

/-!
# Collections do not show

Two runs of one program may collect at different points and under different limits of the heap. As
long as each collection keeps what the program uses later, the objects that one run has made are the
counterparts of those that the other has made (`InStep`): an operation of the program takes both runs
on (`inStep_step`), and a collection takes away objects of one of them only (`inStep_collect_left`,
`inStep_collect_right`). So both return the same results up to one renaming of handles
(`collections_transparent`).
-/

namespace Managed

/-! ## Names -/

section

variable {given : List Ref} {x : Ref}

theorem meaning_append (new : List Ref) (hx : x.index < given.length) :
    meaning (given ++ new) x = meaning given x := by
  simp only [meaning, List.getD_eq_getElem?_getD, List.getElem?_append_left hx]

theorem meaning_mem_of_le {new : List Ref} (hle : given.length ≤ x.index)
    (hlt : x.index < (given ++ new).length) : meaning (given ++ new) x ∈ new := by
  rw [List.length_append] at hlt
  simp only [meaning, List.getD_eq_getElem?_getD, List.getElem?_append_right hle]
  rw [List.getElem?_eq_getElem (by omega), Option.getD_some]
  exact List.getElem_mem _

theorem meaning_map (f : Ref → Ref) (hx : x.index < given.length) :
    meaning (given.map f) x = f (meaning given x) := by
  simp [meaning, List.getD_eq_getElem?_getD, List.getElem?_eq_getElem hx]

end

namespace Execution

open Space

variable {e : Execution} {op : Operation} {ops : List Operation}

/-! ## One run -/

/-- Whether an operation finds the heap full. -/
def runsOut : Except Fault Answer → Bool
  | .error (.heap (.exhausted _)) => true
  | _ => false

/-- What a run has to satisfy: its names mean handles that have been given, no object finds the heap
full, and at each collection every handle given so far that the program uses later can be reached from
the roots. An array that is handed to the space is within its limits. -/
def Safe (e : Execution) : List Operation → Prop
  | [] => True
  | op :: rest =>
    (∀ x ∈ op.names, x.index < e.given.length) ∧ (e.actual op).Suits e.space.limits.maxElements ∧
    runsOut (e.result op) = false ∧
    (op.isCollect = true → ∀ later ∈ rest, ∀ x ∈ later.names, x.index < e.given.length →
      e.space.heap.Reaches e.space.roots.toList (meaning e.given x)) ∧
    (e.step op).Safe rest

/-- The state of a run with the operations that are left. Every handle that an object holds, and every
handle that is going to be used, resolves. -/
structure Healthy (e : Execution) (ops : List Operation) : Prop where
  sound : e.track.Sound 0
  whole : Grounded e.space.heap.liveRefs e.space
  ready : ∀ op ∈ ops, ∀ x ∈ op.names, x.index < e.given.length →
    e.space.heap.contains (meaning e.given x) = true
  safe : e.Safe ops
  few : ∀ i, (e.run ops).track.freed i < 2 ^ 32
  room : ∀ n r a, (e.run (ops.take n)).space.array r = .ok a → a.capacity < Word.max

/-- The space goes through the operations with their handles put in. -/
theorem exists_track_run (e : Execution) (ops : List Operation) :
    ∃ acts : List Operation, acts.length = ops.length ∧ (e.run ops).track = e.track.run acts := by
  induction ops generalizing e with
  | nil => exact ⟨[], rfl, rfl⟩
  | cons op rest ih =>
    obtain ⟨acts, hlength, hrun⟩ := ih (e.step op)
    exact ⟨e.actual op :: acts, by simp [hlength], hrun⟩

/-- A change of the roots leaves all objects alone and gives no handles. -/
theorem heap_of_not_quiet (hop : op.isCollect = false) (hq : ¬(e.actual op).Quiet) :
    (e.step op).space.heap = e.space.heap ∧ refsGiven (e.result op) = [] := by
  cases op with
  | root r => exact ⟨rfl, rfl⟩
  | unroot r =>
    have hrun : ∀ s : Space, ∃ b, (Operation.unroot (meaning e.given r)).run s =
        .ok (.truth b)
          { s with roots := (s.roots.removeGlobal? (meaning e.given r)).getD s.roots } := by
      intro s
      simp only [Operation.run, Functor.map, EStateM.map, unroot]
      cases s.roots.removeGlobal? (meaning e.given r) with
      | none => exact ⟨false, rfl⟩
      | some roots => exact ⟨true, rfl⟩
    obtain ⟨b, hb⟩ := hrun e.space
    refine ⟨?_, ?_⟩
    · show (left ((Operation.unroot (meaning e.given r)).run e.space)).heap = _
      rw [hb]
      rfl
    · show refsGiven (outcome ((Operation.unroot (meaning e.given r)).run e.space)) = _
      rw [hb]
      rfl
  | collect kind => cases hop
  | _ => exact absurd trivial hq

theorem eq_collect (hop : op.isCollect = true) : ∃ kind, op = .collect kind := by
  cases op with
  | collect kind => exact ⟨kind, rfl⟩
  | _ => cases hop

theorem given_collect (e : Execution) (kind : CollectionKind) :
    (e.step (.collect kind)).given = e.given := by
  have hnone : refsGiven (e.result (.collect kind)) = [] := by
    cases kind <;> rfl
  rw [Execution.step, hnone, List.append_nil]

theorem heap_collect (e : Execution) (kind : CollectionKind) :
    (e.step (.collect kind)).space.heap = e.space.heap.collect kind e.space.roots := by
  cases kind <;> rfl

namespace Healthy

theorem bound (h : Healthy e ops) (i : Nat) : e.track.freed i < 2 ^ 32 := by
  obtain ⟨acts, _, hrun⟩ := exists_track_run e ops
  have hlt := h.few i
  rw [hrun] at hlt
  exact Nat.lt_of_le_of_lt (Track.freed_le_run e.track acts i) hlt

theorem live (h : Healthy e (op :: ops)) {x : Ref} (hx : x ∈ (e.actual op).refs) :
    e.space.heap.contains x = true := by
  rw [actual, Operation.refs_rename] at hx
  obtain ⟨name, hname, rfl⟩ := List.mem_map.mp hx
  have hmem : name ∈ op.names := List.mem_append_left _ hname
  exact h.ready op List.mem_cons_self name hmem (h.safe.1 name hmem)

theorem suits (h : Healthy e (op :: ops)) : (e.actual op).Suits (e.space.bound 0) := by
  rw [bound_zero]
  exact h.safe.2.1

/-- No array has more storage than the limits allow for. -/
theorem not_stopsHalfway (h : Healthy e ops) (op : Operation) : ¬op.StopsHalfway e.space := by
  cases op with
  | appendAll array other =>
    rintro ⟨a, b, ha, _, hstops⟩
    have hcap := (h.sound.fit.array ha).capacity_le
    rw [bound_zero] at hcap
    exact SlotArray.not_stopsHalfway_of_capacity_le hcap _ hstops
  | _ => exact id

theorem sound_step (h : Healthy e (op :: ops)) : (e.step op).track.Sound 0 := by
  refine Track.sound_step h.bound (fun x hx => ?_) h.suits h.sound (h.not_stopsHalfway _)
    fun r o ho => ?_
  · exact h.sound.session.numbered.live x (h.live hx)
  · cases o with
    | array a => exact h.room 1 r a (array_eq_ok.mpr ho)
    | _ => trivial

/-- What an operation other than a collection keeps: every object, and the rule that no object holds a
handle that does not resolve. What it answers resolves too. -/
theorem keeps (h : Healthy e (op :: ops)) (hop : op.isCollect = false) :
    (∀ x, e.space.heap.contains x = true → (e.step op).space.heap.contains x = true) ∧
      Grounded (e.step op).space.heap.liveRefs (e.step op).space ∧
      ∀ x ∈ refsGiven (e.result op), (e.step op).space.heap.contains x = true := by
  have hspace : (e.step op).space = left ((e.actual op).run e.space) := rfl
  by_cases hquiet : (e.actual op).Quiet
  · have hlive : ∀ x ∈ (e.actual op).refs, x ∈ e.space.heap.liveRefs := fun x hx =>
      Heap.mem_liveRefs.mpr (h.live hx)
    obtain ⟨known, hmoves, hgives⟩ :=
      obeys_run h.whole h.sound.fit hlive h.suits (h.not_stopsHalfway _) hquiet
    obtain ⟨hkept, hknown⟩ := hmoves.live h.whole
    have hnew : ∀ x ∈ known, (left ((e.actual op).run e.space)).heap.contains x = true := fun x hx =>
      (hknown x hx).elim (fun hx => hkept x (Heap.mem_liveRefs.mp hx)) id
    have hground := hmoves.grounded h.whole
    refine ⟨hkept, ⟨hground.tidy, fun r x hx => ?_⟩, fun x hx => ?_⟩
    · exact Heap.mem_liveRefs.mpr (hnew x (hground.closed r x hx))
    · unfold result at hx
      cases hrun : (e.actual op).run e.space with
      | error fault t =>
        rw [hrun] at hx
        cases hx
      | ok a t =>
        rw [hrun] at hx
        exact hnew x (hgives a t hrun x hx)
  · obtain ⟨hheap, hnone⟩ := heap_of_not_quiet hop hquiet
    refine ⟨fun x hx => by rwa [hheap], ⟨by rw [hheap]; exact h.whole.tidy, ?_⟩, fun x hx => ?_⟩
    · rw [hheap]
      exact h.whole.closed
    · rw [hnone] at hx
      cases hx

/-- A collection keeps what is going to be used, and what survivors hold. -/
theorem keeps_collect {kind : CollectionKind} (h : Healthy e (.collect kind :: ops)) :
    Grounded (e.step (.collect kind)).space.heap.liveRefs (e.step (.collect kind)).space ∧
      ∀ x, e.space.heap.Reaches e.space.roots.toList x →
        (e.step (.collect kind)).space.heap.contains x = true := by
  have ht : e.space.heap.Tidy := h.whole.tidy
  have hb : e.space.heap.Barriered := h.sound.barriered
  refine ⟨⟨?_, fun r x hx => ?_⟩, fun x hx => ?_⟩
  · rw [heap_collect]
    exact Heap.tidy_collect ht kind _
  · rw [heap_collect] at hx ⊢
    have hlive : (e.space.heap.collect kind e.space.roots).contains r = true := by
      by_contra hdead
      rw [Bool.not_eq_true] at hdead
      rw [Heap.children_of_not_contains hdead] at hx
      cases hx
    rw [Heap.children_collect ht kind _ hlive] at hx
    rw [Heap.contains_collect ht, Bool.and_eq_true] at hlive
    rw [Heap.mem_liveRefs, Heap.contains_collect ht, Bool.and_eq_true]
    exact ⟨Heap.mem_liveRefs.mp (h.whole.closed r x hx),
      Heap.spared_of_held ht kind _ hb hlive.1 hlive.2 hx⟩
  · rw [heap_collect, Heap.contains_collect ht, Heap.contains_of_reaches hx,
      Heap.spared_of_reaches ht kind _ hb hx]
    rfl

theorem step (h : Healthy e (op :: ops)) : Healthy (e.step op) ops := by
  have hsafe : (e.step op).Safe ops := h.safe.2.2.2.2
  have hlater : ∀ {later x}, later ∈ ops → x ∈ later.names → x.index < e.given.length →
      e.space.heap.contains (meaning e.given x) = true := fun hmem hx hlt =>
    h.ready _ (List.mem_cons_of_mem _ hmem) _ hx hlt
  cases hop : op.isCollect with
  | false =>
    obtain ⟨hkept, hwhole, hnew⟩ := h.keeps hop
    refine ⟨h.sound_step, hwhole, fun later hmem x hx hlt => ?_, hsafe, h.few,
      fun n => h.room (n + 1)⟩
    by_cases hold : x.index < e.given.length
    · rw [Execution.step, meaning_append _ hold]
      exact hkept _ (hlater hmem hx hold)
    · exact hnew _ (meaning_mem_of_le (Nat.le_of_not_lt hold) hlt)
  | true =>
    obtain ⟨kind, rfl⟩ := eq_collect hop
    obtain ⟨hwhole, hkept⟩ := h.keeps_collect
    refine ⟨h.sound_step, hwhole, fun later hmem x hx hlt => ?_, hsafe, h.few,
      fun n => h.room (n + 1)⟩
    rw [given_collect] at hlt ⊢
    exact hkept _ (h.safe.2.2.2.1 rfl later hmem x hx hlt)

end Healthy

/-- A safe run starts healthy. -/
theorem healthy_start {limits : SpaceLimits} (hsafe : (start limits).Safe ops)
    (hfew : ∀ i, ((start limits).run ops).track.freed i < 2 ^ 32)
    (hroom : ∀ n r a, ((start limits).run (ops.take n)).space.array r = .ok a →
      a.capacity < Word.max) : Healthy (start limits) ops := by
  have hsound : (start limits).track.Sound 0 := Track.sound_start 0 limits
  refine ⟨hsound, ⟨hsound.grounded.tidy, fun r x hx => ?_⟩, fun op hop x hx hlt => ?_, hsafe, hfew,
    hroom⟩
  · have hnone : (start limits).space.heap.children r = [] :=
      Heap.children_of_not_contains rfl
    rw [hnone] at hx
    cases hx
  · cases hlt

/-! ## Two runs -/

/-- Two runs that have made the same objects and returned the same results, up to any renaming of the
pairs. -/
structure InStep (pairs : List (Ref × Ref)) (e e' : Execution) : Prop where
  alike : Alike pairs e.track.freed e'.track.freed e.space e'.space
  given : ∀ f, Renames pairs f → e'.given = e.given.map f
  results : ∀ f, Renames pairs f → e'.results = e.results.map (Except.map (Answer.rename f))

/-- Two lists of operations that differ in their collections only. -/
inductive Interleaved : List Operation → List Operation → Prop
  | nil : Interleaved [] []
  | both {op : Operation} {ops ops' : List Operation} :
    op.Transparent → Interleaved ops ops' → Interleaved (op :: ops) (op :: ops')
  | left {kind : CollectionKind} {ops ops' : List Operation} :
    Interleaved ops ops' → Interleaved (.collect kind :: ops) ops'
  | right {kind : CollectionKind} {ops ops' : List Operation} :
    Interleaved ops ops' → Interleaved ops (.collect kind :: ops')

variable {pairs : List (Ref × Ref)} {e' : Execution} {ops' : List Operation}

/-- Both runs put in their own handles for the names of an operation. -/
theorem InStep.actual (hi : InStep pairs e e') (hnames : ∀ x ∈ op.names, x.index < e.given.length)
    {f : Ref → Ref} (hf : Renames pairs f) : e'.actual op = (e.actual op).rename f := by
  rw [Execution.actual, Execution.actual, Operation.rename_rename, hi.given f hf]
  exact Operation.rename_congr fun x hx => meaning_map f (hnames x hx)

theorem InStep.linked (hi : InStep pairs e e') (h : Healthy e ops) (h' : Healthy e' ops')
    {f : Ref → Ref} (hf : Renames pairs f) : Linked f e.space e'.space :=
  hi.alike.linked (fun r x hx => Heap.mem_liveRefs.mp (h.whole.closed r x hx))
    (fun r x hx => Heap.mem_liveRefs.mp (h'.whole.closed r x hx)) hf

theorem InStep.seen (hi : InStep pairs e e') (h : Healthy e (op :: ops))
    (h' : Healthy e' (op :: ops')) {f : Ref → Ref} (hf : Renames pairs f) {x : Ref}
    (hx : x ∈ (e.actual op).refs) : Seen f e.space e'.space x := by
  refine ⟨h.live hx, h'.live ?_⟩
  rw [hi.actual h.safe.1 hf, Operation.refs_rename]
  exact List.mem_map_of_mem hx

theorem transparent_rename {f : Ref → Ref} (ht : op.Transparent) : (op.rename f).Transparent := by
  cases op with
  | query q =>
    cases q with
    | _ => exact ht
  | _ => exact ht

theorem isCollect_of_transparent (ht : op.Transparent) : op.isCollect = false := by
  cases op with
  | collect kind => cases ht
  | _ => rfl

theorem runsOut_of_exhausted {result : EStateM.Result Fault Space Answer} (h : Exhausted result) :
    runsOut (outcome result) = true := by
  cases h with
  | intro max s => rfl

theorem outcome_of_corresponds {result result' : EStateM.Result Fault Space Answer}
    (h : Corresponds Answer.rename pairs result result') {f : Ref → Ref} (hf : Renames pairs f) :
    outcome result' = (outcome result).map (Answer.rename f) := by
  cases h with
  | ok value => exact congrArg Except.ok (value f hf)
  | error fault s s' => rfl

/-- An operation of the program takes both runs on. -/
theorem inStep_step (hi : InStep pairs e e') (h : Healthy e (op :: ops))
    (h' : Healthy e' (op :: ops')) (ht : op.Transparent) :
    ∃ new, InStep (pairs ++ new) (e.step op) (e'.step op) := by
  have hop := isCollect_of_transparent ht
  rcases parallel_run hi.alike (fun f hf => hi.linked h h' hf) h.sound.fit
    (fun f hf => hi.actual h.safe.1 hf) (transparent_rename ht)
    (fun f hf x hx => hi.seen h h' hf hx) with hex | hex | ⟨new, halike, hcorr⟩
  · cases (runsOut_of_exhausted hex).symm.trans h.safe.2.2.1
  · cases (runsOut_of_exhausted hex).symm.trans h'.safe.2.2.1
  have hresult : ∀ f, Renames (pairs ++ new) f →
      e'.result op = (e.result op).map (Answer.rename f) := fun f hf =>
    outcome_of_corresponds hcorr hf
  refine ⟨new, ?_, fun f hf => ?_, fun f hf => ?_⟩
  · have hfreed : (e.step op).track.freed = e.track.freed := Track.freed_step (h.keeps hop).1
    have hfreed' : (e'.step op).track.freed = e'.track.freed := Track.freed_step (h'.keeps hop).1
    rw [hfreed, hfreed']
    exact halike
  · simp only [step, hresult f hf, refsGiven_map, hi.given f hf.of_append, List.map_append]
  · have hstep : ∀ e : Execution, (e.step op).results = e.results ++ [e.result op] := fun e => by
      rw [step, hop]
      rfl
    rw [hstep, hstep, hresult f hf, hi.results f hf.of_append, List.map_append]
    rfl

/-- A collection of one run keeps its handles apart and changes no object that survives. -/
theorem kept_collect {kind : CollectionKind} {handles : List Ref}
    (h : Healthy e (.collect kind :: ops)) (hk : Kept handles e.track.freed e.space.heap) :
    Kept handles (e.step (.collect kind)).track.freed (e.step (.collect kind)).space.heap ∧
      ∀ x o, (e.step (.collect kind)).space.heap.get? x = some o → e.space.heap.get? x = some o := by
  have hfreed : (e.step (.collect kind)).track.freed = fun i => e.track.freed i +
      (e.space.heap.frees (e.space.heap.collect kind e.space.roots) i).toNat := by
    funext i
    cases kind <;> rfl
  have hbound := h.step.bound
  rw [hfreed] at hbound ⊢
  rw [heap_collect]
  refine ⟨hk.collect kind _ hbound, fun x o ho => ?_⟩
  rw [Heap.get?_collect hk.tidy] at ho
  split at ho
  · exact ho
  · cases ho

/-- A collection in the first run. -/
theorem inStep_collect_left {kind : CollectionKind} (hi : InStep pairs e e')
    (h : Healthy e (.collect kind :: ops)) : InStep pairs (e.step (.collect kind)) e' := by
  obtain ⟨hk, hget⟩ := kept_collect h hi.alike.kept
  refine ⟨?_, fun f hf => ?_, hi.results⟩
  · refine hi.alike.of_get? ?_ rfl hk hi.alike.kept' hget (fun _ _ ho => ho) fun f hf => ?_
    · cases kind <;> rfl
    · rw [hi.alike.roots f hf]
      cases kind <;> rfl
  · rw [given_collect]
    exact hi.given f hf

/-- A collection in the second run. -/
theorem inStep_collect_right {kind : CollectionKind} (hi : InStep pairs e e')
    (h' : Healthy e' (.collect kind :: ops')) : InStep pairs e (e'.step (.collect kind)) := by
  obtain ⟨hk', hget'⟩ := kept_collect h' hi.alike.kept'
  refine ⟨?_, fun f hf => ?_, hi.results⟩
  · refine hi.alike.of_get? rfl ?_ hi.alike.kept hk' (fun _ _ ho => ho) hget' fun f hf => ?_
    · cases kind <;> rfl
    · rw [← hi.alike.roots f hf]
      cases kind <;> rfl
  · rw [given_collect]
    exact hi.given f hf

theorem inStep_start {limits limits' : SpaceLimits} (harrays : limits'.arrays = limits.arrays) :
    InStep [] (start limits) (start limits') := by
  have hkept : ∀ limits : SpaceLimits,
      Kept [] (start limits).track.freed (start limits).space.heap := fun limits =>
    ⟨(Track.sound_start 0 limits).grounded.tidy, Heap.numbered_empty limits.heap, List.nodup_nil,
      fun _ => Nat.two_pow_pos 32⟩
  exact ⟨⟨harrays, hkept limits, hkept limits', by simp, fun _ _ => Array.map_empty.symm⟩,
    fun _ _ => rfl, fun _ _ => rfl⟩

theorem interleaved_of_program (hsame : program ops = program ops')
    (ht : ∀ op ∈ program ops, op.Transparent) : Interleaved ops ops' := by
  induction ops generalizing ops' with
  | nil =>
    -- the second list holds collections only
    induction ops' with
    | nil => exact .nil
    | cons op' rest' ih' =>
      cases op' with
      | collect kind => exact .right (ih' hsame)
      | _ => cases hsame
  | cons op rest ih =>
    cases hop : op.isCollect with
    | true =>
      obtain ⟨kind, rfl⟩ := eq_collect hop
      exact .left (ih hsame ht)
    | false =>
      rw [program_cons hop] at hsame ht
      induction ops' with
      | nil => cases hsame
      | cons op' rest' ih' =>
        cases hop' : op'.isCollect with
        | true =>
          obtain ⟨kind, rfl⟩ := eq_collect hop'
          exact .right (ih' hsame)
        | false =>
          rw [program_cons hop'] at hsame
          obtain ⟨rfl, hrest⟩ := List.cons.inj hsame
          exact .both (ht op List.mem_cons_self)
            (ih hrest fun later hmem => ht later (List.mem_cons_of_mem _ hmem))

theorem inStep_run (hmix : Interleaved ops ops') (hi : InStep pairs e e') (h : Healthy e ops)
    (h' : Healthy e' ops') : ∃ all, InStep all (e.run ops) (e'.run ops') := by
  induction hmix generalizing pairs e e' with
  | nil => exact ⟨pairs, hi⟩
  | both ht _ ih =>
    obtain ⟨new, hnext⟩ := inStep_step hi h h' ht
    exact ih hnext h.step h'.step
  | left _ ih => exact ih (inStep_collect_left hi h) h.step h'
  | right _ ih => exact ih (inStep_collect_right hi h') h h'.step

/-- Two safe runs of one program, whose operations do not ask about the heap itself, return the same
results up to one renaming of handles. They may collect at different points, and under any limits of
the heap. In neither is a slot freed `2 ^ 32` times, and no array takes up all words. -/
theorem collections_transparent (limits limits' : SpaceLimits)
    (harrays : limits'.arrays = limits.arrays) (ops ops' : List Operation)
    (hsame : program ops = program ops') (ht : ∀ op ∈ program ops, op.Transparent)
    (hsafe : (start limits).Safe ops) (hsafe' : (start limits').Safe ops')
    (hfew : ∀ i, ((start limits).run ops).track.freed i < 2 ^ 32)
    (hfew' : ∀ i, ((start limits').run ops').track.freed i < 2 ^ 32)
    (hroom : ∀ n r a, ((start limits).run (ops.take n)).space.array r = .ok a →
      a.capacity < Word.max)
    (hroom' : ∀ n r a, ((start limits').run (ops'.take n)).space.array r = .ok a →
      a.capacity < Word.max) :
    ∃ π : Equiv.Perm Ref, ((start limits').run ops').results =
      ((start limits).run ops).results.map (Except.map (Answer.rename π)) := by
  have hmix := interleaved_of_program hsame ht
  obtain ⟨all, hi⟩ := inStep_run hmix (inStep_start harrays) (healthy_start hsafe hfew hroom)
    (healthy_start hsafe' hfew' hroom')
  obtain ⟨π, hπ⟩ := hi.alike.exists_renames
  exact ⟨π, hi.results π hπ⟩

/-- Whether operations other than collections can be carried out one after another. Objects handed to
the space are not looked into. -/
def proceeds (e : Execution) : List Operation → Bool
  | [] => true
  | .alloc _ :: _ => false
  | op :: rest =>
    !op.isCollect && op.names.all (fun x => x.index < e.given.length) && !runsOut (e.result op) &&
      (e.step op).proceeds rest

theorem safe_of_proceeds (hp : e.proceeds ops = true) (hrest : (e.run ops).Safe ops') :
    e.Safe (ops ++ ops') := by
  fun_induction proceeds e ops with
  | case1 e => exact hrest
  | case2 e o rest => cases hp
  | case3 e op rest hop ih =>
    simp only [Bool.and_eq_true, Bool.not_eq_true', List.all_eq_true, decide_eq_true_eq] at hp
    obtain ⟨⟨⟨hcollect, hnames⟩, hroom⟩, hp⟩ := hp
    refine ⟨hnames, ?_, hroom, fun h => ?_, ih hp hrest⟩
    · cases op with
      | alloc o => exact absurd rfl (hop o)
      | _ => trivial
    · rw [hcollect] at h
      cases h

theorem safe_of_proceeds_all (hp : e.proceeds ops = true) : e.Safe ops := by
  have hsafe : e.Safe (ops ++ []) := safe_of_proceeds hp trivial
  rwa [List.append_nil] at hsafe

theorem freed_lt_of_length (limits : SpaceLimits) (hlength : ops.length < 2 ^ 32) (i : Nat) :
    ((start limits).run ops).track.freed i < 2 ^ 32 := by
  obtain ⟨acts, hacts, hrun⟩ := exists_track_run (start limits) ops
  rw [hrun]
  have hle : ((start limits).track.run acts).freed i ≤ 0 + acts.length :=
    Track.freed_run_le _ acts i
  omega

/-- A string that only an array holds is used after a collection. The first run collects before the
third string is made and gives it the slot of the second; the other run collects later. -/
theorem collections_transparent_reused_slot :
    let name : Nat → Ref := fun n => ⟨n, 0⟩
    let made : List Operation :=
      [.newString "a", .arrayOf [some (name 0)], .root (name 1), .newString "b"]
    let grown : List Operation := [.newString "c", .append (name 1) (name 3)]
    let asked : List Operation := [.query (.lastItem (name 1)), .query (.stringValue (name 0))]
    let ops := made ++ .collect .minor :: (grown ++ asked)
    let ops' := made ++ grown ++ .collect .major :: asked
    let limits : SpaceLimits := { heap := { nurseryThreshold := 0 } }
    (start {}).Safe ops ∧ (start limits).Safe ops' ∧
      ((start {}).run ops).given = [name 0, name 1, name 2, ⟨2, 1⟩, ⟨2, 1⟩] ∧
      ((start limits).run ops').given = [name 0, name 1, name 2, name 3, name 3] ∧
      ∃ π : Equiv.Perm Ref, ((start limits).run ops').results =
        ((start {}).run ops).results.map (Except.map (Answer.rename π)) := by
  intro name made grown asked ops ops' limits
  -- the array is a root and holds the first string
  have hreach : ∀ (e : Execution) (rest : List Operation), (name 1 ∈ e.space.roots.toList ∧
      e.space.heap.contains (name 1) = true ∧ name 0 ∈ e.space.heap.children (name 1) ∧
      e.space.heap.contains (name 0) = true) →
      (∀ later ∈ rest, ∀ x ∈ later.names, x.index < e.given.length →
        meaning e.given x = name 0 ∨ meaning e.given x = name 1) →
      ∀ later ∈ rest, ∀ x ∈ later.names, x.index < e.given.length →
        e.space.heap.Reaches e.space.roots.toList (meaning e.given x) := by
    rintro e rest ⟨hroot, hone, hheld, hzero⟩ hused later hlater x hx hlt
    rcases hused later hlater x hx hlt with h | h
    · rw [h]
      exact .held (.root hroot hone) hheld hzero
    · rw [h]
      exact .root hroot hone
  have hsafe : (start {}).Safe ops := by
    refine safe_of_proceeds (by decide +kernel)
      ⟨by decide, trivial, by decide +kernel, fun _ => ?_, ?_⟩
    · exact hreach _ _ (by decide +kernel) (by decide +kernel)
    · exact safe_of_proceeds_all (by decide +kernel)
  have hsafe' : (start limits).Safe ops' := by
    refine safe_of_proceeds (by decide +kernel)
      ⟨by decide, trivial, by decide +kernel, fun _ => ?_, ?_⟩
    · exact hreach _ _ (by decide +kernel) (by decide +kernel)
    · exact safe_of_proceeds_all (by decide +kernel)
  have ht : ∀ op ∈ program ops, op.Transparent := by
    simp [program, ops, made, grown, asked, Operation.isCollect, Operation.Transparent,
      Query.Transparent]
  refine ⟨hsafe, hsafe', by decide +kernel, by decide +kernel, ?_⟩
  exact collections_transparent {} limits rfl ops ops' rfl ht hsafe hsafe'
    (freed_lt_of_length {} (by decide)) (freed_lt_of_length limits (by decide))
    (Track.capacity_of_prefixes (fun ops => ((start {}).run ops).space) (by decide +kernel))
    (Track.capacity_of_prefixes (fun ops => ((start limits).run ops).space) (by decide +kernel))

/-- Whether a space is empty tells one run from the other: the object that nobody uses any more is
still there in the first. -/
theorem spaceEmpty_not_transparent :
    let ops : List Operation := [.newString "a", .query .spaceEmpty]
    let ops' : List Operation := [.newString "a", .collect .minor, .query .spaceEmpty]
    program ops = program ops' ∧ (start {}).Safe ops ∧ (start {}).Safe ops' ∧
      ∀ f : Ref → Ref, ((start {}).run ops').results ≠
        ((start {}).run ops).results.map (Except.map (Answer.rename f)) := by
  intro ops ops'
  have hsafe' : (start {}).Safe ([.newString "a"] ++ [.collect .minor, .query .spaceEmpty]) := by
    refine safe_of_proceeds (by decide +kernel)
      ⟨by decide, trivial, by decide +kernel, fun _ => ?_, ?_⟩
    · simp [Operation.names, Operation.refs, Query.refs, Operation.inner]
    · exact safe_of_proceeds_all (by decide +kernel)
  refine ⟨rfl, safe_of_proceeds_all (by decide +kernel), hsafe', fun f heq => ?_⟩
  have hfull : ((start {}).run ops).results = [.ok (.ref ⟨0, 0⟩), .ok (.truth false)] := rfl
  have hempty : ((start {}).run ops').results = [.ok (.ref ⟨0, 0⟩), .ok (.truth true)] := by
    with_unfolding_all rfl
  rw [hfull, hempty] at heq
  simp [Except.map, Answer.rename] at heq

end Execution

end Managed
