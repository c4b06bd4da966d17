import Managed.Proofs.Heap.Books

/-!
# Promotion

A collection ages the young objects that it leaves alive and promotes those whose age has come up to
the threshold. An object spends as many collections in each of the young generations as the threshold
says, but at least one (`HeapLimits.term`). So its generation and its age tell how many collections it
has survived, unless it was tenured (`promotion_on_schedule`).

All that counts for this is the stage of an object, its generation together with its age. Marks and the
remembered set have no part in it. `Passes` says once what an action can do to a stage.
-/

namespace Managed

/-- How far an object has come: its generation and its age there. -/
structure Stage where
  generation : Generation
  age : UInt32
deriving DecidableEq, Repr

/-- The generations in the order in which an object goes through them. -/
def Generation.rank : Generation → Nat
  | nursery => 0
  | survivor => 1
  | old => 2

/-- How many collections an object survives in each young generation. -/
def HeapLimits.term (limits : HeapLimits) : Nat :=
  max 1 limits.nurseryThreshold.toNat

theorem HeapLimits.term_pos (limits : HeapLimits) : 0 < limits.term :=
  Nat.lt_of_lt_of_le Nat.zero_lt_one (Nat.le_max_left _ _)

def Header.stage (k : Header) : Stage :=
  ⟨k.generation, k.age⟩

namespace Stage

/-! ## Stages -/

/-- The stage after one more collection. -/
def advance (threshold : UInt32) (g : Stage) : Stage :=
  match g.generation.next? with
  | none => g
  | some next => if threshold ≤ g.age + 1 then ⟨next, 0⟩ else ⟨g.generation, g.age + 1⟩

theorem stage_survive (threshold : UInt32) (k : Header) :
    (k.survive threshold).stage = k.stage.advance threshold := by
  unfold Header.survive advance
  cases hg : k.generation.next? with
  | none => simp [Header.stage, Header.unmark, hg]
  | some next =>
    by_cases hage : threshold ≤ k.age + 1 <;>
      simp [Header.stage, Header.unmark, Header.enter, hg, hage]

theorem advance_of_not_isYoung {threshold : UInt32} {g : Stage} (hg : g.generation.isYoung = false) :
    g.advance threshold = g := by
  have hnone : g.generation.next? = none := by simpa [Generation.isYoung] using hg
  rw [advance, hnone]

theorem rank_advance (threshold : UInt32) (g : Stage) :
    g.generation.rank ≤ (g.advance threshold).generation.rank := by
  unfold advance
  split
  · exact Nat.le_refl _
  · next next hnext =>
    split
    · cases hg : g.generation with
      | nursery =>
        rw [hg] at hnext
        cases hnext
        decide
      | survivor =>
        rw [hg] at hnext
        cases hnext
        decide
      | old =>
        rw [hg] at hnext
        cases hnext
    · exact Nat.le_refl _

/-- An age within the term of a young generation. -/
def Timely (t : Nat) (g : Stage) : Prop :=
  g.generation.isYoung = true → g.age.toNat < t

/-- The age of a young object can be counted up. -/
theorem toNat_age_succ {threshold age : UInt32} (h : age.toNat < max 1 threshold.toNat) :
    age.toNat + 1 < UInt32.size ∧ (age + 1).toNat = age.toNat + 1 := by
  have hthreshold := threshold.toNat_lt_size
  have hlt : age.toNat + 1 < UInt32.size := by
    have hsize : UInt32.size = 4294967296 := rfl
    omega
  refine ⟨hlt, ?_⟩
  rw [UInt32.toNat_add]
  exact Nat.mod_eq_of_lt hlt

/-- The collection that ends the term of a young object promotes it. -/
theorem advance_of_next {threshold : UInt32} {g : Stage} {next : Generation}
    (hnext : g.generation.next? = some next) (hage : g.age.toNat < max 1 threshold.toNat) :
    g.advance threshold =
      if g.age.toNat + 1 = max 1 threshold.toNat then ⟨next, 0⟩ else ⟨g.generation, g.age + 1⟩ := by
  have hend : threshold ≤ g.age + 1 ↔ g.age.toNat + 1 = max 1 threshold.toNat := by
    rw [UInt32.le_iff_toNat_le, (toNat_age_succ hage).2]
    omega
  simp only [advance, hnext, hend]

theorem Timely.advance {threshold : UInt32} {g : Stage} (h : g.Timely (max 1 threshold.toNat)) :
    (g.advance threshold).Timely (max 1 threshold.toNat) := by
  intro hyoung
  cases hg : g.generation.isYoung with
  | false =>
    rw [advance_of_not_isYoung hg] at hyoung ⊢
    exact h hyoung
  | true =>
    have hage := h hg
    obtain ⟨next, hnext⟩ := Option.isSome_iff_exists.mp hg
    rw [advance_of_next hnext hage]
    split
    · change 0 < max 1 threshold.toNat
      omega
    · rw [(toNat_age_succ hage).2]
      omega

/-- The stage that an object has reached after `k` collections, if it spends `t` of them in each young
generation. -/
structure Due (t k : Nat) (g : Stage) : Prop where
  generation : g.generation = if k < t then .nursery else if k < 2 * t then .survivor else .old
  age : g.age.toNat = if k < 2 * t then k % t else 0

/-- The age counts from the collection in which the object entered its generation. -/
theorem due_iff {t k : Nat} {g : Stage} :
    g.Due t k ↔
      g.generation = .nursery ∧ k < t ∧ g.age.toNat = k ∨
      g.generation = .survivor ∧ (t ≤ k ∧ k < 2 * t) ∧ g.age.toNat = k - t ∨
      g.generation = .old ∧ 2 * t ≤ k ∧ g.age.toNat = 0 := by
  have hsplit : g.Due t k ↔
      (g.generation = if k < t then .nursery else if k < 2 * t then .survivor else .old) ∧
        g.age.toNat = if k < 2 * t then k % t else 0 :=
    ⟨fun h => ⟨h.generation, h.age⟩, fun h => ⟨h.1, h.2⟩⟩
  rw [hsplit]
  by_cases hnursery : k < t
  · have hmod : k % t = k := Nat.mod_eq_of_lt hnursery
    grind
  · by_cases hsurvivor : k < 2 * t
    · have hmod : k % t = k - t := by
        rw [Nat.mod_eq_sub_mod (by omega), Nat.mod_eq_of_lt (by omega)]
      grind
    · grind

theorem Due.advance {threshold : UInt32} {k : Nat} {g : Stage}
    (h : g.Due (max 1 threshold.toNat) k) :
    (g.advance threshold).Due (max 1 threshold.toNat) (k + 1) := by
  rw [due_iff]
  rcases due_iff.mp h with ⟨hgen, hk, hage⟩ | ⟨hgen, hk, hage⟩ | ⟨hgen, hk, hage⟩
  · have hlt : g.age.toNat < max 1 threshold.toNat := by omega
    rw [advance_of_next (by rw [hgen]; rfl) hlt]
    split
    · refine Or.inr (Or.inl ⟨rfl, by omega, ?_⟩)
      rw [UInt32.toNat_zero]
      omega
    · exact Or.inl ⟨hgen, by omega, by rw [(toNat_age_succ hlt).2, hage]⟩
  · have hlt : g.age.toNat < max 1 threshold.toNat := by omega
    rw [advance_of_next (by rw [hgen]; rfl) hlt]
    split
    · exact Or.inr (Or.inr ⟨rfl, by omega, rfl⟩)
    · refine Or.inr (Or.inl ⟨hgen, by omega, ?_⟩)
      rw [(toNat_age_succ hlt).2]
      omega
  · rw [advance_of_not_isYoung (by rw [hgen]; rfl)]
    exact Or.inr (Or.inr ⟨hgen, by omega, hage⟩)

end Stage

/-! ## Stages in a heap -/

namespace Heap

variable {α : Type}

def stage? (h : Heap α) (r : Ref) : Option Stage :=
  (h.resolve? r).map (·.header.stage)

theorem stage?_eq_some {h : Heap α} {r : Ref} {g : Stage} :
    h.stage? r = some g ↔ ∃ e, h.resolve? r = some e ∧ e.header.stage = g := by
  rw [stage?, Option.map_eq_some_iff]

theorem contains_iff_stage? {h : Heap α} {r : Ref} :
    h.contains r = true ↔ ∃ g, h.stage? r = some g := by
  rw [contains, ← Option.isSome_iff_exists, stage?, Option.isSome_map]

theorem generation_eq_ok {h : Heap α} {r : Ref} {generation : Generation} :
    h.generation r = .ok generation ↔ ∃ g, h.stage? r = some g ∧ g.generation = generation := by
  unfold Heap.generation stage?
  cases h.resolve? r with
  | none => simp
  | some e => simp [Header.stage]

/-- A change of one entry that keeps the stage. -/
theorem stage?_modifyEntry (h : Heap α) (r : Ref) {f : Entry α → Entry α}
    (hf : ∀ e, (f e).header.stage = e.header.stage) (x : Ref) :
    (h.modifyEntry r f).stage? x = h.stage? x := by
  rw [stage?, resolve?_modifyEntry]
  split
  · next hx =>
    subst hx
    rw [Option.map_map]
    exact congrArg (Option.map · (h.resolve? x)) (funext hf)
  · rfl

theorem stage?_modifyHeader (h : Heap α) (r : Ref) {f : Header → Header}
    (hf : ∀ k, (f k).stage = k.stage) (x : Ref) : (h.modifyHeader r f).stage? x = h.stage? x :=
  stage?_modifyEntry h r (fun e => hf e.header) x

theorem stage?_setValue (h : Heap α) (r : Ref) (v : α) (x : Ref) :
    (h.modifyEntry r fun e => { e with value := v }).stage? x = h.stage? x :=
  stage?_modifyEntry h r (f := fun e => { e with value := v }) (fun _ => rfl) x

theorem stage?_remember (h : Heap α) (owner x : Ref) :
    (h.remember owner).stage? x = h.stage? x := by
  unfold remember
  split
  · exact stage?_modifyHeader h owner (f := Header.remember) (fun _ => rfl) x
  · rfl

theorem stage?_writeBarrier (h : Heap α) (owner value x : Ref) :
    (h.writeBarrier owner value).stage? x = h.stage? x := by
  unfold writeBarrier
  split
  · exact stage?_remember h owner x
  · rfl

/-- A list of changes that keep the stage. -/
theorem stage?_foldl {β : Type} {f : Heap α → β → Heap α} {x : Ref}
    (hf : ∀ h b, (f h b).stage? x = h.stage? x) (h : Heap α) (bs : List β) :
    (bs.foldl f h).stage? x = h.stage? x := by
  induction bs generalizing h with
  | nil => rfl
  | cons b rest ih => exact (ih (f h b)).trans (hf h b)

theorem stage?_forgetAll (h : Heap α) (x : Ref) : h.forgetAll.stage? x = h.stage? x := by
  unfold forgetAll
  rw [← Array.foldl_toList]
  exact stage?_foldl (f := fun h owner => h.modifyHeader owner Header.forget)
    (fun h owner => stage?_modifyHeader h owner (f := Header.forget) (fun _ => rfl) x) _ _

theorem stage?_tenured (h : Heap α) (r x : Ref) :
    (h.tenured r).stage? x =
      if x = r then (h.stage? r).map (fun _ => ⟨.old, 0⟩) else h.stage? x := by
  rw [stage?, resolve?_tenured]
  split
  · rw [stage?, Option.map_map, Option.map_map]
    rfl
  · rfl

/-- A sweep that leaves an object alive makes it one collection older. -/
theorem stage_of_swept {kind : CollectionKind} {threshold : UInt32} {e e' : Entry α}
    (h : e.swept kind threshold = some e') : e'.header.stage = e.header.stage.advance threshold := by
  unfold Entry.swept at h
  split at h
  · split at h
    · cases h
      exact Stage.stage_survive threshold e.header
    · cases h
  · next hcovers =>
    cases h
    -- a minor collection passes over an old object, for which no stage is left to reach
    cases kind with
    | major => exact absurd rfl hcovers
    | minor =>
      have hold : e.header.stage.generation.isYoung = false := (Bool.not_eq_true _).mp hcovers
      exact (Stage.advance_of_not_isYoung hold).symm

theorem stage?_of_sweep {kind : CollectionKind} {h : Heap α} {x : Ref} {g' : Stage}
    (hx : (h.sweep kind).stage? x = some g') :
    ∃ g, h.stage? x = some g ∧ g' = g.advance h.limits.nurseryThreshold := by
  obtain ⟨e', he', rfl⟩ := stage?_eq_some.mp hx
  rw [resolve?_sweep] at he'
  obtain ⟨e, he, hswept⟩ := Option.bind_eq_some_iff.mp he'
  exact ⟨e.header.stage, stage?_eq_some.mpr ⟨e, he, rfl⟩, stage_of_swept hswept⟩

section

variable [Traced α]

theorem stage?_rememberHolder (h : Heap α) (owner x : Ref) :
    (h.rememberHolder owner).stage? x = h.stage? x := by
  rw [rememberHolder_eq]
  split
  · exact stage?_remember h owner x
  · rfl

theorem stage?_walked (kind : CollectionKind) (h : Heap α) (roots : RootSet) (x : Ref) :
    (h.walked kind roots).stage? x = h.stage? x := by
  rw [← stage?_forgetAll h, walked, stage?, (marking_markFrom kind _ _).stamped x, Option.map_map]
  rfl

theorem stage?_of_collect {h : Heap α} (ht : h.Tidy) {kind : CollectionKind} {roots : RootSet}
    {x : Ref} {g' : Stage} (hx : (h.collect kind roots).stage? x = some g') :
    ∃ g, h.stage? x = some g ∧ g' = g.advance h.limits.nurseryThreshold := by
  obtain ⟨report, heq⟩ := collect_eq kind h roots
  have hsweep : ((h.walked kind roots).sweep kind).stage? x = some g' := by
    rw [heq] at hx
    exact (stage?_foldl (fun h owner => stage?_rememberHolder h owner x) _ _).symm.trans hx
  obtain ⟨g, hg, hadvance⟩ := stage?_of_sweep hsweep
  rw [stage?_walked] at hg
  rw [(sameObjects_walked ht kind roots).limits] at hadvance
  exact ⟨g, hg, hadvance⟩

/-- A minor collection leaves old objects alone. -/
theorem contains_minorCollect_of_old {h : Heap α} (ht : h.Tidy) (roots : RootSet) {r : Ref}
    (hr : h.needsBarrier r = true) : (h.collect .minor roots).contains r = true := by
  obtain ⟨e, he, hold⟩ := needsBarrier_iff.mp hr
  have hyoung : h.covered .minor r = false := by
    rw [covered, he, Option.any_some, hold]
    rfl
  rw [contains_collect ht, contains_iff.mpr ⟨e, he⟩, Bool.true_and, spares_iff ht, hyoung]
  intro hcovered
  cases hcovered

end

end Heap

/-! ## Actions -/

/-- What an action can do to an object: it makes the object, ages it, tenures it or leaves its stage
alone. -/
inductive Passes {α : Type} (threshold : UInt32) (a : Action α) (r : Ref) :
    Option Stage → Stage → Prop where
  | made (v : α) : a = .alloc v → Passes threshold a r none ⟨.nursery, 0⟩
  | aged (kind : CollectionKind) (g : Stage) :
    a = .collect kind → Passes threshold a r (some g) (g.advance threshold)
  | tenured (g : Stage) : a = .tenure r → Passes threshold a r (some g) ⟨.old, 0⟩
  | kept (g : Stage) : (∀ kind, a ≠ .collect kind) → Passes threshold a r (some g) g

namespace Session

variable {α : Type} [Traced α] {s : Session α}

theorem passes_act (ht : s.heap.Tidy) {a : Action α} {r : Ref} {g : Stage}
    (hg : (s.act a).heap.stage? r = some g) :
    Passes s.heap.limits.nurseryThreshold a r (s.heap.stage? r) g := by
  have hsame : (∀ kind, a ≠ .collect kind) → s.heap.stage? r = some g →
      Passes s.heap.limits.nurseryThreshold a r (s.heap.stage? r) g := by
    intro hquiet h
    rw [h]
    exact .kept g hquiet
  cases a with
  | alloc v =>
    rcases act_alloc_cases ht v with heq | ⟨new, h', hal, heq⟩
    · rw [heq] at hg
      exact hsame (by simp) hg
    · rw [heq] at hg
      simp only [Heap.stage?, hal.resolve] at hg
      split at hg
      · next hr =>
        cases hg
        have hnone : s.heap.stage? r = none := by rw [Heap.stage?, hr, hal.stale]; rfl
        rw [hnone]
        exact .made v rfl
      · exact hsame (by simp) hg
  | store owner v stored =>
    refine hsame (by simp) (Eq.trans ?_ hg)
    simp only [act, Action.onHeap]
    split
    · next h' hset =>
      obtain ⟨_, rfl⟩ := Heap.set_eq_ok hset
      rw [Heap.stage?_foldl fun h x => Heap.stage?_writeBarrier h owner x r]
      exact (Heap.stage?_setValue s.heap owner v r).symm
    · rfl
  | barrier owner v =>
    exact hsame (by simp) ((Heap.stage?_writeBarrier s.heap owner v r).symm.trans hg)
  | tenure x =>
    simp only [act, Action.onHeap] at hg
    split at hg
    · next h' hten =>
      rcases Heap.tenure_cases hten with rfl | rfl
      · exact hsame (by simp) hg
      · rw [Heap.stage?_rememberHolder, Heap.stage?_tenured] at hg
        split at hg
        · next hx =>
          subst hx
          obtain ⟨g₀, hg₀, rfl⟩ := Option.map_eq_some_iff.mp hg
          rw [hg₀]
          exact .tenured g₀ rfl
        · exact hsame (by simp) hg
    · exact hsame (by simp) hg
  | collect kind =>
    obtain ⟨g₀, hg₀, rfl⟩ := Heap.stage?_of_collect ht hg
    rw [hg₀]
    exact .aged kind g₀ rfl
  | pushStack _ => exact hsame (by simp) hg
  | clearStack => exact hsame (by simp) hg
  | addGlobal _ => exact hsame (by simp) hg
  | removeGlobal _ => exact hsame (by simp) hg

end Session

def Action.isCollection {α : Type} : Action α → Bool
  | collect _ => true
  | _ => false

namespace Session

variable {α : Type} [Traced α]

/-! ## Runs -/

/-- Whether `r` names a live object from the beginning of a run to its end. This is one object: a
handle stops resolving with the action that frees its object. -/
def Outlives (s : Session α) (r : Ref) : List (Action α) → Prop
  | [] => s.heap.contains r = true
  | a :: rest => s.heap.contains r = true ∧ (s.act a).Outlives r rest

instance decidableOutlives (s : Session α) (r : Ref) : ∀ actions, Decidable (s.Outlives r actions)
  | [] => inferInstanceAs (Decidable (_ = true))
  | a :: rest =>
    have := decidableOutlives (s.act a) r rest
    inferInstanceAs (Decidable (_ ∧ _))

variable {s : Session α}

theorem Outlives.contains {r : Ref} {actions : List (Action α)} (h : s.Outlives r actions) :
    s.heap.contains r = true := by
  cases actions with
  | nil => exact h
  | cons a rest => exact h.1

theorem limits_act (hk : s.Kept) (a : Action α) : (s.act a).heap.limits = s.heap.limits :=
  (Heap.booked_onHeap hk.orderly s.roots a).limits

/-- All young objects are within their term. -/
def Punctual (s : Session α) : Prop :=
  ∀ r g, s.heap.stage? r = some g → g.Timely s.heap.limits.term

theorem punctual_act (hk : s.Kept) (hp : s.Punctual) (a : Action α) : (s.act a).Punctual := by
  intro r g hg
  have hpass := passes_act hk.orderly.tidy hg
  rw [limits_act hk]
  generalize hbefore : s.heap.stage? r = before at hpass
  cases hpass with
  | made v _ => exact fun _ => s.heap.limits.term_pos
  | aged kind g _ => exact (hp r g hbefore).advance
  | tenured g _ =>
    intro hyoung
    cases hyoung
  | kept g _ => exact hp r g hbefore

theorem punctual_run (hk : s.Kept) (hp : s.Punctual) (actions : List (Action α)) :
    (s.run actions).Punctual := by
  induction actions generalizing s with
  | nil => exact hp
  | cons a rest ih => exact ih (kept_act hk a) (punctual_act hk hp a)

/-- What an action does to the stage of an object that outlives it. -/
theorem exists_passes (hk : s.Kept) {r : Ref} {a : Action α} {g : Stage}
    (hg : s.heap.stage? r = some g) (hlive : (s.act a).heap.contains r = true) :
    ∃ g', (s.act a).heap.stage? r = some g' ∧
      Passes s.heap.limits.nurseryThreshold a r (some g) g' := by
  obtain ⟨g', hg'⟩ := Heap.contains_iff_stage?.mp hlive
  have hpass := passes_act hk.orderly.tidy hg'
  rw [hg] at hpass
  exact ⟨g', hg', hpass⟩

theorem due_run (hk : s.Kept) {limits : HeapLimits} (hlimits : s.heap.limits = limits) {r : Ref}
    {actions : List (Action α)} (hlives : s.Outlives r actions) (htenure : .tenure r ∉ actions)
    {g : Stage} (hg : s.heap.stage? r = some g) {k : Nat} (hdue : g.Due limits.term k) :
    ∃ g', (s.run actions).heap.stage? r = some g' ∧
      g'.Due limits.term (k + actions.countP Action.isCollection) := by
  induction actions generalizing s g k with
  | nil => exact ⟨g, hg, hdue⟩
  | cons a rest ih =>
    rw [List.mem_cons, not_or] at htenure
    obtain ⟨g₁, hg₁, hpass⟩ := exists_passes hk hg hlives.2.contains
    have hlimits' : (s.act a).heap.limits = limits := (limits_act hk a).trans hlimits
    rw [hlimits] at hpass
    cases hpass with
    | aged kind _ ha =>
      subst ha
      obtain ⟨g', hg', hdue'⟩ := ih (kept_act hk _) hlimits' hlives.2 htenure.2 hg₁ hdue.advance
      rw [List.countP_cons_of_pos rfl]
      exact ⟨g', hg', by rwa [Nat.add_assoc, Nat.add_comm 1] at hdue'⟩
    | tenured _ ha => exact absurd ha.symm htenure.1
    | kept _ hquiet =>
      have hcount : Action.isCollection a = false := by
        cases a with
        | collect kind => exact absurd rfl (hquiet kind)
        | _ => rfl
      rw [List.countP_cons_of_neg (by rw [hcount]; exact Bool.false_ne_true)]
      exact ih (kept_act hk a) hlimits' hlives.2 htenure.2 hg₁ hdue

theorem rank_run (hk : s.Kept) {r : Ref} {actions : List (Action α)} (hlives : s.Outlives r actions)
    {g : Stage} (hg : s.heap.stage? r = some g) :
    ∃ g', (s.run actions).heap.stage? r = some g' ∧ g.generation.rank ≤ g'.generation.rank := by
  induction actions generalizing s g with
  | nil => exact ⟨g, hg, Nat.le_refl _⟩
  | cons a rest ih =>
    obtain ⟨g₁, hg₁, hpass⟩ := exists_passes hk hg hlives.2.contains
    obtain ⟨g', hg', hle⟩ := ih (kept_act hk a) hlives.2 hg₁
    refine ⟨g', hg', Nat.le_trans ?_ hle⟩
    cases hpass with
    | aged kind _ _ => exact Stage.rank_advance _ g
    | tenured _ _ => cases g.generation <;> decide
    | kept _ _ => exact Nat.le_refl _

theorem old_act (hk : s.Kept) {r : Ref} (hold : s.heap.needsBarrier r = true) {a : Action α}
    (ha : a ≠ .collect .major) : (s.act a).heap.needsBarrier r = true := by
  have ht := hk.orderly.tidy
  obtain ⟨g, hg, hgen⟩ := Heap.generation_eq_ok.mp (Heap.generation_eq_old.mpr hold)
  have hlive : (s.act a).heap.contains r = true := by
    by_cases hcollect : ∃ kind, a = .collect kind
    · obtain ⟨kind, rfl⟩ := hcollect
      cases kind with
      | major => exact absurd rfl ha
      | minor => exact Heap.contains_minorCollect_of_old ht s.roots hold
    · exact contains_act ht (fun kind h => hcollect ⟨kind, h⟩) (Heap.contains_iff_stage?.mpr ⟨g, hg⟩)
  obtain ⟨g', hg', hpass⟩ := exists_passes hk hg hlive
  refine Heap.generation_eq_old.mp (Heap.generation_eq_ok.mpr ⟨g', hg', ?_⟩)
  cases hpass with
  | aged kind _ _ => rw [Stage.advance_of_not_isYoung (by rw [hgen]; rfl), hgen]
  | tenured _ _ => rfl
  | kept _ _ => exact hgen

theorem old_run (hk : s.Kept) {r : Ref} (hold : s.heap.needsBarrier r = true)
    {actions : List (Action α)} (hmajor : .collect .major ∉ actions) :
    (s.run actions).heap.needsBarrier r = true := by
  induction actions generalizing s with
  | nil => exact hold
  | cons a rest ih =>
    rw [List.mem_cons, not_or] at hmajor
    exact ih (kept_act hk a) (old_act hk hold (Ne.symm hmajor.1)) hmajor.2

omit [Traced α] in
theorem punctual_start (limits : HeapLimits) : (start limits : Session α).Punctual := by
  intro r g hg
  cases hg

/-- Objects are promoted on schedule, whatever a run does and whatever the threshold is. One that was
never tenured tells by its generation and its age how many collections it has survived, of either kind.
Ages can always be counted up. No object gets back to a generation it has left, and only a major
collection frees an old one. -/
theorem promotion_on_schedule (limits : HeapLimits) (before : List (Action α)) :
    let s := (Session.start limits).run before
    let t := max 1 limits.nurseryThreshold.toNat
    (∀ v r h' after, s.heap.alloc v = .ok (r, h') → (s.act (.alloc v)).Outlives r after →
      .tenure r ∉ after →
      let k := after.countP Action.isCollection
      ∃ e, ((s.act (.alloc v)).run after).heap.resolve? r = some e ∧
        e.header.generation = (if k < t then .nursery else if k < 2 * t then .survivor else .old) ∧
        e.header.age.toNat = if k < 2 * t then k % t else 0) ∧
    (∀ kind roots r e, (s.heap.walked kind roots).resolve? r = some e →
      e.header.generation.isYoung = true → e.header.age.toNat + 1 < UInt32.size) ∧
    (∀ r after g g', s.Outlives r after → s.heap.generation r = .ok g →
      (s.run after).heap.generation r = .ok g' → g.rank ≤ g'.rank) ∧
    ∀ r after, s.heap.generation r = .ok .old → .collect .major ∉ after →
      (s.run after).heap.generation r = .ok .old := by
  intro s t
  have hk : s.Kept := kept_run (kept_start limits) before
  have hlimits : s.heap.limits = limits := limits_run (kept_start limits) before
  refine ⟨fun v r h' after halloc hlives htenure => ?_, fun kind roots r e he hyoung => ?_,
    fun r after g g' hlives hg hg' => ?_, fun r after hold hmajor => ?_⟩
  · have hnew : (s.act (.alloc v)).heap.stage? r = some ⟨.nursery, 0⟩ := by
      have hheap : (s.act (.alloc v)).heap = h' := by simp only [act, Action.onHeap, halloc]
      have hal := Heap.alloc_cases halloc hk.orderly.tidy.free_vacant
      rw [hheap, Heap.stage?, hal.resolve, if_pos rfl]
      rfl
    have hzero : Stage.Due limits.term 0 ⟨.nursery, 0⟩ :=
      Stage.due_iff.mpr (Or.inl ⟨rfl, limits.term_pos, rfl⟩)
    obtain ⟨g, hg, hdue⟩ :=
      due_run (kept_act hk _) ((limits_act hk _).trans hlimits) hlives htenure hnew hzero
    obtain ⟨e, he, rfl⟩ := Heap.stage?_eq_some.mp hg
    rw [Nat.zero_add] at hdue
    exact ⟨e, he, hdue.generation, hdue.age⟩
  · have hstage : s.heap.stage? r = some e.header.stage := by
      rw [← Heap.stage?_walked kind]
      exact Heap.stage?_eq_some.mpr ⟨e, he, rfl⟩
    have htimely := punctual_run (kept_start limits) (punctual_start limits) before r _ hstage hyoung
    exact (Stage.toNat_age_succ htimely).1
  · obtain ⟨f, hf, rfl⟩ := Heap.generation_eq_ok.mp hg
    obtain ⟨f', hf', rfl⟩ := Heap.generation_eq_ok.mp hg'
    obtain ⟨f'', hf'', hle⟩ := rank_run hk hlives hf
    rw [hf'] at hf''
    cases hf''
    exact hle
  · rw [Heap.generation_eq_old] at hold ⊢
    exact old_run hk hold hmajor

/-- With the usual threshold of two, an object that is kept on the stack is a survivor of age one after
three collections and old after four. From then on minor collections do not free it, even without a
root. -/
theorem promotion_on_schedule_mixed :
    let r : Ref := ⟨0, 0⟩
    let s : Session Supplier := (Session.start {}).act (.alloc {})
    let three : List (Action Supplier) :=
      [.pushStack r, .collect .minor, .alloc {}, .tenure ⟨1, 0⟩, .collect .major, .collect .minor]
    let four := three ++ [.collect .minor]
    (s.Outlives r three ∧ .tenure r ∉ three ∧ ∃ e, (s.run three).heap.resolve? r = some e ∧
      e.header.generation = .survivor ∧ e.header.age.toNat = 1) ∧
    (s.Outlives r four ∧ .tenure r ∉ four ∧ ∃ e, (s.run four).heap.resolve? r = some e ∧
      e.header.generation = .old ∧ e.header.age.toNat = 0) ∧
    ((s.run four).run [.clearStack, .collect .minor]).heap.generation r = .ok .old := by
  intro r s three four
  have hthree : s.Outlives r three := by decide +kernel
  have hfour : s.Outlives r four := by decide +kernel
  obtain ⟨hdue, _⟩ := promotion_on_schedule (α := Supplier) {} []
  obtain ⟨_, _, _, hold⟩ := promotion_on_schedule {} ([.alloc {}] ++ four)
  have hnot : .tenure r ∉ four := by simp [four, three, r]
  have hnot' : .tenure r ∉ three := by simp [three, r]
  obtain ⟨e, he, hgen, hage⟩ := hdue {} r _ three rfl hthree hnot'
  obtain ⟨e', he', hgen', hage'⟩ := hdue {} r _ four rfl hfour hnot
  have hnow : (s.run four).heap.generation r = .ok .old := by decide +kernel
  rw [run_append] at hold
  have hlater := hold r [.clearStack, .collect .minor] hnow (by simp)
  refine ⟨⟨hthree, hnot', e, he, ?_, ?_⟩, ⟨hfour, hnot, e', he', ?_, ?_⟩, hlater⟩
  · exact hgen.trans (by decide)
  · exact hage.trans (by decide)
  · exact hgen'.trans (by decide)
  · exact hage'.trans (by decide)

end Session

end Managed
