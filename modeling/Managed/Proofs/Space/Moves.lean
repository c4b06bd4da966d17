import Managed.Proofs.SlotArray.Bulk
import Managed.Proofs.Space.Operation

/-!
# Operations as actions on the heap

Whatever an operation of a space does, collections apart, amounts to lawful actions on the heap
(`Moves`): it uses no handles but those in a given list, and it stores none in an object without the
barrier. `Obeys` says so of a computation, also if it fails, and tells what holds of its answer. It
goes through sequencing (`Obeys.bind`), so that operations which make several objects are taken step by
step. A store and the barriers that follow it are taken as one action (`moves_store`).
-/

namespace Managed

namespace Object

/-- An array has to be consistent and must not have more than `bound` slots. -/
def Fits (bound : Nat) : Object → Prop
  | array a => a.Fits bound
  | string _ | relation _ | supplier _ => True

/-- The storage of an array does not take up all words. -/
def Roomy : Object → Prop
  | array a => a.capacity < Word.max
  | string _ | relation _ | supplier _ => True

end Object

/-- An action that leaves the roots alone, does not collect and makes no array of more than `bound`
slots. -/
def Action.Quiet (bound : Nat) : Action Object → Prop
  | .alloc o | .store _ o _ => o.Roomy → o.Fits bound
  | .barrier _ _ | .tenure _ => True
  | .pushStack _ | .clearStack | .addGlobal _ | .removeGlobal _ | .collect _ => False

theorem Action.Quiet.ne_collect {bound : Nat} {a : Action Object} (ha : a.Quiet bound)
    (kind : CollectionKind) : a ≠ .collect kind := by
  rintro rfl
  exact ha

namespace Space

/-- The heap and the roots of a space as a session. -/
def session (s : Space) (issued : List Ref) (freed : Nat → Nat) : Session Object :=
  { heap := s.heap, roots := s.roots, issued, freed }

def perform (s : Space) (a : Action Object) : Space :=
  { s with heap := a.onHeap s.heap s.roots, roots := a.onRoots s.roots }

/-- The most slots that an array of the space may have. The space itself makes none with more slots
than its limits allow; those that are brought into it may have up to `brought`. -/
def bound (s : Space) (brought : Nat) : Nat :=
  max s.limits.maxElements brought

theorem bound_zero (s : Space) : s.bound 0 = s.limits.maxElements :=
  Nat.max_eq_left (Nat.zero_le _)

/-- From `s` with the handles `known`, lawful actions lead to `s'` with the handles `known'`. -/
def Moves (brought : Nat) (known : List Ref) (s : Space) (known' : List Ref) (s' : Space) : Prop :=
  s'.limits = s.limits ∧ ∃ actions : List (Action Object),
    (∀ a ∈ actions, a.Quiet (s.bound brought)) ∧ ∀ freed, (s.session known freed).Lawful actions ∧
      ∃ freed', (s.session known freed).run actions = s'.session known' freed'

variable {brought : Nat} {known known' known'' : List Ref} {s s' s'' : Space}

theorem maxElements_le_bound (s : Space) (brought : Nat) : s.limits.maxElements ≤ s.bound brought :=
  Nat.le_max_left _ _

theorem Moves.refl (brought : Nat) (known : List Ref) (s : Space) : Moves brought known s known s :=
  ⟨rfl, [], by simp, fun freed => ⟨trivial, freed, rfl⟩⟩

theorem Moves.trans (h : Moves brought known s known' s') (h' : Moves brought known' s' known'' s'') :
    Moves brought known s known'' s'' := by
  obtain ⟨hl, before, hq, hb⟩ := h
  obtain ⟨hl', after, hq', ha⟩ := h'
  refine ⟨hl'.trans hl, before ++ after, fun a hmem => ?_, fun freed => ?_⟩
  · rcases List.mem_append.mp hmem with hmem | hmem
    · exact hq a hmem
    · rw [bound, ← hl]
      exact hq' a hmem
  · obtain ⟨hlaw, freed', hrun⟩ := hb freed
    obtain ⟨hlaw', freed'', hrun'⟩ := ha freed'
    refine ⟨Session.lawful_append.mpr ⟨hlaw, by rwa [hrun]⟩, freed'', ?_⟩
    rw [Session.run_append, hrun, hrun']

theorem moves_perform {a : Action Object} (hq : a.Quiet (s.bound brought))
    (hrefs : ∀ x ∈ a.refs, x ∈ known) (hd : a.Disciplined s.heap) :
    Moves brought known s (known ++ a.gives s.heap) (s.perform a) :=
  ⟨rfl, [a], by simpa using hq, fun _ => ⟨⟨hrefs, hd, trivial⟩, _, rfl⟩⟩

/-! ## What moves keep -/

/-- The state of a space in which the handles `known` may be used: all that objects hold is among
them. -/
structure Grounded (known : List Ref) (s : Space) : Prop where
  tidy : s.heap.Tidy
  closed : ∀ r, ∀ x ∈ s.heap.children r, x ∈ known

theorem Moves.grounded (h : Moves brought known s known' s') (hg : Grounded known s) :
    Grounded known' s' := by
  obtain ⟨_, actions, _, hrun⟩ := h
  obtain ⟨hlaw, freed', heq⟩ := hrun fun _ => 0
  have ht := Session.tidy_run (s := s.session known fun _ => 0) hg.tidy actions
  have hc := Session.closed_run (s := s.session known fun _ => 0) hg.tidy hg.closed hlaw
  rw [heq] at ht hc
  exact ⟨ht, hc⟩

theorem Moves.subset (h : Moves brought known s known' s') : ∀ x ∈ known, x ∈ known' := by
  obtain ⟨_, actions, _, hrun⟩ := h
  obtain ⟨_, freed', heq⟩ := hrun fun _ => 0
  intro x hx
  have hmem := Session.mem_issued_of_mem (s.session known fun _ => 0) actions hx
  rwa [heq] at hmem

/-- Moves free nothing, and what they make known is live. -/
theorem Moves.live (h : Moves brought known s known' s') (hg : Grounded known s) :
    (∀ x, s.heap.contains x = true → s'.heap.contains x = true) ∧
      ∀ x ∈ known', x ∈ known ∨ s'.heap.contains x = true := by
  obtain ⟨_, actions, hq, hrun⟩ := h
  obtain ⟨_, freed', heq⟩ := hrun fun _ => 0
  have hq' : ∀ a ∈ actions, ∀ kind, a ≠ .collect kind := fun a ha => (hq a ha).ne_collect
  refine ⟨fun x hx => ?_, fun x hx => ?_⟩
  · have hlive := Session.contains_run (s := s.session known fun _ => 0) hg.tidy hq' hx
    rwa [heq] at hlive
  · have hissued : x ∈ ((s.session known fun _ => 0).run actions).issued := by rwa [heq]
    have hlive := Session.mem_issued_run hg.tidy hq' hissued
    rwa [heq] at hlive

/-- What has been given out is still in order after lawful moves. -/
theorem Moves.consistent (h : Moves brought known s known' s') {freed : Nat → Nat}
    (hs : (s.session known freed).Consistent) (hf : ∀ i, freed i < 2 ^ 32) :
    (s'.session known' freed).Consistent := by
  obtain ⟨_, actions, hq, hrun⟩ := h
  obtain ⟨hlaw, freed', heq⟩ := hrun freed
  have hfreed : ((s.session known freed).run actions).freed = freed :=
    Session.freed_run hs.tidy fun a ha => (hq a ha).ne_collect
  have hconsistent := Session.consistent_run hs hlaw (by rwa [hfreed])
  rw [heq] at hfreed hconsistent
  cases hfreed
  exact hconsistent

theorem Moves.sound (h : Moves brought known s known' s') {freed : Nat → Nat}
    (hs : (s.session known freed).Sound) (hf : ∀ i, freed i < 2 ^ 32) :
    (s'.session known' freed).Sound := by
  obtain ⟨_, actions, hq, hrun⟩ := h
  obtain ⟨hlaw, freed', heq⟩ := hrun freed
  have hfreed : ((s.session known freed).run actions).freed = freed :=
    Session.freed_run hs.tidy fun a ha => (hq a ha).ne_collect
  have hsound := Session.sound_run hs hlaw (by rwa [hfreed])
  rw [heq] at hfreed hsound
  cases hfreed
  exact hsound

/-! ## Computations -/

/-- A computation from `s` moves lawfully, whether it succeeds or fails, and if it succeeds its answer
satisfies `post`. -/
def Obeys {β : Type} (brought : Nat) (known : List Ref) (s : Space) (m : SpaceM β)
    (post : List Ref → Space → β → Prop) : Prop :=
  ∃ known', Moves brought known s known' (left (m s)) ∧ ∀ b s', m s = .ok b s' → post known' s' b

section

variable {β γ : Type} {m : SpaceM β} {post : List Ref → Space → β → Prop}

theorem Obeys.moves (h : Obeys brought known s m post) :
    ∃ known', Moves brought known s known' (left (m s)) := by
  obtain ⟨known', hmoves, _⟩ := h
  exact ⟨known', hmoves⟩

theorem obeys_pure {b : β} (h : post known s b) : Obeys brought known s (pure b) post := by
  refine ⟨known, Moves.refl brought known s, fun c s' heq => ?_⟩
  cases heq
  exact h

theorem Obeys.bind {k : β → SpaceM γ} {post' : List Ref → Space → γ → Prop}
    (h : Obeys brought known s m post)
    (hk : ∀ b known' s', m s = .ok b s' → Moves brought known s known' s' → post known' s' b →
      Obeys brought known' s' (k b) post') : Obeys brought known s (m >>= k) post' := by
  obtain ⟨known', hmoves, hpost⟩ := h
  simp only [Obeys, Bind.bind, EStateM.bind]
  cases hm : m s with
  | error e s' =>
    rw [hm] at hmoves
    exact ⟨known', hmoves, fun _ _ h => by cases h⟩
  | ok b s' =>
    rw [hm] at hmoves
    obtain ⟨known'', hmoves', hpost'⟩ := hk b known' s' hm hmoves (hpost b s' hm)
    exact ⟨known'', hmoves.trans hmoves', hpost'⟩

theorem Obeys.map {g : β → γ} {post' : List Ref → Space → γ → Prop} (h : Obeys brought known s m post)
    (hg : ∀ known' s' b, post known' s' b → post' known' s' (g b)) :
    Obeys brought known s (g <$> m) post' := by
  rw [map_eq_pure_bind]
  exact h.bind fun b known' s' _ _ hb => obeys_pure (hg known' s' b hb)

/-- A query changes nothing. -/
theorem left_ask (query : Space → Except Fault β) (s : Space) : left (ask query s) = s := by
  unfold ask
  cases query s <;> rfl

theorem ask_eq_ok {query : Space → Except Fault β} {b : β} (h : ask query s = .ok b s') :
    query s = .ok b ∧ s' = s := by
  unfold ask at h
  split at h
  · next hb =>
    cases h
    exact ⟨hb, rfl⟩
  · cases h

theorem obeys_ask {query : Space → Except Fault β} {k : β → SpaceM γ}
    {post : List Ref → Space → γ → Prop}
    (hk : ∀ b, query s = .ok b → Obeys brought known s (k b) post) :
    Obeys brought known s (ask query >>= k) post := by
  have hask : Obeys brought known s (ask query) fun known' s' b =>
      known' = known ∧ s' = s ∧ query s = .ok b := by
    refine ⟨known, ?_, fun b s' heq => ?_⟩
    · rw [left_ask]
      exact Moves.refl brought known s
    · obtain ⟨hb, rfl⟩ := ask_eq_ok heq
      exact ⟨rfl, rfl, hb⟩
  refine hask.bind fun b known' s' _ _ hpost => ?_
  obtain ⟨rfl, rfl, hb⟩ := hpost
  exact hk b hb

end

/-! ## New objects -/

theorem obeys_alloc {o : Object} (hrefs : ∀ x ∈ Traced.refs o, x ∈ known)
    (hfits : o.Roomy → o.Fits (s.bound brought)) :
    Obeys brought known s (alloc o) fun known' _ r => r ∈ known' := by
  refine ⟨known ++ Action.gives s.heap (.alloc o), ?_, fun r s' heq => ?_⟩
  · have hmoves := moves_perform (a := .alloc o) hfits hrefs trivial
    have hleft : left (alloc o s) = s.perform (.alloc o) := by
      simp only [alloc, perform, Action.onHeap, Action.onRoots]
      cases s.heap.alloc o <;> rfl
    rwa [hleft]
  · simp only [alloc] at heq
    split at heq
    · next r' h' ha =>
      cases heq
      simp [Action.gives, ha]
    · cases heq

theorem obeys_newString (text : String) :
    Obeys brought known s (newString text) fun known' _ r => r ∈ known' :=
  obeys_alloc (by simp [Traced.refs]) fun _ => trivial

/-- New objects made one after the other. -/
theorem obeys_mapM {β : Type} (make : β → SpaceM Ref)
    (hmake : ∀ b known s, Obeys brought known s (make b) fun known' _ r => r ∈ known') (bs : List β)
    (known : List Ref) (s : Space) :
    Obeys brought known s (bs.mapM make) fun known' _ rs => ∀ r ∈ rs, r ∈ known' := by
  induction bs generalizing known s with
  | nil =>
    rw [List.mapM_nil]
    exact obeys_pure (by simp)
  | cons b rest ih =>
    rw [List.mapM_cons]
    refine (hmake b known s).bind fun r known' s' _ _ hr => ?_
    refine (ih known' s').bind fun rs known'' s'' _ hmoves hrs => ?_
    refine obeys_pure fun x hx => ?_
    rcases List.mem_cons.mp hx with rfl | hx
    · exact hmoves.subset x hr
    · exact hrs x hx

theorem obeys_arrayOf {slots : List (Option Ref)} (hrefs : ∀ x ∈ slots.filterMap id, x ∈ known) :
    Obeys brought known s (arrayOf slots) fun known' _ r => r ∈ known' := by
  refine obeys_ask fun a ha => ?_
  have hrev := SlotArray.revision_ofSlots (s.maxElements_le_bound brought) ha
  refine obeys_alloc (fun x hx => ?_) hrev.fits
  rcases hrev.origin x hx with hx | hx
  · cases hx
  · exact hrefs x hx

theorem obeys_arrayOfItems {items : List Ref} (hrefs : ∀ x ∈ items, x ∈ known) :
    Obeys brought known s (arrayOfItems items) fun known' _ r => r ∈ known' := by
  refine obeys_arrayOf fun x hx => ?_
  simp only [List.mem_filterMap, List.mem_map, id_eq] at hx
  obtain ⟨_, ⟨y, hy, rfl⟩, heq⟩ := hx
  cases heq
  exact hrefs x hy

theorem obeys_arrayOfStrings (texts : List String) :
    Obeys brought known s (arrayOfStrings texts) fun known' _ r => r ∈ known' :=
  (obeys_mapM newString (fun text _ _ => obeys_newString text) texts known s).bind
    fun _ _ _ _ _ hrs => obeys_arrayOfItems hrs

theorem obeys_indexObject (subscripts : List Nat) :
    Obeys brought known s (indexObject subscripts) fun known' _ r => r ∈ known' := by
  unfold indexObject
  split
  · exact obeys_newString _
  · exact obeys_arrayOfStrings _

theorem obeys_indexObjects (array : Ref) :
    Obeys brought known s (indexObjects array) fun known' _ rs => ∀ r ∈ rs, r ∈ known' :=
  obeys_ask fun _ _ => obeys_mapM indexObject (fun b _ _ => obeys_indexObject b) _ _ _

end Space

end Managed
