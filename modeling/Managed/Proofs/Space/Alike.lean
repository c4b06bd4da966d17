import Mathlib.Logic.Equiv.Basic
import Managed.Proofs.Space.Linked

/-!
# Two spaces side by side

Two runs of one program make their objects in step, so the objects made by one can be listed in pairs
with those made by the other. Two spaces are alike if a pair of objects that are both still there have
the same value, whatever one-to-one function takes the first handle of each pair to the second. Such a
function always exists, since no handle is given out twice (`exists_renames`). It need not be known
while the list of pairs grows: what is said of all such functions stays true of fewer.
-/

namespace Managed

/-! ## Pairs of handles -/

/-- A one-to-one function that takes the first handle of each pair to the second. -/
structure Renames (pairs : List (Ref × Ref)) (f : Ref → Ref) : Prop where
  injective : Function.Injective f
  pair : ∀ p ∈ pairs, f p.1 = p.2

theorem Renames.of_append {pairs new : List (Ref × Ref)} {f : Ref → Ref}
    (hf : Renames (pairs ++ new) f) : Renames pairs f :=
  ⟨hf.injective, fun p hp => hf.pair p (List.mem_append_left _ hp)⟩

theorem exists_renames {pairs : List (Ref × Ref)} (hfst : (pairs.map Prod.fst).Nodup)
    (hsnd : (pairs.map Prod.snd).Nodup) : ∃ π : Equiv.Perm Ref, Renames pairs π := by
  induction pairs with
  | nil => exact ⟨Equiv.refl Ref, Function.injective_id, by simp⟩
  | cons p rest ih =>
    rw [List.map_cons, List.nodup_cons] at hfst hsnd
    obtain ⟨π, hπ⟩ := ih hfst.2 hsnd.2
    -- the image of the new handle changes places with the handle it is to go to
    refine ⟨π.trans (Equiv.swap (π p.1) p.2), Equiv.injective _, fun q hq => ?_⟩
    rw [Equiv.trans_apply]
    rcases List.mem_cons.mp hq with rfl | hq
    · exact Equiv.swap_apply_left _ _
    · rw [hπ.pair q hq]
      apply Equiv.swap_apply_of_ne_of_ne
      · intro heq
        rw [← hπ.pair q hq] at heq
        exact hfst.1 (List.mem_map.mpr ⟨q, hq, π.injective heq⟩)
      · intro heq
        exact hsnd.1 (List.mem_map.mpr ⟨q, hq, heq⟩)

/-! ## One heap -/

/-- A heap in which the handles given out so far are all different. -/
structure Kept (handles : List Ref) (freed : Nat → Nat) (h : Heap Object) : Prop where
  tidy : h.Tidy
  numbered : h.Numbered handles freed
  nodup : handles.Nodup
  bound : ∀ i, freed i < 2 ^ 32

namespace Kept

variable {handles : List Ref} {freed : Nat → Nat} {h h' : Heap Object}

theorem of_samePlaces (hk : Kept handles freed h) (hs : Heap.SamePlaces h h') (ht : h'.Tidy) :
    Kept handles freed h' :=
  ⟨ht, hs.numbered hk.numbered, hk.nodup, hk.bound⟩

theorem fresh (hk : Kept handles freed h) {o : Object} {r : Ref} (ha : Heap.Allocated h o r h') :
    r ∉ handles :=
  ha.fresh hk.numbered (hk.bound r.index)

theorem alloc (hk : Kept handles freed h) {o : Object} {r : Ref} (ha : Heap.Allocated h o r h') :
    Kept (handles ++ [r]) freed h' := by
  refine ⟨ha.tidy hk.tidy, ha.numbered hk.numbered (hk.bound r.index), ?_, hk.bound⟩
  rw [List.nodup_append]
  refine ⟨hk.nodup, by simp, fun x hx y hy => ?_⟩
  rw [List.mem_singleton.mp hy]
  rintro rfl
  exact hk.fresh ha hx

theorem setObject {s : Space} {r : Ref} {old : Object} (hk : Kept handles freed s.heap)
    (hr : s.heap.get? r = some old) (o : Object) : Kept handles freed (s.setObject r o).heap := by
  rw [Space.setObject_of_live hr]
  exact hk.of_samePlaces (Heap.samePlaces_modifyEntry _ _ _)
    (Heap.tidy_modifyEntry hk.tidy r (fun _ => rfl) fun _ => rfl)

theorem barriers {s : Space} (hk : Kept handles freed s.heap) (owner : Ref) (stored : List Ref) :
    Kept handles freed (s.barriers owner stored).heap := by
  obtain ⟨hs, hr, hm, _⟩ := Heap.foldl_writeBarrier hk.tidy.recorded owner stored
  exact hk.of_samePlaces hs.samePlaces (hk.tidy.of_sameObjects hs hm hr)

theorem collect (hk : Kept handles freed h) (kind : CollectionKind) (roots : RootSet)
    (hbound : ∀ i, freed i + (h.frees (h.collect kind roots) i).toNat < 2 ^ 32) :
    Kept handles (fun i => freed i + (h.frees (h.collect kind roots) i).toNat)
      (h.collect kind roots) :=
  ⟨Heap.tidy_collect hk.tidy kind roots, Heap.numbered_collect hk.tidy hk.numbered kind roots,
    hk.nodup, hbound⟩

theorem tenure (hk : Kept handles freed h) {r : Ref} (ht : h.tenure r = .ok h') :
    Kept handles freed h' ∧ ∀ x, h'.get? x = h.get? x := by
  rcases Heap.tenure_cases ht with rfl | rfl
  · exact ⟨hk, fun _ => rfl⟩
  · have hs := Heap.sameObjects_rememberHolder (h.tenured r) r
    refine ⟨hk.of_samePlaces ((Heap.samePlaces_tenured h r).trans hs.samePlaces)
      (Heap.tidy_rememberHolder (Heap.tidy_tenured hk.tidy r) r), fun x => ?_⟩
    rw [hs.get?, Heap.get?_tenured]

end Kept

/-! ## Two spaces -/

structure Alike (pairs : List (Ref × Ref)) (freed freed' : Nat → Nat) (s s' : Space) : Prop where
  limits : s'.limits = s.limits
  kept : Kept (pairs.map Prod.fst) freed s.heap
  kept' : Kept (pairs.map Prod.snd) freed' s'.heap
  objects : ∀ p ∈ pairs, ∀ o o', s.heap.get? p.1 = some o → s'.heap.get? p.2 = some o' →
    ∀ f, Renames pairs f → o' = o.rename f
  roots : ∀ f, Renames pairs f → s'.roots.globals = s.roots.globals.map f

/-- A pair of objects that are both still there. -/
structure Paired (pairs : List (Ref × Ref)) (s s' : Space) (r r' : Ref) : Prop where
  mem : (r, r') ∈ pairs
  live : s.heap.contains r = true
  live' : s'.heap.contains r' = true

theorem Paired.seen {pairs : List (Ref × Ref)} {s s' : Space} {r r' : Ref} {f : Ref → Ref}
    (hr : Paired pairs s s' r r') (hf : Renames pairs f) : r' = f r ∧ Space.Seen f s s' r := by
  obtain rfl : f r = r' := hf.pair (r, r') hr.mem
  exact ⟨rfl, hr.live, hr.live'⟩

namespace Alike

variable {pairs : List (Ref × Ref)} {freed freed' : Nat → Nat} {s s' : Space}

theorem exists_renames (ha : Alike pairs freed freed' s s') :
    ∃ π : Equiv.Perm Ref, Renames pairs π :=
  Managed.exists_renames ha.kept.nodup ha.kept'.nodup

theorem object (ha : Alike pairs freed freed' s s') {r r' : Ref} (hr : Paired pairs s s' r r') :
    ∃ o o', s.heap.get? r = some o ∧ s'.heap.get? r' = some o' ∧
      ∀ f, Renames pairs f → o' = o.rename f := by
  obtain ⟨o, ho⟩ := Heap.contains_iff_get?.mp hr.live
  obtain ⟨o', ho'⟩ := Heap.contains_iff_get?.mp hr.live'
  exact ⟨o, o', ho, ho', ha.objects (r, r') hr.mem o o' ho ho'⟩

theorem get (ha : Alike pairs freed freed' s s') {r r' : Ref} (hr : Paired pairs s s' r r')
    {f : Ref → Ref} (hf : Renames pairs f) : s'.get r' = (s.get r).map (Object.rename f) := by
  obtain ⟨o, o', ho, ho', heq⟩ := ha.object hr
  rw [Space.get_eq_ok.mpr ho, Space.get_eq_ok.mpr ho', heq f hf]
  rfl

theorem valueKey (ha : Alike pairs freed freed' s s') {r r' : Ref} (hr : Paired pairs s s' r r')
    {f : Ref → Ref} (hf : Renames pairs f) :
    s'.valueKey r' = (s.valueKey r).map (RelationKey.rename f) := by
  refine bind_eq_map (ha.get hr hf) fun o _ => ?_
  obtain ⟨rfl, _⟩ := hr.seen hf
  cases o <;> rfl

theorem paired (ha : Alike pairs freed freed' s s') {f : Ref → Ref} (hf : Renames pairs f) {r : Ref}
    (hr : Space.Seen f s s' r) : Paired pairs s s' r (f r) := by
  obtain ⟨p, hp, rfl⟩ := List.mem_map.mp (ha.kept.numbered.live r hr.1)
  exact ⟨by rwa [hf.pair p hp], hr.1, hr.2⟩

/-- If no object holds a handle that does not resolve, the two spaces are linked. -/
theorem linked (ha : Alike pairs freed freed' s s')
    (hheld : ∀ r, ∀ x ∈ s.heap.children r, s.heap.contains x = true)
    (hheld' : ∀ r, ∀ x ∈ s'.heap.children r, s'.heap.contains x = true) {f : Ref → Ref}
    (hf : Renames pairs f) : Space.Linked f s s' := by
  refine ⟨hf.injective, ha.limits, fun r hr => ?_, fun r o hr ho x hx => ⟨?_, ?_⟩⟩
  · obtain ⟨o, o', ho, ho', heq⟩ := ha.object (ha.paired hf hr)
    exact ⟨o, ho, by rw [ho', heq f hf]⟩
  · exact hheld r x (Space.mem_children ho hx)
  · obtain ⟨o₁, o', ho₁, ho', heq⟩ := ha.object (ha.paired hf hr)
    obtain rfl : o₁ = o := by rwa [ho₁, Option.some_inj] at ho
    rw [heq f hf] at ho'
    apply hheld' (f r) (f x) (Space.mem_children ho' ?_)
    rw [Object.refs_rename]
    exact List.mem_map_of_mem hx

/-! ## Changes of both spaces -/

/-- A change after which every object that is still there is as before. -/
theorem of_get? (ha : Alike pairs freed freed' s s') {t t' : Space} {now now' : Nat → Nat}
    (hlimits : t.limits = s.limits) (hlimits' : t'.limits = s'.limits)
    (hk : Kept (pairs.map Prod.fst) now t.heap) (hk' : Kept (pairs.map Prod.snd) now' t'.heap)
    (hget : ∀ x o, t.heap.get? x = some o → s.heap.get? x = some o)
    (hget' : ∀ x o, t'.heap.get? x = some o → s'.heap.get? x = some o)
    (hroots : ∀ f, Renames pairs f → t'.roots.globals = t.roots.globals.map f) :
    Alike pairs now now' t t' := by
  refine ⟨by rw [hlimits', hlimits, ha.limits], hk, hk', fun p hp o o' ho ho' => ?_, hroots⟩
  exact ha.objects p hp o o' (hget _ _ ho) (hget' _ _ ho')

/-- The barrier keeps every object as it is. -/
theorem barriers (ha : Alike pairs freed freed' s s') (owner owner' : Ref)
    (stored stored' : List Ref) :
    Alike pairs freed freed' (s.barriers owner stored) (s'.barriers owner' stored') := by
  have hs := (Heap.foldl_writeBarrier ha.kept.tidy.recorded owner stored).1
  have hs' := (Heap.foldl_writeBarrier ha.kept'.tidy.recorded owner' stored').1
  exact ha.of_get? rfl rfl (ha.kept.barriers owner stored) (ha.kept'.barriers owner' stored')
    (fun x _ ho => (hs.get? x).symm.trans ho) (fun x _ ho => (hs'.get? x).symm.trans ho) ha.roots

theorem setObject (ha : Alike pairs freed freed' s s') {r r' : Ref} (hr : Paired pairs s s' r r')
    {o o' : Object} (ho : ∀ f, Renames pairs f → o' = o.rename f) :
    Alike pairs freed freed' (s.setObject r o) (s'.setObject r' o') := by
  obtain ⟨old, old', hold, hold', _⟩ := ha.object hr
  obtain ⟨π, hπ⟩ := ha.exists_renames
  have hr' : π r = r' := hπ.pair (r, r') hr.mem
  refine ⟨?_, ha.kept.setObject hold o, ha.kept'.setObject hold' o',
    fun p hp q q' hq hq' f hf => ?_, ?_⟩
  · rw [Space.setObject_of_live hold, Space.setObject_of_live hold']
    exact ha.limits
  · rw [Space.get?_setObject hold] at hq
    rw [Space.get?_setObject hold'] at hq'
    -- both handles of the pair are the changed ones, or neither is
    by_cases hpr : p.1 = r
    · rw [if_pos hpr] at hq
      rw [if_pos (by rw [← hπ.pair p hp, hpr, hr'])] at hq'
      cases hq
      cases hq'
      exact ho f hf
    · rw [if_neg hpr] at hq
      have hpr' : p.2 ≠ r' := by
        rw [← hπ.pair p hp, ← hr']
        exact fun heq => hpr (π.injective heq)
      rw [if_neg hpr'] at hq'
      exact ha.objects p hp q q' hq hq' f hf
  · rw [Space.setObject_of_live hold, Space.setObject_of_live hold']
    exact ha.roots

theorem alloc (ha : Alike pairs freed freed' s s') {o o' : Object} {r r' : Ref}
    {h h' : Heap Object} (hr : Heap.Allocated s.heap o r h) (hr' : Heap.Allocated s'.heap o' r' h')
    (ho : ∀ f, Renames pairs f → o' = o.rename f) :
    Alike (pairs ++ [(r, r')]) freed freed' { s with heap := h } { s' with heap := h' } := by
  refine ⟨ha.limits, ?_, ?_, fun p hp q q' hq hq' f hf => ?_, fun f hf => ha.roots f hf.of_append⟩
  · rw [List.map_append]
    exact ha.kept.alloc hr
  · rw [List.map_append]
    exact ha.kept'.alloc hr'
  · dsimp only at hq hq'
    rcases List.mem_append.mp hp with hp | hp
    · have hne : p.1 ≠ r := fun heq => ha.kept.fresh hr (heq ▸ List.mem_map_of_mem hp)
      have hne' : p.2 ≠ r' := fun heq => ha.kept'.fresh hr' (heq ▸ List.mem_map_of_mem hp)
      rw [hr.get?, if_neg hne] at hq
      rw [hr'.get?, if_neg hne'] at hq'
      exact ha.objects p hp q q' hq hq' f hf.of_append
    · cases List.mem_singleton.mp hp
      rw [hr.get?, if_pos rfl] at hq
      rw [hr'.get?, if_pos rfl] at hq'
      cases hq
      cases hq'
      exact ho f hf.of_append

end Alike

end Managed
