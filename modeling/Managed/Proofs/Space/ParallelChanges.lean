import Managed.Proofs.Space.Answers
import Managed.Proofs.Space.ArraySort
import Managed.Proofs.Space.Parallel

/-!
# Every operation runs in parallel

An operation that changes an object changes its counterpart in the other space in the same way. While
an array is sorted the comparator sees it empty in both spaces, and the items it compares are the same
ones up to a renaming. Together with the new objects this gives `parallel_run`: an operation and its
copy with the handles of the other space run in parallel, unless it is a collection or asks about the
state of the heap.
-/

namespace Managed.Space

variable {pairs : List (Ref × Ref)} {freed freed' : Nat → Nat} {s s' : Space}

/-! ## Changes of arrays -/

section

variable {β : Type} {r r' : Ref}

theorem parallel_changeArray (rename : (Ref → Ref) → β → β) (ha : Alike pairs freed freed' s s')
    (hr : Paired pairs s s' r r') {work work' : ArrayLimits → ArrayM Ref β}
    (hwork : ∀ f, Renames pairs f → ArrayM.Mirrors f (rename f) (work s.limits) (work' s.limits)) :
    Parallel rename pairs freed freed' s s' (changeArray r work) (changeArray r' work') := by
  have harray : ∀ f, Renames pairs f → s'.array r' = (s.array r).map (SlotArray.map f) :=
    fun f hf => array_of_get (ha.get hr hf)
  obtain ⟨π, hπ⟩ := ha.exists_renames
  cases hx : s.array r with
  | error e =>
    have hx' : s'.array r' = .error e := by rw [harray π hπ, hx]; rfl
    exact parallel_of_error (changeArray_of_missing hx work) (changeArray_of_missing hx' work') ha
  | ok a =>
    have hx' : s'.array r' = .ok (a.map π) := by rw [harray π hπ, hx]; rfl
    have hsame : ∀ f, Renames pairs f → a.map π = a.map f := by
      intro f hf
      have heq := harray f hf
      rw [hx, hx'] at heq
      exact Except.ok.inj heq
    have hrun := changeArray_eq hx work
    have hrun' := changeArray_eq hx' work'
    rw [ha.limits, hwork π hπ a] at hrun'
    cases hw : work s.limits a with
    | error e c =>
      have hleft : ∀ f, Renames pairs f → c.map π = c.map f := by
        intro f hf
        have heq := (hwork π hπ a).symm.trans ((congrArg _ (hsame f hf)).trans (hwork f hf a))
        rw [hw] at heq
        exact (EStateM.Result.error.inj heq).2
      rw [hw] at hrun hrun'
      refine parallel_of_error hrun hrun' (ha.setObject hr fun f hf => ?_)
      rw [hleft f hf]
      rfl
    | ok b c =>
      have hleft : ∀ f, Renames pairs f → rename π b = rename f b ∧ c.map π = c.map f := by
        intro f hf
        have heq := (hwork π hπ a).symm.trans ((congrArg _ (hsame f hf)).trans (hwork f hf a))
        rw [hw] at heq
        exact EStateM.Result.ok.inj heq
      rw [hw] at hrun hrun'
      refine parallel_of_ok hrun hrun' (ha.setObject hr fun f hf => ?_) fun f hf => (hleft f hf).1
      rw [(hleft f hf).2]
      rfl

theorem parallel_barrier (ha : Alike pairs freed freed' s s') (owner owner' value value' : Ref) :
    Parallel (fun _ u => u) pairs freed freed' s s' (barrier owner value) (barrier owner' value') :=
  parallel_of_ok rfl rfl (ha.barriers owner owner' [value] [value']) fun _ _ => rfl

end

section

variable (ha : Alike pairs freed freed' s s') {r r' value value' : Ref}
  (hr : Paired pairs s s' r r') (hvalue : Paired pairs s s' value value')
include ha hr

theorem parallel_delete (position : Nat) :
    Parallel (fun f => Option.map f) pairs freed freed' s s' (delete r position)
      (delete r' position) :=
  parallel_changeArray _ ha hr fun f _ => ArrayM.mirrors_delete f position

theorem parallel_clearAll :
    Parallel (fun _ u => u) pairs freed freed' s s' (clearAll r) (clearAll r') :=
  parallel_changeArray _ ha hr fun f _ => ArrayM.mirrors_modify (SlotArray.clearAll_map f)

theorem parallel_removeAt {index index' : ArrayIndex}
    (hindex : s'.resolveIndex index' = s.resolveIndex index) :
    Parallel (fun f => Option.map f) pairs freed freed' s s' (removeAt r index)
      (removeAt r' index') :=
  parallel_ask_same ha hindex fun subscripts =>
    parallel_changeArray _ ha hr fun f _ => ArrayM.mirrors_remove f subscripts

theorem parallel_insert {item item' : Option Ref} (hitem : ∀ f, Renames pairs f → item' = item.map f)
    (target : InsertAt) :
    Parallel (fun _ n => n) pairs freed freed' s s' (insert r item target)
      (insert r' item' target) := by
  refine (parallel_changeArray (fun _ n => n) ha hr fun f hf => ?_).bind
    fun p p' new t t' _ _ ha hp => ?_
  · rw [hitem f hf]
    exact ArrayM.mirrors_insert f item target s.limits
  · obtain ⟨π, hπ⟩ := ha.exists_renames
    rw [hitem π hπ.of_append]
    have hbarrier : Parallel (fun _ u => u) (pairs ++ new) freed freed' t t'
        (item.forM (barrier r)) ((item.map π).forM (barrier r')) := by
      cases item with
      | none => exact parallel_pure ha fun _ _ => rfl
      | some x => exact parallel_barrier ha r r' x (π x)
    refine hbarrier.bind fun _ _ new' t t' _ _ ha _ => ?_
    exact parallel_pure ha fun f hf => hp f hf.of_append

include hvalue

theorem parallel_fill :
    Parallel (fun _ u => u) pairs freed freed' s s' (fill r value) (fill r' value') := by
  refine (parallel_changeArray (fun _ u => u) ha hr fun f hf => ?_).bind
    fun _ _ new t t' _ _ ha _ => parallel_barrier ha r r' value value'
  obtain ⟨rfl, _⟩ := hvalue.seen hf
  exact ArrayM.mirrors_modify fun a => SlotArray.fill_map f a value

theorem parallel_append :
    Parallel (fun _ n => n) pairs freed freed' s s' (append r value) (append r' value') := by
  refine (parallel_changeArray (fun _ n => n) ha hr fun f hf => ?_).bind
    fun p p' new t t' _ _ ha hp => ?_
  · obtain ⟨rfl, _⟩ := hvalue.seen hf
    exact ArrayM.mirrors_append f value s.limits
  · refine (parallel_barrier ha r r' value value').bind fun _ _ new' t t' _ _ ha _ => ?_
    exact parallel_pure ha fun f hf => hp f hf.of_append

theorem parallel_store {index index' : ArrayIndex}
    (hindex : s'.resolveIndex index' = s.resolveIndex index) :
    Parallel (fun _ u => u) pairs freed freed' s s' (store r value index)
      (store r' value' index') := by
  refine parallel_ask_same ha hindex fun subscripts => ?_
  refine (parallel_changeArray (fun _ u => u) ha hr fun f hf => ?_).bind
    fun _ _ new t t' _ _ ha _ => parallel_barrier ha r r' value value'
  obtain ⟨rfl, _⟩ := hvalue.seen hf
  exact ArrayM.mirrors_store f subscripts value s.limits

omit hvalue in
theorem parallel_removeItem (hfound : s'.indexOf r' value' = s.indexOf r value) :
    Parallel (fun f => Option.map f) pairs freed freed' s s' (removeItem r value)
      (removeItem r' value') := by
  refine parallel_ask_same ha hfound fun found => ?_
  cases found with
  | none => exact parallel_pure ha fun _ _ => rfl
  | some p =>
    exact parallel_changeArray _ ha hr fun f _ => ArrayM.mirrors_clear f p

theorem parallel_appendAll :
    Parallel (fun _ u => u) pairs freed freed' s s' (appendAll r value) (appendAll r' value') := by
  refine parallel_ask SlotArray.map ha (fun f hf => array_of_get (ha.get hvalue hf))
    fun a a' _ heq => ?_
  have hitems : ∀ f, Renames pairs f → a'.allItems = a.allItems.map f := fun f hf => by
    rw [heq f hf, SlotArray.allItems_map]
  refine (parallel_changeArray (fun _ u => u) ha hr fun f hf => ?_).bind
    fun _ _ new t t' _ _ ha _ => ?_
  · rw [hitems f hf]
    exact ArrayM.mirrors_appendAll f a.allItems s.limits
  · exact parallel_of_ok (forM_barrier _ t) (forM_barrier _ t') (ha.barriers r r' _ _) fun _ _ => rfl

end

/-! ## Sorting -/

section

variable {σ : Type} {r r' : Ref}

theorem Linked.seen_setObject {f : Ref → Ref} (h : Linked f s s') (hr : Seen f s s' r)
    {o p : Object} (x : Ref) :
    Seen f (s.setObject r o) (s'.setObject (f r) p) x ↔ Seen f s s' x := by
  obtain ⟨old, hold, hold'⟩ := h.object r hr
  rw [Seen, Seen, setObject_of_live hold, setObject_of_live hold', Heap.contains_modifyEntry,
    Heap.contains_modifyEntry]

theorem Linked.setObject {f : Ref → Ref} (h : Linked f s s') (hr : Seen f s s' r) {o : Object}
    (ho : ∀ x ∈ Traced.refs o, Seen f s s' x) :
    Linked f (s.setObject r o) (s'.setObject (f r) (o.rename f)) := by
  obtain ⟨old, hold, hold'⟩ := h.object r hr
  have hseen := h.seen_setObject hr (o := o) (p := o.rename f)
  refine ⟨h.injective, ?_, fun x hx => ?_, fun x q hx hq y hy => ?_⟩
  · rw [setObject_of_live hold, setObject_of_live hold']
    exact h.limits
  · rw [get?_setObject hold, get?_setObject hold']
    by_cases hxr : x = r
    · subst hxr
      exact ⟨o, by simp⟩
    · rw [if_neg hxr, if_neg fun heq => hxr (h.injective heq)]
      exact h.object x ((hseen x).mp hx)
  · rw [get?_setObject hold] at hq
    rw [hseen] at hx ⊢
    split at hq
    · cases hq
      exact ho y hy
    · exact h.held x q hx hq y hy

/-- A comparator that linked spaces do not make a difference to. -/
def Indifferent (compare : Space → Sorting.Comparator Fault σ Ref) : Prop :=
  ∀ f s s', Linked f s s' → ∀ a b, Seen f s s' a → Seen f s s' b →
    compare s' (f a) (f b) = compare s a b

theorem sort_linked {f : Ref → Ref} (h : Linked f s s') (hr : Seen f s s' r) {brought : Nat}
    (hfit : s.Fit brought) {d : Detached Ref} {emptied : SlotArray Ref}
    (hd : s.array r >>= SlotArray.detach = .ok (d, emptied)) (stable : Bool)
    {compare : Space → Sorting.Comparator Fault σ Ref} (hc : Indifferent compare) (memory : σ) :
    Detached.sort stable (compare (s'.setObject (f r) (.array (emptied.map f)))) (d.map f, memory) =
      Detached.mirrored f
        (Detached.sort stable (compare (s.setObject r (.array emptied))) (d, memory)) := by
  obtain ⟨a, ha, hd⟩ := bind_eq_ok hd
  obtain ⟨n, _, hd⟩ := bind_eq_ok hd
  cases hd
  have hlinked : Linked f (s.setObject r (.array { shape := a.shape }))
      (s'.setObject (f r) (.array (SlotArray.map f { shape := a.shape }))) :=
    h.setObject hr fun x hx => by cases hx
  refine Detached.sort_map_of_forall (hc f _ _ hlinked) (fun x hx => ?_) stable memory
  obtain ⟨i, hi⟩ := Array.mem_iff_getElem?.mp hx
  have hslot : a.slotAt i = some x := by rw [SlotArray.slotAt, SlotArray.cell, hi]; rfl
  have hlt := (hfit.array ha).padded.lt_size (i := i) (by rw [hslot]; rfl)
  have hseen : Seen f s s' x :=
    seen_of_allItems h hr ha (SlotArray.mem_allItems.mpr ⟨i, hlt, hslot⟩)
  exact (h.seen_setObject hr x).mpr hseen

theorem parallel_sorting (ha : Alike pairs freed freed' s s')
    (hl : ∀ f, Renames pairs f → Linked f s s') {brought : Nat} (hfit : s.Fit brought)
    (hr : Paired pairs s s' r r') (stable : Bool) {compare : Space → Sorting.Comparator Fault σ Ref}
    (hc : Indifferent compare) (memory : σ) :
    Parallel (fun _ u => u) pairs freed freed' s s' (sorting r stable compare memory)
      (sorting r' stable compare memory) := by
  have hall : ∀ f, Renames pairs f → s'.array r' >>= SlotArray.detach =
      (s.array r >>= SlotArray.detach).map (Prod.map (Detached.map f) (SlotArray.map f)) :=
    fun f hf => bind_eq_map (array_of_get (ha.get hr hf)) fun a _ => SlotArray.detach_map f a
  obtain ⟨π, hπ⟩ := ha.exists_renames
  cases hx : s.array r >>= SlotArray.detach with
  | error e =>
    have hx' : s'.array r' >>= SlotArray.detach = .error e := by rw [hall π hπ, hx]; rfl
    exact parallel_of_error (sorting_of_error hx _ _ _) (sorting_of_error hx' _ _ _) ha
  | ok p =>
    obtain ⟨d, emptied⟩ := p
    have hx' : s'.array r' >>= SlotArray.detach = .ok (d.map π, emptied.map π) := by
      rw [hall π hπ, hx]
      rfl
    have hsort : ∀ f, Renames pairs f → emptied.map π = emptied.map f ∧
        Detached.sort stable (compare (s'.setObject r' (.array (emptied.map π)))) (d.map π, memory) =
          Detached.mirrored f
            (Detached.sort stable (compare (s.setObject r (.array emptied))) (d, memory)) := by
      intro f hf
      have heq := hall f hf
      rw [hx, hx'] at heq
      obtain ⟨hd, hemptied⟩ := Prod.mk.inj (Except.ok.inj heq)
      obtain ⟨rfl, hseen⟩ := hr.seen hf
      rw [hd, hemptied]
      exact ⟨rfl, sort_linked (hl f hf) hseen hfit hx stable hc memory⟩
    have hstore : ∀ e : Detached Ref, (∀ f, Renames pairs f → e.map π = e.map f) →
        Alike pairs freed freed' (s.setObject r (.array (emptied.attach e)))
          (s'.setObject r' (.array ((emptied.map π).attach (e.map π)))) := by
      intro e he
      refine ha.setObject hr fun f hf => ?_
      rw [(hsort f hf).1, he f hf]
      rfl
    have hsame : ∀ f, Renames pairs f → _ := fun f hf =>
      (hsort π hπ).2.symm.trans (hsort f hf).2
    have hrun := sorting_of_ok hx stable compare memory
    have hrun' := sorting_of_ok hx' stable compare memory
    rw [(hsort π hπ).2] at hrun'
    cases hresult : Detached.sort stable (compare (s.setObject r (.array emptied))) (d, memory) with
    | ok u e =>
      rw [hresult] at hrun hrun' hsame
      refine parallel_of_ok hrun hrun' (hstore e.1 fun f hf => ?_) fun _ _ => rfl
      injection hsame f hf with _ heq
      exact congrArg Prod.fst heq
    | error fault e =>
      rw [hresult] at hrun hrun' hsame
      refine parallel_of_error hrun hrun' (hstore e.1 fun f hf => ?_)
      injection hsame f hf with _ heq
      exact congrArg Prod.fst heq

theorem indifferent_natural : Indifferent natural := by
  intro f s s' h a b ha hb
  funext memory
  rw [natural, natural, compareNatural_linked h ha hb]

/-- The answers depend on the string values of the objects only. -/
def TextOnly (comparator : ObjectComparator σ) : Prop :=
  ∀ (s s' : Space) (a b a' b' : Ref), s'.stringValue a' = s.stringValue a →
    s'.stringValue b' = s.stringValue b → comparator s' a' b' = comparator s a b

theorem indifferent_answered {comparator : ObjectComparator σ} (hc : TextOnly comparator) :
    Indifferent (answered comparator) := by
  intro f s s' h a b ha hb
  unfold answered
  rw [hc s s' a b (f a) (f b) (stringValue_linked h ha) (stringValue_linked h hb)]

end

/-! ## Changes of relations and suppliers -/

section

variable {r r' : Ref}

theorem parallel_changeRelation {β : Type} (rename : (Ref → Ref) → β → β)
    (ha : Alike pairs freed freed' s s') (hr : Paired pairs s s' r r')
    {change change' : Relation → β × Relation}
    (hc : ∀ f, Renames pairs f → ∀ a, change' (a.rename f) =
      Prod.map (rename f) (Relation.rename f) (change a)) :
    Parallel rename pairs freed freed' s s' (changeRelation r change)
      (changeRelation r' change') := by
  obtain ⟨π, hπ⟩ := ha.exists_renames
  have hall : ∀ f, Renames pairs f → s'.relation r' = (s.relation r).map (Relation.rename f) :=
    fun f hf => relation_of_get (ha.get hr hf)
  cases hx : s.relation r with
  | error e =>
    have hx' : s'.relation r' = .error e := by rw [hall π hπ, hx]; rfl
    exact parallel_of_error (by rw [changeRelation, hx]) (by rw [changeRelation, hx']) ha
  | ok a =>
    have hx' : s'.relation r' = .ok (a.rename π) := by rw [hall π hπ, hx]; rfl
    have hsame : ∀ f, Renames pairs f → change' (a.rename π) =
        Prod.map (rename f) (Relation.rename f) (change a) := by
      intro f hf
      have heq := hall f hf
      rw [hx, hx'] at heq
      rw [Except.ok.inj heq]
      exact hc f hf a
    refine parallel_of_ok (by rw [changeRelation, hx]) (by rw [changeRelation, hx']) ?_ fun f hf => ?_
    · refine ha.setObject hr fun f hf => ?_
      rw [hsame f hf]
      rfl
    · rw [hsame f hf]
      rfl

variable (ha : Alike pairs freed freed' s s') (hr : Paired pairs s s' r r')
include ha hr

theorem parallel_relate {item item' index index' : Ref} (hitem : Paired pairs s s' item item')
    (hindex : Paired pairs s s' index index') :
    Parallel (fun _ u => u) pairs freed freed' s s' (relate r item index)
      (relate r' item' index') := by
  refine parallel_ask RelationKey.rename ha (fun _ hf => ha.valueKey hitem hf)
    fun itemKey itemKey' _ hitemKey => ?_
  refine parallel_ask RelationKey.rename ha (fun _ hf => ha.valueKey hindex hf)
    fun key key' _ hkey => ?_
  refine (parallel_changeRelation (fun _ b => b) ha hr fun f hf a => ?_).bind
    fun _ _ _ _ _ _ _ ha _ => ?_
  · rw [hitemKey f hf, hkey f hf, (hitem.seen hf).1, (hindex.seen hf).1,
      Relation.put_rename a hf.injective]
    rfl
  · exact (parallel_barrier ha r r' item item').bind fun _ _ _ _ _ _ _ ha _ =>
      parallel_barrier ha r r' index index'

theorem parallel_unrelate {index index' : Ref} (hindex : Paired pairs s s' index index') :
    Parallel (fun f => Option.map f) pairs freed freed' s s' (unrelate r index)
      (unrelate r' index') := by
  refine parallel_ask RelationKey.rename ha (fun _ hf => ha.valueKey hindex hf)
    fun key key' _ hkey => ?_
  refine parallel_changeRelation _ ha hr fun f hf a => ?_
  rw [hkey f hf]
  exact Relation.remove_rename a hf.injective key

theorem parallel_unrelateItem {item item' index index' : Ref}
    (hitem : Paired pairs s s' item item') (hindex : Paired pairs s s' index index') :
    Parallel (fun f => Option.map f) pairs freed freed' s s' (unrelateItem r item index)
      (unrelateItem r' item' index') := by
  refine parallel_ask RelationKey.rename ha (fun _ hf => ha.valueKey hitem hf)
    fun itemKey itemKey' _ hitemKey => ?_
  refine parallel_ask RelationKey.rename ha (fun _ hf => ha.valueKey hindex hf)
    fun key key' _ hkey => ?_
  refine parallel_changeRelation _ ha hr fun f hf a => ?_
  rw [hitemKey f hf, hkey f hf]
  exact Relation.removeItem_rename a hf.injective key itemKey

theorem parallel_advance :
    Parallel (fun _ u => u) pairs freed freed' s s' (advance r) (advance r') := by
  obtain ⟨π, hπ⟩ := ha.exists_renames
  have hall : ∀ f, Renames pairs f → s'.supplier r' >>= Supplier.next =
      (s.supplier r >>= Supplier.next).map (Supplier.rename f) :=
    fun f hf => bind_eq_map (supplier_of_get (ha.get hr hf)) fun a _ => Supplier.next_rename f a
  cases hx : s.supplier r >>= Supplier.next with
  | error e =>
    have hx' : s'.supplier r' >>= Supplier.next = .error e := by rw [hall π hπ, hx]; rfl
    exact parallel_of_error (by rw [advance, hx]) (by rw [advance, hx']) ha
  | ok next =>
    have hx' : s'.supplier r' >>= Supplier.next = .ok (next.rename π) := by rw [hall π hπ, hx]; rfl
    refine parallel_of_ok (by rw [advance, hx]) (by rw [advance, hx']) ?_ fun _ _ => rfl
    refine ha.setObject hr fun f hf => ?_
    have heq := hall f hf
    rw [hx, hx'] at heq
    rw [Except.ok.inj heq]
    rfl

end

/-! ## Roots and generations -/

section

variable {f : Ref → Ref}

theorem idxOf?_eq_some {xs : Array Ref} {x : Ref} {i : Nat} :
    xs.idxOf? x = some i ↔ xs[i]? = some x ∧ ∀ j < i, xs[j]? ≠ some x := by
  rw [Array.idxOf?_eq_map_finIdxOf?_val, Option.map_eq_some_iff]
  constructor
  · rintro ⟨⟨i, hi⟩, hfound, rfl⟩
    obtain ⟨hx, hbefore⟩ := Array.finIdxOf?_eq_some_iff.mp hfound
    refine ⟨Array.getElem?_eq_some_iff.mpr ⟨hi, hx⟩, fun j hj heq => ?_⟩
    obtain ⟨hjs, hjx⟩ := Array.getElem?_eq_some_iff.mp heq
    exact hbefore ⟨j, hjs⟩ hj hjx
  · rintro ⟨hx, hbefore⟩
    obtain ⟨hi, hxi⟩ := Array.getElem?_eq_some_iff.mp hx
    refine ⟨⟨i, hi⟩, Array.finIdxOf?_eq_some_iff.mpr ⟨hxi, fun j hj hjx => ?_⟩, rfl⟩
    exact hbefore j hj (Array.getElem?_eq_some_iff.mpr ⟨j.2, hjx⟩)

theorem idxOf?_map (hf : Function.Injective f) (xs : Array Ref) (x : Ref) :
    (xs.map f).idxOf? (f x) = xs.idxOf? x := by
  have hget : ∀ i : Nat, (xs.map f)[i]? = some (f x) ↔ xs[i]? = some x := by
    intro i
    rw [Array.getElem?_map]
    cases xs[i]? <;> simp [hf.eq_iff]
  apply Option.ext
  intro i
  simp only [idxOf?_eq_some, hget, ne_eq]

theorem swapIfInBounds_map (xs : Array Ref) (i j : Nat) :
    (xs.map f).swapIfInBounds i j = (xs.swapIfInBounds i j).map f := by
  rw [Array.swapIfInBounds_def, Array.swapIfInBounds_def]
  simp only [Array.size_map]
  split
  · split
    · apply Array.ext_getElem?
      intro k
      simp only [Array.getElem?_swap, Array.getElem?_map, Array.getElem_map]
      split
      · rfl
      · split <;> rfl
    · rfl
  · rfl

end

section

variable (ha : Alike pairs freed freed' s s') {r r' : Ref} (hr : Paired pairs s s' r r')

theorem unroot_of_absent (h : s.roots.globals.idxOf? r = none) : unroot r s = .ok false s := by
  simp only [unroot, RootSet.removeGlobal?, h, Option.map_none]

theorem unroot_of_found {i : Nat} (h : s.roots.globals.idxOf? r = some i) :
    unroot r s = .ok true { s with roots := { s.roots with
      globals := (s.roots.globals.swapIfInBounds i (s.roots.globals.size - 1)).pop } } := by
  simp only [unroot, RootSet.removeGlobal?, h, Option.map_some]

theorem tenure_of_live {h : Heap Object} (hlive : h.contains r = true) :
    ∃ h', h.tenure r = .ok h' := by
  obtain ⟨e, he⟩ := Heap.contains_iff.mp hlive
  unfold Heap.tenure
  rw [he]
  dsimp only
  split
  · exact ⟨_, rfl⟩
  · exact ⟨_, rfl⟩

include ha hr

theorem parallel_tenure :
    Parallel (fun _ u => u) pairs freed freed' s s' (tenure r) (tenure r') := by
  obtain ⟨h, hx⟩ := tenure_of_live hr.live
  obtain ⟨h', hx'⟩ := tenure_of_live hr.live'
  refine parallel_of_ok (by rw [tenure, hx]) (by rw [tenure, hx']) ?_ fun _ _ => rfl
  obtain ⟨hk, hget⟩ := ha.kept.tenure hx
  obtain ⟨hk', hget'⟩ := ha.kept'.tenure hx'
  exact ha.of_get? rfl rfl hk hk' (fun x _ ho => (hget x).symm.trans ho)
    (fun x _ ho => (hget' x).symm.trans ho) ha.roots

theorem parallel_root : Parallel (fun _ u => u) pairs freed freed' s s' (root r) (root r') := by
  refine parallel_of_ok rfl rfl ?_ fun _ _ => rfl
  refine ha.of_get? rfl rfl ha.kept ha.kept' (fun _ _ ho => ho) (fun _ _ ho => ho) fun f hf => ?_
  simp only [RootSet.addGlobal, Array.map_push, ← ha.roots f hf, (hr.seen hf).1]

theorem parallel_unroot :
    Parallel (fun _ b => b) pairs freed freed' s s' (unroot r) (unroot r') := by
  obtain ⟨π, hπ⟩ := ha.exists_renames
  have hidx : s'.roots.globals.idxOf? r' = s.roots.globals.idxOf? r := by
    rw [ha.roots π hπ, (hr.seen hπ).1, idxOf?_map π.injective]
  cases hx : s.roots.globals.idxOf? r with
  | none =>
    rw [hx] at hidx
    exact parallel_of_ok (unroot_of_absent hx) (unroot_of_absent hidx) ha fun _ _ => rfl
  | some i =>
    rw [hx] at hidx
    refine parallel_of_ok (unroot_of_found hx) (unroot_of_found hidx) ?_ fun _ _ => rfl
    refine ha.of_get? rfl rfl ha.kept ha.kept' (fun _ _ ho => ho) (fun _ _ ho => ho) fun f hf => ?_
    dsimp only
    rw [ha.roots f hf, Array.size_map, swapIfInBounds_map, Array.map_pop]

end

end Managed.Space

namespace Managed

/-! ## All operations -/

namespace Operation

/-- An operation whose answer depends on the objects only, not on the state of the heap. Collections
are not among them. -/
def Transparent : Operation → Prop
  | query q => q.Transparent
  | sortWith _ _ comparator _ => Space.TextOnly comparator
  | collect _ => False
  | _ => True

end Operation

namespace Space

variable {pairs : List (Ref × Ref)} {freed freed' : Nat → Nat} {s s' : Space}

theorem parallel_run (ha : Alike pairs freed freed' s s')
    (hl : ∀ f, Renames pairs f → Linked f s s') {brought : Nat} (hfit : s.Fit brought)
    {op op' : Operation} (hop : ∀ f, Renames pairs f → op' = op.rename f) (ht : op.Transparent)
    (hseen : ∀ f, Renames pairs f → ∀ x ∈ op.refs, Seen f s s' x) :
    Parallel Answer.rename pairs freed freed' s s' op.run op'.run := by
  obtain ⟨π, hπ⟩ := ha.exists_renames
  obtain rfl := hop π hπ
  have hpaired : ∀ x ∈ op.refs, Paired pairs s s' x (π x) := fun x hx =>
    ha.paired hπ (hseen π hπ x hx)
  have hself : ∀ {r : Ref} {rest : List Ref}, op.refs = r :: rest → Paired pairs s s' r (π r) := by
    intro r rest heq
    exact hpaired r (by simp [heq])
  have hnext : ∀ {r x : Ref} {rest : List Ref}, op.refs = r :: x :: rest →
      Paired pairs s s' x (π x) := by
    intro r x rest heq
    exact hpaired x (by simp [heq])
  cases op with
  | collect kind => cases ht
  | query q =>
    rw [Operation.rename, Operation.run, Operation.run, ← bind_pure (ask q.answer),
      ← bind_pure (ask (q.rename π).answer)]
    refine parallel_ask Answer.rename ha (fun f hf => ?_) fun b b' _ heq => parallel_pure ha heq
    rw [Operation.query.inj (hop f hf)]
    exact Query.answer_rename (hl f hf) ht (hseen f hf)
  -- new objects
  | alloc o => exact (parallel_alloc ha fun f hf => Operation.alloc.inj (hop f hf)).map fun _ _ => rfl
  | newString text => exact (parallel_newString ha text).map fun _ _ => rfl
  | newArray size => exact (parallel_newArray ha size).map fun _ _ => rfl
  | newShapedArray sizes => exact (parallel_newShapedArray ha sizes).map fun _ _ => rfl
  | arrayOf slots =>
    exact (parallel_arrayOf ha fun f hf => Operation.arrayOf.inj (hop f hf)).map fun _ _ => rfl
  | arrayOfStrings texts => exact (parallel_arrayOfStrings ha texts).map fun _ _ => rfl
  | newRelation => exact (parallel_alloc ha fun _ _ => rfl).map fun _ _ => rfl
  | allItems r => exact (parallel_allItems ha (hself rfl)).map fun _ _ => rfl
  | allIndexes r => exact (parallel_allIndexes ha (hself rfl)).map fun _ _ => rfl
  | arraySupplier r => exact (parallel_arraySupplier ha (hself rfl)).map fun _ _ => rfl
  | copy r => exact (parallel_copy ha (hself rfl)).map fun _ _ => rfl
  | join a b => exact (parallel_join ha (hself rfl) (hnext rfl)).map fun _ _ => rfl
  | slice r start count => exact (parallel_slice ha (hself rfl) start count).map fun _ _ => rfl
  | relatedItems r index =>
    exact (parallel_relatedItems ha (hself rfl) (hnext rfl)).map fun _ _ => rfl
  | relatedIndexes r item =>
    exact (parallel_relatedIndexes ha (hself rfl) (hnext rfl)).map fun _ _ => rfl
  | allRelatedItems r => exact (parallel_allRelatedItems ha (hself rfl)).map fun _ _ => rfl
  | allRelatedIndexes r => exact (parallel_allRelatedIndexes ha (hself rfl)).map fun _ _ => rfl
  | relationSupplier r index =>
    refine (parallel_relationSupplier ha (hself rfl)
      (fun f hf => (Operation.relationSupplier.inj (hop f hf)).2) fun x hx x' hx' => ?_).map
        fun _ _ => rfl
    cases hx
    cases hx'
    exact hnext rfl
  | remainingItems r => exact (parallel_remainingItems ha (hself rfl)).map fun _ _ => rfl
  | remainingIndexes r => exact (parallel_remainingIndexes ha (hself rfl)).map fun _ _ => rfl
  -- changes of objects
  | store r value index =>
    have hindex : s'.resolveIndex (index.rename π) = s.resolveIndex index :=
      resolveIndex_linked (hl π hπ) fun x hx =>
        hseen π hπ x (List.mem_cons_of_mem _ (List.mem_cons_of_mem _ hx))
    exact (parallel_store ha (hself rfl) (hnext rfl) hindex).map fun _ _ => rfl
  | removeAt r index =>
    have hindex : s'.resolveIndex (index.rename π) = s.resolveIndex index :=
      resolveIndex_linked (hl π hπ) fun x hx => hseen π hπ x (List.mem_cons_of_mem _ hx)
    exact (parallel_removeAt ha (hself rfl) hindex).map fun _ _ => rfl
  | append r value => exact (parallel_append ha (hself rfl) (hnext rfl)).map fun _ _ => rfl
  | appendAll r other => exact (parallel_appendAll ha (hself rfl) (hnext rfl)).map fun _ _ => rfl
  | insert r value target =>
    exact (parallel_insert ha (hself rfl)
      (fun f hf => (Operation.insert.inj (hop f hf)).2.1) target).map fun _ _ => rfl
  | insertAfter r value position =>
    exact (parallel_insert ha (hself rfl)
      (fun f hf => (Operation.insertAfter.inj (hop f hf)).2.1) _).map fun _ _ => rfl
  | delete r position => exact (parallel_delete ha (hself rfl) position).map fun _ _ => rfl
  | removeItem r value =>
    have hfound := indexOf_linked (hl π hπ) (hseen π hπ r (by simp [Operation.refs]))
      (hseen π hπ value (by simp [Operation.refs]))
    exact (parallel_removeItem ha (hself rfl) hfound).map fun _ _ => rfl
  | fill r value => exact (parallel_fill ha (hself rfl) (hnext rfl)).map fun _ _ => rfl
  | clearAll r => exact (parallel_clearAll ha (hself rfl)).map fun _ _ => rfl
  | sort r stable =>
    rw [Operation.rename, Operation.run, Operation.run, sort_eq, sort_eq]
    exact (parallel_sorting ha hl hfit (hself rfl) stable indifferent_natural ()).map fun _ _ => rfl
  | sortWith r stable comparator memory =>
    rw [Operation.rename, sortWith_eq, sortWith_eq]
    exact (parallel_sorting ha hl hfit (hself rfl) stable (indifferent_answered ht) memory).map
      fun _ _ => rfl
  | relate r item index =>
    have hindex := hpaired index (by simp [Operation.refs])
    exact (parallel_relate ha (hself rfl) (hnext rfl) hindex).map fun _ _ => rfl
  | unrelate r index => exact (parallel_unrelate ha (hself rfl) (hnext rfl)).map fun _ _ => rfl
  | unrelateItem r item index =>
    have hindex := hpaired index (by simp [Operation.refs])
    exact (parallel_unrelateItem ha (hself rfl) (hnext rfl) hindex).map fun _ _ => rfl
  | advance r => exact (parallel_advance ha (hself rfl)).map fun _ _ => rfl
  -- roots
  | root r => exact (parallel_root ha (hself rfl)).map fun _ _ => rfl
  | unroot r => exact (parallel_unroot ha (hself rfl)).map fun _ _ => rfl
  | tenure r => exact (parallel_tenure ha (hself rfl)).map fun _ _ => rfl

end Space

end Managed
