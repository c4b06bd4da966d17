import Managed.Proofs.SlotArray.Representation
import Managed.Proofs.Space.ArraySort
import Managed.Proofs.Space.Discipline

/-!
# What an operation can do

`Effect` lists what an operation can do to a space: it makes new objects, puts a changed array,
relation or supplier in place of an old one, makes an object old, changes the roots or collects. Of an
operation that fails it says more: apart from new objects there is at most an array with other spare
storage, one that a comparator has left half-sorted, or one that has taken some items and refused the
next. Every operation has one of these effects (`effect_run`). What holds in all spaces that a program
can get to is derived from this list.
-/

namespace Managed

/-- A sort that is not refused, so that only its comparator can make it fail. -/
def Operation.Compares (s : Space) : Operation → Prop
  | .sort r _ | .sortWith r _ _ _ => ∃ p, s.array r >>= SlotArray.detach = .ok p
  | _ => False

namespace Space

/-- The objects that an operation makes by itself. -/
inductive Made (s : Space) : Object → Prop where
  | string (text : String) : Made s (.string text)
  | supplier (x : Supplier) : Made s (.supplier x)
  | relation : Made s (.relation {})
  | array {a : SlotArray Ref} : a.Coherent → Made s (.array a)
  | copy {r : Ref} {a : SlotArray Ref} : s.array r = .ok a → Made s (.array a)

/-- From `s` one gets to `t` by making objects. -/
inductive Makes : Space → Space → Prop where
  | refl (s : Space) : Makes s s
  | alloc {s t : Space} {o : Object} {r : Ref} {heap : Heap Object} :
    s.Made o → s.heap.alloc o = .ok (r, heap) → Makes { s with heap } t → Makes s t

/-- What an operation that failed, or did not, puts in place of an object of the space `s`; it calls
the barrier for the handles in the list. -/
inductive Alters (s : Space) (op : Operation) : Bool → Object → Object → List Ref → Prop where
  | array {failed : Bool} {a c : SlotArray Ref} {handles : List Ref} :
    (a.Coherent → c.capacity < Word.max → c.Coherent) →
    (a.Padded → a.Shaped → failed = true →
      op.Compares s ∨ op.StopsHalfway s ∨ c.trimmed = a.trimmed) →
    Alters s op failed (.array a) (.array c) handles
  | relate {item index : Ref} {a : Relation} {itemKey key : RelationKey} :
    s.valueKey item = .ok itemKey → s.valueKey index = .ok key →
    Alters s op false (.relation a) (.relation (a.put item itemKey index key).2) [item, index]
  | unrelate {a : Relation} {key : RelationKey} {p : RelationEntry → Bool} :
    Alters s op false (.relation a) (.relation (a.removeWhere key p).2) []
  | advance {r : Ref} {a next : Supplier} :
    op = .advance r → Alters s op false (.supplier a) (.supplier next) []

/-- What an operation that failed, or did not, has done to the space `s`. -/
inductive Effect (s : Space) (op : Operation) : Bool → Space → Prop where
  | made {failed : Bool} {t : Space} : Makes s t → Effect s op failed t
  | given {o : Object} {r : Ref} {heap : Heap Object} :
    op = .alloc o → s.heap.alloc o = .ok (r, heap) → Effect s op false { s with heap }
  | altered {failed : Bool} {r : Ref} {old new : Object} {handles : List Ref} :
    s.heap.get? r = some old → Alters s op failed old new handles →
    Effect s op failed (s.stored r new handles)
  | tenured {r : Ref} {heap : Heap Object} :
    s.heap.tenure r = .ok heap → Effect s op false { s with heap }
  | rooted {roots : RootSet} :
    (∀ x ∈ roots.toList, x ∈ s.roots.toList ∨ x ∈ op.refs) → Effect s op false { s with roots }
  | collected {kind : CollectionKind} :
    op = .collect kind → Effect s op false { s with heap := s.heap.collect kind s.roots }

def failed {β : Type} : EStateM.Result Fault Space β → Bool
  | .ok _ _ => false
  | .error _ _ => true

/-- A computation that is part of an operation, or all of it, has one of the effects. -/
def Does {β : Type} (op : Operation) (s : Space) (m : SpaceM β) : Prop :=
  Effect s op (failed (m s)) (left (m s))

section

variable {β γ : Type} {op : Operation} {s t u : Space}

theorem Makes.trans (h : Makes s t) (h' : Makes t u) : Makes s u := by
  induction h with
  | refl => exact h'
  | alloc ho ha _ ih => exact .alloc ho ha (ih h')

theorem Makes.of_ok {m : SpaceM β} {b : β} (hm : Makes s (left (m s))) (h : m s = .ok b t) :
    Makes s t := by
  rwa [h] at hm

theorem does_map (f : β → γ) {m : SpaceM β} (h : Does op s m) : Does op s (f <$> m) := by
  simp only [Does, Functor.map, EStateM.map] at h ⊢
  cases hm : m s with
  | ok b t =>
    rw [hm] at h
    exact h
  | error e t =>
    rw [hm] at h
    exact h

theorem does_nothing {e : Fault} {m : SpaceM β} (h : m s = .error e s) : Does op s m := by
  rw [Does, h]
  exact .made (.refl s)

theorem does_ask {query : Space → Except Fault β} {k : β → SpaceM γ}
    (hk : ∀ b, query s = .ok b → Does op s (k b)) : Does op s (ask query >>= k) := by
  cases hq : query s with
  | error e => exact does_nothing (bind_of_error (by rw [ask, hq]))
  | ok b =>
    rw [Does, bind_of_ok (by rw [ask, hq])]
    exact hk b hq

/-! ## New objects -/

theorem makes_ask {query : Space → Except Fault β} {k : β → SpaceM γ}
    (hk : ∀ b, query s = .ok b → Makes s (left (k b s))) : Makes s (left ((ask query >>= k) s)) := by
  cases hq : query s with
  | error e =>
    rw [bind_of_error (by rw [ask, hq])]
    exact .refl s
  | ok b =>
    rw [bind_of_ok (by rw [ask, hq])]
    exact hk b hq

theorem makes_bind {m : SpaceM β} {k : β → SpaceM γ} (hm : Makes s (left (m s)))
    (hk : ∀ b t, Makes t (left (k b t))) : Makes s (left ((m >>= k) s)) := by
  cases h : m s with
  | error e t =>
    rw [h] at hm
    rwa [bind_of_error h]
  | ok b t =>
    rw [h] at hm
    rw [bind_of_ok h]
    exact hm.trans (hk b t)

theorem makes_alloc {o : Object} (ho : s.Made o) : Makes s (left (alloc o s)) := by
  unfold alloc
  split
  · next r heap ha => exact .alloc ho ha (.refl _)
  · exact .refl s

theorem makes_newString (text : String) (s : Space) : Makes s (left (newString text s)) :=
  makes_alloc (.string text)

theorem makes_mapM {make : β → SpaceM Ref} (hmake : ∀ b s, Makes s (left (make b s))) (bs : List β)
    (s : Space) : Makes s (left (bs.mapM make s)) := by
  induction bs generalizing s with
  | nil =>
    rw [List.mapM_nil]
    exact .refl s
  | cons b rest ih =>
    rw [List.mapM_cons]
    exact makes_bind (hmake b s) fun r t => makes_bind (ih t) fun rs u => .refl u

theorem makes_arrayOf (slots : List (Option Ref)) (s : Space) :
    Makes s (left (arrayOf slots s)) :=
  makes_ask fun _ ha => makes_alloc (.array (SlotArray.coherent_ofSlots ha))

theorem makes_arrayOfItems (items : List Ref) (s : Space) : Makes s (left (arrayOfItems items s)) :=
  makes_arrayOf _ s

theorem makes_arrayOfStrings (texts : List String) (s : Space) :
    Makes s (left (arrayOfStrings texts s)) :=
  makes_bind (makes_mapM makes_newString texts s) makes_arrayOfItems

theorem makes_indexObject (subscripts : List Nat) (s : Space) :
    Makes s (left (indexObject subscripts s)) := by
  unfold indexObject
  split
  · exact makes_newString _ s
  · exact makes_arrayOfStrings _ s

theorem makes_indexObjects (array : Ref) (s : Space) : Makes s (left (indexObjects array s)) :=
  makes_ask fun _ _ => makes_mapM makes_indexObject _ s

theorem makes_arraySupplier (array : Ref) (s : Space) : Makes s (left (arraySupplier array s)) :=
  makes_ask fun _ _ => makes_bind (makes_indexObjects array s) fun _ _ => makes_alloc (.supplier _)

theorem makes_newShapedArray (sizes : List Nat) (s : Space) :
    Makes s (left (newShapedArray sizes s)) := by
  refine makes_ask fun a ha => makes_alloc (.array ?_)
  obtain ⟨size, shape, rfl, _, hshaped⟩ := SlotArray.ofDimensions_eq_ok ha
  exact SlotArray.coherent_replicate hshaped

theorem makes_join (a b : Ref) (s : Space) : Makes s (left (join a b s)) := by
  refine makes_ask fun c hc => makes_alloc (.array ?_)
  obtain ⟨x, _, hc⟩ := bind_eq_ok hc
  obtain ⟨y, _, hc⟩ := bind_eq_ok hc
  exact SlotArray.coherent_ofSlots (SlotArray.join_eq_ok hc)

theorem makes_slice (array : Ref) (start : Nat) (count : Option Nat) (s : Space) :
    Makes s (left (slice array start count s)) := by
  refine makes_ask fun c hc => makes_alloc (.array ?_)
  obtain ⟨a, _, hc⟩ := bind_eq_ok hc
  rcases SlotArray.sliceFrom_eq_ok hc with rfl | ⟨stop, _, hc⟩
  · exact SlotArray.coherent_empty
  · exact SlotArray.coherent_ofSlots hc

theorem does_makes {m : SpaceM β} (f : β → γ) (h : Makes s (left (m s))) : Does op s (f <$> m) :=
  does_map f (.made h)

/-! ## Changes of arrays -/

variable {r : Ref}

/-- Work on an array, followed by barriers. If it fails, it leaves a consistent array as it was. -/
theorem does_changeArray (handles : List Ref) {work : ArrayLimits → ArrayM Ref β} {k : β → SpaceM γ}
    (hfail : ∀ a e c, work s.limits a = .error e c → a.Shaped → c = a)
    (hc : ∀ a b c, work s.limits a = .ok b c → a.Coherent → c.capacity < Word.max → c.Coherent)
    (hk : ∀ b t, ∃ c, k b t = .ok c (t.barriers r handles)) :
    Does op s (changeArray r work >>= k) := by
  cases ha : s.array r with
  | error e => exact does_nothing (bind_of_error (changeArray_of_missing ha work))
  | ok a =>
    have hobj := array_eq_ok.mp ha
    have hchange := changeArray_eq ha work
    cases hw : work s.limits a with
    | error e c =>
      rw [hw] at hchange
      rw [Does, bind_of_error hchange, left, ← stored_nil]
      refine .altered hobj (.array (fun hcoh _ => ?_) fun _ hshaped _ => ?_)
      · rwa [hfail a e c hw hcoh.shaped]
      · rw [hfail a e c hw hshaped]
        exact Or.inr (Or.inr rfl)
    | ok b c =>
      rw [hw] at hchange
      obtain ⟨answer, hanswer⟩ := hk b (s.setObject r (.array c))
      rw [Does, bind_of_ok hchange, hanswer, left, barriers, ← stored_of_live hobj]
      exact .altered hobj (.array (hc a b c hw) fun _ _ h => absurd h Bool.false_ne_true)

theorem does_changeArray_self {work : ArrayLimits → ArrayM Ref β} (hfail : (work s.limits).Restores)
    (hc : ∀ a b c, work s.limits a = .ok b c → a.Coherent → c.capacity < Word.max → c.Coherent) :
    Does op s (changeArray r work) := by
  rw [← bind_pure (changeArray r work)]
  exact does_changeArray [] (fun a e c h _ => hfail a e c h) hc fun b t => ⟨b, rfl⟩

theorem does_clear (p : Nat) : Does op s (changeArray r fun _ => ArrayM.clear p) := by
  refine does_changeArray_self (ArrayM.succeeds_clear p).restores fun a b c hc hcoh hroom => ?_
  cases hc
  exact SlotArray.coherent_result (c := .clear p) hcoh trivial rfl hroom

theorem does_store (value : Ref) (index : ArrayIndex) : Does op s (store r value index) := by
  refine does_ask fun subscripts _ => does_changeArray [value] ?_ ?_ fun _ t => ⟨(), rfl⟩
  · intro a e c hc hshaped
    exact ArrayM.store_error hshaped hc
  · intro a _ c hc hcoh hroom
    obtain ⟨p, b, hb, rfl⟩ := ArrayM.store_eq_ok hc
    rw [SlotArray.capacity_put] at hroom
    have hb' : SlotArray.Change.result a (.validateIndex subscripts .write s.limits) = .ok b := by
      rw [SlotArray.Change.result, hb]
      rfl
    have hpos := SlotArray.validateIndex_pos hcoh.padded hb hcoh.shaped hroom rfl
    have hlt := SlotArray.validateIndex_position hcoh.padded hb hcoh.shaped hroom rfl
    have hcoh' := SlotArray.coherent_result (c := .validateIndex subscripts .write s.limits) hcoh
      trivial hb' hroom
    refine SlotArray.coherent_result (c := .put p (some value)) hcoh' ⟨hpos, by omega⟩ rfl ?_
    rwa [SlotArray.capacity_put]

theorem does_removeAt (index : ArrayIndex) : Does op s (removeAt r index) := by
  refine does_ask fun subscripts _ => does_changeArray_self (ArrayM.restores_remove subscripts) ?_
  intro a b c hc hcoh hroom
  rcases ArrayM.remove_eq_ok hc with ⟨p, _, _, rfl⟩ | ⟨_, _, rfl⟩
  · exact SlotArray.coherent_result (c := .clear p) hcoh trivial rfl hroom
  · exact hcoh

theorem does_append (value : Ref) : Does op s (append r value) := by
  refine does_changeArray [value] ?_ ?_ fun position t => ⟨position, rfl⟩
  · exact fun a e c h _ => ArrayM.restores_append value s.limits a e c h
  · intro a b c hc hcoh hroom
    refine SlotArray.coherent_result (c := .append value s.limits) hcoh trivial ?_ hroom
    rw [SlotArray.Change.result, SlotArray.append, ArrayM.outcome_of_ok hc]
    rfl

theorem does_insert (value : Option Ref) (target : InsertAt) : Does op s (insert r value target) := by
  refine does_changeArray value.toList ?_ ?_ fun position t => ?_
  · exact fun a e c h _ => ArrayM.restores_insert value target s.limits a e c h
  · intro a b c hc hcoh hroom
    refine SlotArray.coherent_result (c := .insert value target s.limits) hcoh trivial ?_ hroom
    rw [SlotArray.Change.result, SlotArray.insert, ArrayM.outcome_of_ok hc]
    rfl
  · cases value <;> exact ⟨position, rfl⟩

theorem does_delete (position : Nat) : Does op s (delete r position) := by
  refine does_changeArray_self (ArrayM.restores_delete position) fun a b c hc hcoh hroom => ?_
  refine SlotArray.coherent_result (c := .delete position) hcoh trivial ?_ hroom
  rw [SlotArray.Change.result, SlotArray.delete, ArrayM.outcome_of_ok hc]
  rfl

theorem does_removeItem (value : Ref) : Does op s (removeItem r value) := by
  refine does_ask fun found _ => ?_
  cases found with
  | none => exact .made (.refl s)
  | some p => exact does_clear p

theorem does_fill (value : Ref) : Does op s (fill r value) := by
  refine does_changeArray [value] ?_ ?_ fun _ t => ⟨(), rfl⟩
  · exact fun a e c h _ => (ArrayM.succeeds_modify _).restores a e c h
  · intro a _ c hc hcoh hroom
    cases hc
    exact SlotArray.coherent_result (c := .fill value) hcoh trivial rfl hroom

theorem does_clearAll : Does op s (clearAll r) := by
  refine does_changeArray_self (ArrayM.succeeds_modify _).restores fun a _ c hc hcoh hroom => ?_
  cases hc
  exact SlotArray.coherent_result (c := .clearAll) hcoh trivial rfl hroom

/-- A sort, of which a comparator may have left any arrangement. -/
theorem does_sorting {σ : Type} {stable : Bool} {compare : Space → Sorting.Comparator Fault σ Ref}
    {memory : σ} (hop : ∀ p, s.array r >>= SlotArray.detach = .ok p → op.Compares s) :
    Does op s (sorting r stable compare memory) := by
  cases hd : s.array r >>= SlotArray.detach with
  | error e => exact does_nothing (sorting_of_error hd _ _ _)
  | ok p =>
    obtain ⟨a, ha, hdetach⟩ := bind_eq_ok hd
    rw [Does, left_sorting ha hdetach, ← stored_nil]
    refine .altered (array_eq_ok.mp ha) (.array (fun hcoh hroom => ?_) fun _ _ _ => Or.inl (hop p hd))
    exact SlotArray.coherent_result (c := .sort stable _ memory) hcoh trivial rfl hroom

/-! ## All items of another array -/

end

end Space

theorem SlotArray.Appended.coherent {α : Type} {limits : ArrayLimits} {a c : SlotArray α}
    {items : List α} (h : Appended limits a items c) (ha : a.Coherent)
    (hroom : c.capacity < Word.max) : c.Coherent := by
  induction h with
  | nil => exact ha
  | @cons a b c x items position head rest ih =>
    refine ih (coherent_result (c := .append x limits) ha trivial ?_ ?_) hroom
    · rw [Change.result, head]
      rfl
    · exact Nat.lt_of_le_of_lt rest.capacity_le hroom

namespace Space

section

variable {β γ : Type} {op : Operation} {s t u : Space} {r : Ref}

theorem does_appendAll (other : Ref) : Does (.appendAll r other) s (appendAll r other) := by
  cases hb : s.array other with
  | error e => exact does_nothing (bind_of_error (by rw [ask, hb]))
  | ok b =>
    cases ha : s.array r with
    | error e =>
      have hask : ask (·.array other) s = .ok b s := by rw [ask, hb]
      rw [Does, appendAll, bind_of_ok hask, bind_of_error (changeArray_of_missing ha _)]
      exact .made (.refl s)
    | ok a =>
      have hobj := array_eq_ok.mp ha
      have hcoherent : ∀ taken c d,
          a.ensureSpace (Word.addSat a.last b.allItems.length) s.limits = .ok c →
          SlotArray.Appended s.limits c taken d → a.Coherent → d.capacity < Word.max → d.Coherent := by
        intro taken c d hc hd hcoh hroom
        refine hd.coherent ?_ hroom
        exact SlotArray.coherent_result (c := .ensureSpace _ s.limits) hcoh trivial hc
          (Nat.lt_of_le_of_lt hd.capacity_le hroom)
      rw [Does, appendAll_eq ha hb]
      rcases ArrayM.appendAll_cases b.allItems s.limits a with
        ⟨c, d, hc, hd, hrun⟩ | ⟨e, hrun⟩ | ⟨e, c, hc, hrun⟩ |
        ⟨e, c, d, taken, hstops, _, _, hc, hd, hrun⟩
      · rw [hrun]
        exact .altered hobj (.array (hcoherent _ c d hc hd) fun _ _ h => absurd h Bool.false_ne_true)
      · rw [hrun, left, ← stored_nil]
        exact .altered hobj (.array (fun hcoh _ => hcoh) fun _ _ _ => Or.inr (Or.inr rfl))
      · rw [hrun, left, ← stored_nil]
        refine .altered hobj (.array (hcoherent [] c c hc (.nil c)) fun hpad _ _ => Or.inr (Or.inr ?_))
        cases SlotArray.ensureSpace_eq_ok hc
        exact SlotArray.trimmed_withRoom hpad _ _
      · rw [hrun, left, ← stored_nil]
        exact .altered hobj (.array (hcoherent taken c d hc hd) fun _ _ _ =>
          Or.inr (Or.inl ⟨a, b, ha, hb, hstops⟩))

/-! ## Changes of other objects -/

theorem does_relate (item index : Ref) : Does op s (relate r item index) := by
  refine does_ask fun itemKey hitem => does_ask fun key hkey => ?_
  cases ha : s.relation r with
  | error e => exact does_nothing (bind_of_error (by rw [changeRelation, ha]))
  | ok a =>
    have hobj := relation_eq_ok.mp ha
    rw [Does, bind_of_ok (by rw [changeRelation, ha])]
    change Effect s op false ((s.setObject r _).barriers r [item, index])
    rw [barriers, ← stored_of_live hobj]
    exact .altered hobj (.relate hitem hkey)

theorem does_removeWhere (key : RelationKey) (p : RelationEntry → Bool) :
    Does op s (changeRelation r (·.removeWhere key p)) := by
  cases ha : s.relation r with
  | error e => exact does_nothing (by rw [changeRelation, ha])
  | ok a =>
    simp only [Does, changeRelation, ha, left]
    rw [← stored_nil]
    exact .altered (relation_eq_ok.mp ha) .unrelate

theorem does_advance : Does (.advance r) s (advance r) := by
  cases hn : s.supplier r >>= Supplier.next with
  | error e => exact does_nothing (by rw [advance, hn])
  | ok next =>
    obtain ⟨a, ha, _⟩ := bind_eq_ok hn
    simp only [Does, advance, hn, left]
    rw [← stored_nil]
    exact .altered (supplier_eq_ok.mp ha) (.advance rfl)

theorem does_unroot : Does op s (unroot r) := by
  simp only [Does, unroot]
  cases hr : s.roots.removeGlobal? r with
  | none => exact .made (.refl s)
  | some roots => exact .rooted fun x hx => Or.inl (RootSet.mem_of_removeGlobal? hr hx)

theorem does_tenure : Does op s (tenure r) := by
  simp only [Does, tenure]
  cases hr : s.heap.tenure r with
  | error e => exact .made (.refl s)
  | ok heap => exact .tenured hr

theorem does_alloc (o : Object) : Does (.alloc o) s (alloc o) := by
  simp only [Does, alloc]
  cases ha : s.heap.alloc o with
  | error e => exact .made (.refl s)
  | ok p => exact .given rfl ha

end

/-- Every operation has one of the effects. -/
theorem effect_run (op : Operation) (s : Space) :
    Effect s op (failed (op.run s)) (left (op.run s)) := by
  cases op with
  | query q =>
    refine .made ?_
    rw [Operation.run, left_ask]
    exact .refl s
  | alloc o => exact does_map _ (does_alloc o)
  | newString text => exact does_makes _ (makes_newString text s)
  | newArray size => exact does_makes _ (makes_newShapedArray [size] s)
  | newShapedArray sizes => exact does_makes _ (makes_newShapedArray sizes s)
  | arrayOf slots => exact does_makes _ (makes_arrayOf slots s)
  | arrayOfStrings texts => exact does_makes _ (makes_arrayOfStrings texts s)
  | newRelation => exact does_makes _ (makes_alloc .relation)
  | allItems r => exact does_makes _ (makes_ask fun _ _ => makes_arrayOfItems _ s)
  | allIndexes r => exact does_makes _ (makes_bind (makes_indexObjects r s) makes_arrayOfItems)
  | arraySupplier r => exact does_makes _ (makes_arraySupplier r s)
  | copy r => exact does_makes _ (makes_ask fun _ ha => makes_alloc (.copy ha))
  | join a b => exact does_makes _ (makes_join a b s)
  | slice r start count => exact does_makes _ (makes_slice r start count s)
  | relatedItems r index =>
    exact does_makes _ (makes_ask fun _ _ => makes_ask fun _ _ => makes_arrayOfItems _ s)
  | relatedIndexes r item =>
    exact does_makes _ (makes_ask fun _ _ => makes_ask fun _ _ => makes_arrayOfItems _ s)
  | allRelatedItems r => exact does_makes _ (makes_ask fun _ _ => makes_arrayOfItems _ s)
  | allRelatedIndexes r => exact does_makes _ (makes_ask fun _ _ => makes_arrayOfItems _ s)
  | relationSupplier r index =>
    exact does_makes _ (makes_ask fun _ _ => makes_alloc (.supplier _))
  | remainingItems r => exact does_makes _ (makes_ask fun _ _ => makes_arrayOfItems _ s)
  | remainingIndexes r => exact does_makes _ (makes_ask fun _ _ => makes_arrayOfItems _ s)
  | store r value index => exact does_map _ (does_store value index)
  | removeAt r index => exact does_map _ (does_removeAt index)
  | append r value => exact does_map _ (does_append value)
  | appendAll r other => exact does_map _ (does_appendAll other)
  | insert r value target => exact does_map _ (does_insert value target)
  | insertAfter r value position => exact does_map _ (does_insert value _)
  | delete r position => exact does_map _ (does_delete position)
  | removeItem r value => exact does_map _ (does_removeItem value)
  | fill r value => exact does_map _ (does_fill value)
  | clearAll r => exact does_map _ does_clearAll
  | sort r stable =>
    rw [Operation.run, sort_eq]
    exact does_map _ (does_sorting fun p hp => ⟨p, hp⟩)
  | sortWith r stable comparator memory =>
    rw [sortWith_eq]
    exact does_map _ (does_sorting fun p hp => ⟨p, hp⟩)
  | relate r item index => exact does_map _ (does_relate item index)
  | unrelate r index => exact does_map _ (does_ask fun key _ => does_removeWhere key _)
  | unrelateItem r item index =>
    exact does_map _ (does_ask fun _ _ => does_ask fun key _ => does_removeWhere key _)
  | advance r => exact does_map _ does_advance
  | root r =>
    refine .rooted fun x hx => ?_
    simp only [RootSet.addGlobal, RootSet.toList, Array.toList_push, List.mem_append,
      List.mem_singleton] at hx ⊢
    rcases hx with hx | hx | rfl
    · exact Or.inl (Or.inl hx)
    · exact Or.inl (Or.inr hx)
    · exact Or.inr List.mem_cons_self
  | unroot r => exact does_map _ does_unroot
  | tenure r => exact does_map _ does_tenure
  | collect kind =>
    cases kind with
    | minor => exact .collected rfl
    | major => exact .collected rfl

/-! ## The heap after an effect -/

section

variable {op : Operation} {s t : Space} {ended : Bool}

theorem get?_stored (ht : s.heap.Tidy) {r : Ref} {old : Object} (hr : s.heap.get? r = some old)
    (o : Object) (handles : List Ref) (x : Ref) :
    (s.stored r o handles).heap.get? x = if x = r then some o else s.heap.get? x := by
  have ht' : (s.setObject r o).heap.Tidy := by
    rw [setObject_of_live hr]
    exact Heap.tidy_modifyEntry ht r (fun _ => rfl) fun _ => rfl
  rw [stored_of_live hr, (Heap.foldl_writeBarrier ht'.recorded r handles).1.get?, get?_setObject hr]

theorem tidy_stored (ht : s.heap.Tidy) (r : Ref) (o : Object) (handles : List Ref) :
    (s.stored r o handles).heap.Tidy :=
  Heap.tidy_onHeap ht s.roots (.store r o handles)

theorem tidy_makes (h : Makes s t) (ht : s.heap.Tidy) : t.heap.Tidy := by
  induction h with
  | refl => exact ht
  | alloc _ ha _ ih => exact ih ((Heap.alloc_cases ha ht.free_vacant).tidy ht)

theorem tidy_effect (h : Effect s op ended t) (ht : s.heap.Tidy) : t.heap.Tidy := by
  cases h with
  | made hm => exact tidy_makes hm ht
  | given _ ha => exact (Heap.alloc_cases ha ht.free_vacant).tidy ht
  | altered _ _ => exact tidy_stored ht _ _ _
  | @tenured r heap hten =>
    have htenure := Heap.tidy_onHeap ht s.roots (.tenure r)
    rwa [Action.onHeap, hten] at htenure
  | rooted _ => exact ht
  | @collected kind _ => exact Heap.tidy_collect ht kind s.roots

/-- What is there stays there when objects are made. -/
theorem Makes.get? (h : Makes s t) (ht : s.heap.Tidy) {x : Ref} {o : Object}
    (hx : s.heap.get? x = some o) : t.heap.get? x = some o := by
  induction h with
  | refl => exact hx
  | alloc _ ha _ ih =>
    have halloc := Heap.alloc_cases ha ht.free_vacant
    exact ih (halloc.tidy ht) (halloc.get?_of_get? hx)

theorem contains_stored (ht : s.heap.Tidy) (r : Ref) (o : Object) (handles : List Ref) (x : Ref) :
    (s.stored r o handles).heap.contains x = s.heap.contains x :=
  (Heap.samePlaces_onHeap s.heap s.roots (a := .store r o handles) ht (fun _ h => by cases h)
    fun _ h => by cases h).contains x

/-- Objects are freed by collections only. -/
theorem contains_effect (h : Effect s op ended t) (ht : s.heap.Tidy)
    (hop : ∀ kind, op ≠ .collect kind) {x : Ref} (hx : s.heap.contains x = true) :
    t.heap.contains x = true := by
  cases h with
  | made hm =>
    obtain ⟨o, ho⟩ := Heap.contains_iff_get?.mp hx
    exact Heap.contains_iff_get?.mpr ⟨o, hm.get? ht ho⟩
  | given _ ha => exact (Heap.alloc_cases ha ht.free_vacant).contains_of_contains hx
  | altered _ _ => rwa [contains_stored ht]
  | @tenured r heap hten =>
    have hplaces := Heap.samePlaces_onHeap s.heap s.roots (a := .tenure r) ht (fun _ h => by cases h)
      fun _ h => by cases h
    rw [Action.onHeap, hten] at hplaces
    rwa [hplaces.contains]
  | rooted _ => exact hx
  | @collected kind hk => exact absurd hk (hop kind)

theorem Makes.roots (h : Makes s t) : t.roots = s.roots := by
  induction h with
  | refl => rfl
  | alloc _ _ _ ih => exact ih

/-- A new root was given to the operation. -/
theorem roots_effect (h : Effect s op ended t) {x : Ref} (hx : x ∈ t.roots.toList) :
    x ∈ s.roots.toList ∨ x ∈ op.refs := by
  cases h with
  | made hm =>
    rw [hm.roots] at hx
    exact Or.inl hx
  | rooted hroots => exact hroots x hx
  | given _ _ => exact Or.inl hx
  | altered _ _ => exact Or.inl hx
  | tenured _ => exact Or.inl hx
  | collected _ => exact Or.inl hx

end

end Space

end Managed
