import Managed.Proofs.Space.Barriers

/-!
# What operations answer

An answer gives no handles but those that the operation was given, that objects hold, or that it has
just made. Together with the lawful moves this is `obeys_run`: whatever an operation does, collections
and changes of the roots apart, it moves lawfully and gives only handles that may then be used.
-/

namespace Managed

theorem SlotArray.mem_allItems_of_get? {α : Type} {a : SlotArray α} {position : Nat} {x : α}
    (hx : a.get? position = some x) : x ∈ a.allItems := by
  have hin : 1 ≤ position ∧ position ≤ a.size := by
    unfold get? at hx
    split at hx
    · cases hx
    · omega
  rw [get?_eq a hin.1 hin.2] at hx
  exact mem_allItems.mpr ⟨position - 1, by omega, hx⟩

theorem SlotArray.mem_allItems_of_clear {α : Type} {a : SlotArray α} {position : Nat} {x : α}
    (hx : (a.clear position).1 = some x) : x ∈ a.allItems := by
  unfold clear at hx
  split at hx
  · next y hy =>
    cases hx
    exact mem_allItems_of_get? hy
  · cases hx

theorem SlotArray.mem_allItems_of_delete {α : Type} {a b : SlotArray α} {position : Nat}
    {found : Option α} (h : a.delete position = .ok (found, b)) {x : α} (hx : found = some x) :
    x ∈ a.allItems := by
  rw [delete_eq] at h
  obtain ⟨_, _, h⟩ := bind_eq_ok h
  obtain ⟨_, _, h⟩ := bind_eq_ok h
  cases h
  exact mem_allItems_of_clear hx

theorem Relation.mem_refs_of_removed {a : Relation} {key : RelationKey} {p : RelationEntry → Bool}
    {x : Ref} (hx : (a.removeWhere key p).1 = some x) : x ∈ Traced.refs a := by
  unfold removeWhere at hx
  split at hx
  · cases hx
  · next e he =>
    cases hx
    exact item_mem_refs (mem_entries_of_entriesAt (List.mem_of_find?_eq_some he))

namespace Space

variable {brought : Nat} {known : List Ref} {s : Space}

/-! ## Questions -/

/-- What a question answers is among the handles that it was given or that objects hold. -/
theorem refs_answer (hg : Grounded known s) {q : Query} (hrefs : ∀ x ∈ q.refs, x ∈ known)
    {a : Answer} (h : q.answer s = .ok a) : ∀ x ∈ a.refs, x ∈ known := by
  intro x hx
  cases q with
  | object r =>
    obtain ⟨o, ho, h⟩ := bind_eq_ok h
    cases h
    exact hg.known_of_refs (get_eq_ok.mp ho) hx
  | array r =>
    obtain ⟨b, hb, h⟩ := bind_eq_ok h
    cases h
    exact hg.known_of_allItems hb hx
  | relation r =>
    obtain ⟨b, hb, h⟩ := bind_eq_ok h
    cases h
    exact hg.known_of_relation hb hx
  | supplier r =>
    obtain ⟨b, hb, h⟩ := bind_eq_ok h
    cases h
    exact hg.known_of_supplier hb hx
  | valueKey r =>
    obtain ⟨key, hkey, h⟩ := bind_eq_ok h
    cases h
    obtain ⟨o, _, hkey⟩ := bind_eq_ok hkey
    cases o with
    | string text =>
      cases hkey
      cases hx
    | _ =>
      cases hkey
      exact hrefs x hx
  | itemAt r index =>
    obtain ⟨found, hfound, h⟩ := bind_eq_ok h
    cases h
    obtain ⟨subscripts, _, hfound⟩ := bind_eq_ok hfound
    obtain ⟨b, hb, hfound⟩ := bind_eq_ok hfound
    obtain ⟨position, _, hfound⟩ := bind_eq_ok hfound
    cases hfound
    obtain ⟨p, _, hp⟩ := Option.bind_eq_some_iff.mp (Option.mem_toList.mp hx)
    exact hg.known_of_allItems hb (SlotArray.mem_allItems_of_get? hp)
  | firstItem r =>
    obtain ⟨found, hfound, h⟩ := bind_eq_ok h
    cases h
    obtain ⟨b, hb, hfound⟩ := bind_eq_ok hfound
    cases hfound
    obtain ⟨p, _, hp⟩ := Option.bind_eq_some_iff.mp (Option.mem_toList.mp hx)
    exact hg.known_of_allItems hb (SlotArray.mem_allItems_of_get? hp)
  | lastItem r =>
    obtain ⟨found, hfound, h⟩ := bind_eq_ok h
    cases h
    obtain ⟨b, hb, hfound⟩ := bind_eq_ok hfound
    cases hfound
    obtain ⟨p, _, hp⟩ := Option.bind_eq_some_iff.mp (Option.mem_toList.mp hx)
    exact hg.known_of_allItems hb (SlotArray.mem_allItems_of_get? hp)
  | relatedItem r index =>
    obtain ⟨found, hfound, h⟩ := bind_eq_ok h
    cases h
    obtain ⟨key, _, hfound⟩ := bind_eq_ok hfound
    obtain ⟨b, hb, hfound⟩ := bind_eq_ok hfound
    cases hfound
    obtain ⟨e, he, rfl⟩ := Option.map_eq_some_iff.mp (Option.mem_toList.mp hx)
    have hentry := Relation.mem_entries_of_entriesAt (List.mem_of_mem_head? he)
    exact hg.known_of_relation hb (Relation.item_mem_refs hentry)
  | relatedIndex r item =>
    obtain ⟨found, hfound, h⟩ := bind_eq_ok h
    cases h
    obtain ⟨key, _, hfound⟩ := bind_eq_ok hfound
    obtain ⟨b, hb, hfound⟩ := bind_eq_ok hfound
    cases hfound
    obtain ⟨e, he, rfl⟩ := Option.map_eq_some_iff.mp (Option.mem_toList.mp hx)
    exact hg.known_of_relation hb (Relation.index_mem_refs (List.mem_of_find?_eq_some he))
  | suppliedItem r =>
    obtain ⟨y, hy, h⟩ := bind_eq_ok h
    cases h
    obtain ⟨b, hb, hitem⟩ := bind_eq_ok hy
    obtain rfl := List.mem_singleton.mp hx
    exact hg.known_of_supplier hb (Supplier.mem_refs_of_item hitem)
  | suppliedIndex r =>
    obtain ⟨y, hy, h⟩ := bind_eq_ok h
    cases h
    obtain ⟨b, hb, hindex⟩ := bind_eq_ok hy
    obtain rfl := List.mem_singleton.mp hx
    exact hg.known_of_supplier hb (Supplier.mem_refs_of_index hindex)
  | generation r =>
    simp only [Query.answer] at h
    split at h
    · cases h
      cases hx
    · cases h
  | contains r =>
    cases h
    cases hx
  | live =>
    cases h
    cases hx
  | spaceEmpty =>
    cases h
    cases hx
  | collectionDue =>
    cases h
    cases hx
  | tally =>
    cases h
    cases hx
  | _ =>
    -- the answer is made from one result and gives no handles
    obtain ⟨_, _, h⟩ := bind_eq_ok h
    cases h
    cases hx

/-! ## Removals -/

section

variable {β γ : Type} {r : Ref} {t : Space}

theorem changeArray_eq_ok {work : ArrayLimits → ArrayM Ref β} {b : β}
    (h : changeArray r work s = .ok b t) :
    ∃ a c, s.array r = .ok a ∧ work s.limits a = .ok b c ∧ t = s.setObject r (.array c) := by
  cases ha : s.array r with
  | error e =>
    rw [changeArray_of_missing ha] at h
    cases h
  | ok a =>
    rw [changeArray_eq ha] at h
    cases hc : work s.limits a with
    | error e c =>
      rw [hc] at h
      cases h
    | ok b c =>
      rw [hc] at h
      cases h
      exact ⟨a, c, rfl, hc, rfl⟩

theorem changeRelation_eq_ok {change : Relation → β × Relation} {b : β}
    (h : changeRelation r change s = .ok b t) : ∃ a, s.relation r = .ok a ∧ (change a).1 = b := by
  unfold changeRelation at h
  split at h
  · next a ha =>
    cases h
    exact ⟨a, ha, rfl⟩
  · cases h

theorem ask_bind_eq_ok {query : Space → Except Fault β} {k : β → SpaceM γ} {c : γ}
    (h : (ask query >>= k) s = .ok c t) : ∃ b, query s = .ok b ∧ k b s = .ok c t := by
  cases hb : query s with
  | error e =>
    rw [bind_of_error (by rw [ask, hb])] at h
    cases h
  | ok b =>
    rw [bind_of_ok (by rw [ask, hb])] at h
    exact ⟨b, rfl, h⟩

variable {found : Option Ref} (hg : Grounded known s)
include hg

theorem refs_removeAt {index : ArrayIndex} (h : removeAt r index s = .ok found t) :
    ∀ x ∈ (Answer.found found).refs, x ∈ known := by
  intro x hx
  obtain ⟨subscripts, _, h⟩ := ask_bind_eq_ok h
  obtain ⟨a, c, ha, hc, _⟩ := changeArray_eq_ok h
  rcases ArrayM.remove_eq_ok hc with ⟨p, _, hfound, _⟩ | ⟨_, hfound, _⟩
  · rw [Option.mem_toList.mp hx] at hfound
    exact hg.known_of_allItems ha (SlotArray.mem_allItems_of_clear hfound.symm)
  · rw [hfound] at hx
    cases hx

theorem refs_delete {position : Nat} (h : delete r position s = .ok found t) :
    ∀ x ∈ (Answer.found found).refs, x ∈ known := by
  intro x hx
  obtain ⟨a, c, ha, hc, _⟩ := changeArray_eq_ok h
  exact hg.known_of_allItems ha
    (SlotArray.mem_allItems_of_delete (ArrayM.outcome_of_ok hc) (Option.mem_toList.mp hx))

theorem refs_removeItem {value : Ref} (h : removeItem r value s = .ok found t) :
    ∀ x ∈ (Answer.found found).refs, x ∈ known := by
  intro x hx
  obtain ⟨position, _, h⟩ := ask_bind_eq_ok h
  cases position with
  | none =>
    cases h
    cases hx
  | some p =>
    obtain ⟨a, c, ha, hc, _⟩ := changeArray_eq_ok h
    cases hc
    exact hg.known_of_allItems ha (SlotArray.mem_allItems_of_clear (Option.mem_toList.mp hx))

theorem refs_unrelate {index : Ref} (h : unrelate r index s = .ok found t) :
    ∀ x ∈ (Answer.found found).refs, x ∈ known := by
  intro x hx
  obtain ⟨key, _, h⟩ := ask_bind_eq_ok h
  obtain ⟨a, ha, hremoved⟩ := changeRelation_eq_ok h
  rw [Option.mem_toList.mp hx] at hremoved
  exact hg.known_of_relation ha (Relation.mem_refs_of_removed hremoved)

theorem refs_unrelateItem {item index : Ref} (h : unrelateItem r item index s = .ok found t) :
    ∀ x ∈ (Answer.found found).refs, x ∈ known := by
  intro x hx
  obtain ⟨itemKey, _, h⟩ := ask_bind_eq_ok h
  obtain ⟨key, _, h⟩ := ask_bind_eq_ok h
  obtain ⟨a, ha, hremoved⟩ := changeRelation_eq_ok h
  rw [Option.mem_toList.mp hx] at hremoved
  exact hg.known_of_relation ha (Relation.mem_refs_of_removed hremoved)

end

end Space

/-! ## All operations -/

/-- An array that is handed to a space as a new object is consistent and has at most `bound` slots. -/
def Operation.Suits (bound : Nat) : Operation → Prop
  | .alloc o => o.Fits bound
  | _ => True

/-- The array to which all items of another are appended takes some of them and refuses the next. -/
def Operation.StopsHalfway (s : Space) : Operation → Prop
  | .appendAll array other => ∃ a b, s.array array = .ok a ∧ s.array other = .ok b ∧
      a.StopsHalfway b.allItems.length s.limits
  | _ => False

/-- Neither a collection nor a change of the roots. -/
def Operation.Quiet : Operation → Prop
  | .root _ | .unroot _ | .collect _ => False
  | _ => True

/-- All handles of an answer are known. -/
def Answer.Gives (known : List Ref) (_ : Space) (a : Answer) : Prop :=
  ∀ x ∈ a.refs, x ∈ known

namespace Space

variable {brought : Nat} {known : List Ref} {s : Space}

theorem gives_ref {known' : List Ref} {t : Space} {r : Ref} (hr : r ∈ known') :
    (Answer.ref r).Gives known' t := by
  intro x hx
  rwa [List.mem_singleton.mp hx]

section

variable {β : Type} {m : SpaceM β} {g : β → Answer}

theorem obeys_of_moves (h : Moves brought known s known (left (m s)))
    (hg : ∀ b t, m s = .ok b t → ∀ x ∈ (g b).refs, x ∈ known) :
    Obeys brought known s (g <$> m) Answer.Gives := by
  have hm : Obeys brought known s m fun known' _ b => ∀ x ∈ (g b).refs, x ∈ known' := ⟨known, h, hg⟩
  exact hm.map fun _ _ _ hb => hb

/-- An operation whose answer gives no handles. -/
theorem obeys_silent (h : Moves brought known s known (left (m s))) (hg : ∀ b, (g b).refs = []) :
    Obeys brought known s (g <$> m) Answer.Gives := by
  refine obeys_of_moves h fun b t _ x hx => ?_
  rw [hg] at hx
  cases hx

end

theorem obeys_run (hg : Grounded known s) (hfit : s.Fit brought) {op : Operation}
    (hrefs : ∀ x ∈ op.refs, x ∈ known) (hsuits : op.Suits (s.bound brought))
    (hwhole : ¬op.StopsHalfway s) (hquiet : op.Quiet) :
    Obeys brought known s op.run Answer.Gives := by
  have hself : ∀ {r : Ref} {rest : List Ref}, op.refs = r :: rest → r ∈ known := by
    intro r rest heq
    exact hrefs r (by simp [heq])
  have hnext : ∀ {r x : Ref} {rest : List Ref}, op.refs = r :: x :: rest → x ∈ known := by
    intro r x rest heq
    exact hrefs x (by simp [heq])
  cases op with
  | root r => cases hquiet
  | unroot r => cases hquiet
  | collect kind => cases hquiet
  | query q =>
    rw [Operation.run, ← bind_pure (ask q.answer)]
    exact obeys_ask fun a ha => obeys_pure (refs_answer hg hrefs ha)
  -- new objects
  | alloc o => exact (obeys_alloc hrefs fun _ => hsuits).map fun _ _ _ => gives_ref
  | newString text => exact (obeys_newString text).map fun _ _ _ => gives_ref
  | newArray size => exact (obeys_newArray size).map fun _ _ _ => gives_ref
  | newShapedArray sizes => exact (obeys_newShapedArray sizes).map fun _ _ _ => gives_ref
  | arrayOf slots => exact (obeys_arrayOf hrefs).map fun _ _ _ => gives_ref
  | arrayOfStrings texts => exact (obeys_arrayOfStrings texts).map fun _ _ _ => gives_ref
  | newRelation => exact obeys_newRelation.map fun _ _ _ => gives_ref
  | allItems r => exact (obeys_allItems hg r).map fun _ _ _ => gives_ref
  | allIndexes r => exact (obeys_allIndexes r).map fun _ _ _ => gives_ref
  | arraySupplier r => exact (obeys_arraySupplier hg r).map fun _ _ _ => gives_ref
  | copy r => exact (obeys_copy hg hfit r).map fun _ _ _ => gives_ref
  | join a b => exact (obeys_join hg a b).map fun _ _ _ => gives_ref
  | slice r start count => exact (obeys_slice hg r start count).map fun _ _ _ => gives_ref
  | relatedItems r index => exact (obeys_relatedItems hg r index).map fun _ _ _ => gives_ref
  | relatedIndexes r item => exact (obeys_relatedIndexes hg r item).map fun _ _ _ => gives_ref
  | allRelatedItems r => exact (obeys_allRelatedItems hg r).map fun _ _ _ => gives_ref
  | allRelatedIndexes r => exact (obeys_allRelatedIndexes hg r).map fun _ _ _ => gives_ref
  | relationSupplier r index => exact (obeys_relationSupplier hg r index).map fun _ _ _ => gives_ref
  | remainingItems r => exact (obeys_remainingItems hg r).map fun _ _ _ => gives_ref
  | remainingIndexes r => exact (obeys_remainingIndexes hg r).map fun _ _ _ => gives_ref
  -- changes of objects
  | store r value index =>
    exact obeys_silent (moves_store hfit (hself rfl) (hnext rfl) index) fun _ => rfl
  | removeAt r index =>
    exact obeys_of_moves (moves_removeAt hfit (hself rfl) index) fun _ _ => refs_removeAt hg
  | append r value => exact obeys_silent (moves_append hfit (hself rfl) (hnext rfl)) fun _ => rfl
  | appendAll r other =>
    have hwhole : ∀ a b, s.array r = .ok a → s.array other = .ok b →
        ¬a.StopsHalfway b.allItems.length s.limits := fun a b ha hb hstops =>
      hwhole ⟨a, b, ha, hb, hstops⟩
    exact obeys_silent (moves_appendAll hfit (hself rfl) hg hwhole) fun _ => rfl
  | insert r value target =>
    have hvalue : ∀ x ∈ value.toList, x ∈ known := fun x hx => hrefs x (List.mem_cons_of_mem _ hx)
    exact obeys_silent (moves_insert hfit (hself rfl) hvalue target) fun _ => rfl
  | insertAfter r value position =>
    have hvalue : ∀ x ∈ value.toList, x ∈ known := fun x hx => hrefs x (List.mem_cons_of_mem _ hx)
    exact obeys_silent (moves_insert hfit (hself rfl) hvalue _) fun _ => rfl
  | delete r position =>
    exact obeys_of_moves (moves_delete hfit (hself rfl) position) fun _ _ => refs_delete hg
  | removeItem r value =>
    exact obeys_of_moves (moves_removeItem hfit (hself rfl) value) fun _ _ => refs_removeItem hg
  | fill r value => exact obeys_silent (moves_fill hfit (hself rfl) (hnext rfl)) fun _ => rfl
  | clearAll r => exact obeys_silent (moves_clearAll hfit (hself rfl)) fun _ => rfl
  | sort r stable => exact obeys_silent (moves_sort hfit (hself rfl) stable) fun _ => rfl
  | sortWith r stable comparator memory =>
    refine ⟨known, moves_sortWith hfit (hself rfl) stable comparator memory, fun a t h x hx => ?_⟩
    simp only [Operation.run] at h
    split at h
    · cases h
      cases hx
    · cases h
  | relate r item index =>
    have hindex : index ∈ known := hrefs index (by simp [Operation.refs])
    exact obeys_silent (moves_relate (hself rfl) (hnext rfl) hindex) fun _ => rfl
  | unrelate r index =>
    exact obeys_of_moves (moves_unrelate (hself rfl) index) fun _ _ => refs_unrelate hg
  | unrelateItem r item index =>
    exact obeys_of_moves (moves_unrelateItem (hself rfl) item index) fun _ _ => refs_unrelateItem hg
  | advance r => exact obeys_silent (moves_advance (hself rfl)) fun _ => rfl
  | tenure r => exact obeys_silent (moves_tenure (hself rfl)) fun _ => rfl

end Space

end Managed
