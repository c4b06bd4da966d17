import Managed.Proofs.SlotArray.Revision
import Managed.Proofs.Space.Barriers
import Managed.Proofs.Space.Renamed

/-!
# Spaces that look alike

Two spaces are linked by a one-to-one function on handles if an object that both of them have is the
same one up to that function, with all it holds. Other objects, which only one of them has, do not
matter. A question about objects that both have gets the same answer from both, up to the function
(`answer_rename`).
-/

namespace Managed.Space

variable {f : Ref → Ref} {s s' : Space}

/-- An object that both spaces have. -/
def Seen (f : Ref → Ref) (s s' : Space) (r : Ref) : Prop :=
  s.heap.contains r = true ∧ s'.heap.contains (f r) = true

structure Linked (f : Ref → Ref) (s s' : Space) : Prop where
  injective : Function.Injective f
  limits : s'.limits = s.limits
  object : ∀ r, Seen f s s' r →
    ∃ o, s.heap.get? r = some o ∧ s'.heap.get? (f r) = some (o.rename f)
  held : ∀ r o, Seen f s s' r → s.heap.get? r = some o → ∀ x ∈ Traced.refs o, Seen f s s' x

/-! ## Objects -/

section

variable {r r' : Ref} (hget : s'.get r' = (s.get r).map (Object.rename f))
include hget

theorem array_of_get : s'.array r' = (s.array r).map (SlotArray.map f) := by
  refine bind_eq_map hget fun o _ => ?_
  cases o <;> rfl

theorem relation_of_get : s'.relation r' = (s.relation r).map (Relation.rename f) := by
  refine bind_eq_map hget fun o _ => ?_
  cases o <;> rfl

theorem supplier_of_get : s'.supplier r' = (s.supplier r).map (Supplier.rename f) := by
  refine bind_eq_map hget fun o _ => ?_
  cases o <;> rfl

end

section

variable (h : Linked f s s')
include h

theorem get_linked {r : Ref} (hr : Seen f s s' r) : s'.get (f r) = (s.get r).map (Object.rename f) := by
  obtain ⟨o, ho, ho'⟩ := h.object r hr
  rw [get_eq_ok.mpr ho, get_eq_ok.mpr ho']
  rfl

theorem stringValue_linked {r : Ref} (hr : Seen f s s' r) :
    s'.stringValue (f r) = s.stringValue r := by
  obtain ⟨o, ho, ho'⟩ := h.object r hr
  unfold stringValue
  rw [get_eq_ok.mpr ho, get_eq_ok.mpr ho']
  exact congrArg Except.ok (Object.stringValue_rename f o)

theorem array_linked {r : Ref} (hr : Seen f s s' r) :
    s'.array (f r) = (s.array r).map (SlotArray.map f) :=
  array_of_get (get_linked h hr)

theorem relation_linked {r : Ref} (hr : Seen f s s' r) :
    s'.relation (f r) = (s.relation r).map (Relation.rename f) :=
  relation_of_get (get_linked h hr)

theorem supplier_linked {r : Ref} (hr : Seen f s s' r) :
    s'.supplier (f r) = (s.supplier r).map (Supplier.rename f) :=
  supplier_of_get (get_linked h hr)

theorem seen_of_allItems {r : Ref} (hr : Seen f s s' r) {a : SlotArray Ref} (ha : s.array r = .ok a)
    {x : Ref} (hx : x ∈ a.allItems) : Seen f s s' x :=
  h.held r _ hr (array_eq_ok.mp ha) x hx

theorem equalValue_linked {a b : Ref} (ha : Seen f s s' a) (hb : Seen f s s' b) :
    s'.equalValue (f a) (f b) = s.equalValue a b := by
  obtain ⟨o, ho, ho'⟩ := h.object a ha
  obtain ⟨p, hp, hp'⟩ := h.object b hb
  unfold equalValue
  rw [get_eq_ok.mpr ho, get_eq_ok.mpr ho', get_eq_ok.mpr hp, get_eq_ok.mpr hp']
  simp only [h.injective.eq_iff]
  split
  · rfl
  · cases o <;> cases p <;> rfl

theorem compareNatural_linked {a b : Ref} (ha : Seen f s s' a) (hb : Seen f s s' b) :
    s'.compareNatural (f a) (f b) = s.compareNatural a b := by
  obtain ⟨o, ho, ho'⟩ := h.object a ha
  obtain ⟨p, hp, hp'⟩ := h.object b hb
  unfold compareNatural
  rw [get_eq_ok.mpr ho, get_eq_ok.mpr ho', get_eq_ok.mpr hp, get_eq_ok.mpr hp']
  cases o <;> cases p <;> rfl

theorem valueKey_linked {r : Ref} (hr : Seen f s s' r) :
    s'.valueKey (f r) = (s.valueKey r).map (RelationKey.rename f) := by
  refine bind_eq_map (get_linked h hr) fun o _ => ?_
  cases o <;> rfl

/-! ## Indexes -/

theorem subscriptValue_linked (position : Nat) {argument : Option Ref}
    (hargument : ∀ r ∈ argument, Seen f s s' r) :
    s'.subscriptValue position (argument.map f) = s.subscriptValue position argument := by
  cases argument with
  | none => rfl
  | some r =>
    simp only [Option.map_some, subscriptValue]
    rw [stringValue_linked h (hargument r rfl)]

theorem indexArguments_linked {arguments : List (Option Ref)}
    (harguments : ∀ r, some r ∈ arguments → Seen f s s' r) :
    s'.indexArguments (arguments.map (Option.map f)) =
        (s.indexArguments arguments).map (List.map (Option.map f)) ∧
      ∀ found, s.indexArguments arguments = .ok found → ∀ r, some r ∈ found → Seen f s s' r := by
  have hplain : ∀ found, Except.ok arguments = (.ok found : Except Fault _) → ∀ r, some r ∈ found →
      Seen f s s' r := by
    rintro found ⟨⟩ r hr
    exact harguments r hr
  rcases arguments with _ | ⟨argument, _ | ⟨second, rest⟩⟩
  · exact ⟨rfl, hplain⟩
  · cases argument with
    | none => exact ⟨rfl, hplain⟩
    | some r =>
      have hr : Seen f s s' r := harguments r (List.mem_singleton.mpr rfl)
      obtain ⟨o, ho, ho'⟩ := h.object r hr
      simp only [List.map_cons, List.map_nil, Option.map_some, indexArguments]
      rw [get_eq_ok.mpr ho, get_eq_ok.mpr ho']
      cases o with
      | array a =>
        refine ⟨?_, fun found hfound x hx => ?_⟩
        · simp only [Object.rename, bind, Except.bind, pure, Except.pure, Except.map,
            SlotArray.slots_map, Array.toList_map]
        · cases hfound
          exact h.held r _ hr ho x (SlotArray.mem_allItems_of_slots (Array.mem_toList_iff.mp hx))
      | string text => exact ⟨rfl, hplain⟩
      | relation a => exact ⟨rfl, hplain⟩
      | supplier a => exact ⟨rfl, hplain⟩
  · cases argument <;> exact ⟨rfl, hplain⟩

theorem subscripts_linked {arguments : List (Option Ref)}
    (harguments : ∀ r, some r ∈ arguments → Seen f s s' r) (start : Nat) :
    ((arguments.map (Option.map f)).zipIdx start).mapM
        (fun (argument, position) => s'.subscriptValue position argument) =
      (arguments.zipIdx start).mapM fun (argument, position) => s.subscriptValue position argument := by
  induction arguments generalizing start with
  | nil => rfl
  | cons argument rest ih =>
    have hhead : ∀ r ∈ argument, Seen f s s' r := by
      rintro r rfl
      exact harguments r List.mem_cons_self
    rw [List.map_cons, List.zipIdx_cons, List.zipIdx_cons, List.mapM_cons, List.mapM_cons,
      ih fun r hr => harguments r (List.mem_cons_of_mem _ hr)]
    dsimp only
    rw [subscriptValue_linked h start hhead]

theorem resolveIndex_linked {index : ArrayIndex} (hindex : ∀ r ∈ index.refs, Seen f s s' r) :
    s'.resolveIndex (index.rename f) = s.resolveIndex index := by
  cases index with
  | numbers subscripts => rfl
  | objects arguments =>
    have harguments : ∀ r, some r ∈ arguments → Seen f s s' r := fun r hr =>
      hindex r (List.mem_filterMap.mpr ⟨some r, hr, rfl⟩)
    obtain ⟨heq, hseen⟩ := indexArguments_linked h harguments
    simp only [ArrayIndex.rename, resolveIndex]
    rw [heq]
    cases hfound : s.indexArguments arguments with
    | error e => rfl
    | ok found => exact subscripts_linked h (hseen found hfound) 1

/-! ## Questions about arrays -/

theorem itemAt_linked {r : Ref} (hr : Seen f s s' r) {index : ArrayIndex}
    (hindex : ∀ x ∈ index.refs, Seen f s s' x) :
    s'.itemAt (f r) (index.rename f) = (s.itemAt r index).map (Option.map f) := by
  unfold itemAt
  rw [resolveIndex_linked h hindex]
  refine bind_eq_map_bind fun subscripts _ => bind_eq_map (array_linked h hr) fun a _ => ?_
  refine bind_eq_map_bind fun position _ => ?_
  cases position with
  | none => rfl
  | some p => exact congrArg Except.ok (SlotArray.get?_map f a p)

theorem hasItemAt_linked {r : Ref} (hr : Seen f s s' r) {index : ArrayIndex}
    (hindex : ∀ x ∈ index.refs, Seen f s s' x) :
    s'.hasItemAt (f r) (index.rename f) = s.hasItemAt r index := by
  unfold hasItemAt
  rw [resolveIndex_linked h hindex]
  congr 1
  funext subscripts
  refine bind_eq_bind_of_map (array_linked h hr) fun a _ => ?_
  rw [show (a.map f).positionOf subscripts .lookup = a.positionOf subscripts .lookup from rfl]
  congr 1
  funext position
  cases position with
  | none => rfl
  | some p => simp [SlotArray.get?_map]

theorem positionAmong_linked {value : Ref} (hvalue : Seen f s s' value) {entries : List (Nat × Ref)}
    (hentries : ∀ p ∈ entries, Seen f s s' p.2) :
    s'.positionAmong (f value) (entries.map (Prod.map id f)) = s.positionAmong value entries := by
  induction entries with
  | nil => rfl
  | cons entry rest ih =>
    obtain ⟨p, item⟩ := entry
    have hitem : Seen f s s' item := hentries (p, item) List.mem_cons_self
    simp only [List.map_cons, Prod.map_apply, id_eq, positionAmong]
    rw [equalValue_linked h hitem hvalue, ih fun q hq => hentries q (List.mem_cons_of_mem _ hq)]

theorem indexOf_linked {r value : Ref} (hr : Seen f s s' r) (hvalue : Seen f s s' value) :
    s'.indexOf (f r) (f value) = s.indexOf r value := by
  refine bind_eq_bind_of_map (array_linked h hr) fun a ha => ?_
  rw [SlotArray.entries_map]
  refine positionAmong_linked h hvalue fun p hp => ?_
  exact seen_of_allItems h hr ha (List.mem_map_of_mem hp)

theorem hasItem_linked {r value : Ref} (hr : Seen f s s' r) (hvalue : Seen f s s' value) :
    s'.hasItem (f r) (f value) = s.hasItem r value := by
  unfold hasItem
  rw [indexOf_linked h hr hvalue]

theorem dimension_linked {r : Ref} (hr : Seen f s s' r) (n : Nat) :
    s'.dimension (f r) n = s.dimension r n := by
  unfold dimension
  rw [array_linked h hr]
  cases s.array r <;> rfl

theorem firstItem_linked {r : Ref} (hr : Seen f s s' r) :
    s'.firstItem (f r) = (s.firstItem r).map (Option.map f) := by
  refine bind_eq_map (array_linked h hr) fun a _ => ?_
  rw [show (a.map f).first? = a.first? from SlotArray.next?_map f a 0]
  cases a.first? with
  | none => rfl
  | some p => exact congrArg Except.ok (SlotArray.get?_map f a p)

theorem lastItem_linked {r : Ref} (hr : Seen f s s' r) :
    s'.lastItem (f r) = (s.lastItem r).map (Option.map f) := by
  refine bind_eq_map (array_linked h hr) fun a _ => ?_
  rw [show (a.map f).last? = a.last? from rfl]
  cases a.last? with
  | none => rfl
  | some p => exact congrArg Except.ok (SlotArray.get?_map f a p)

theorem texts_linked {items : List Ref} (hitems : ∀ x ∈ items, Seen f s s' x) :
    (items.map f).mapM s'.stringValue = items.mapM s.stringValue := by
  induction items with
  | nil => rfl
  | cons x rest ih =>
    rw [List.map_cons, List.mapM_cons, List.mapM_cons,
      stringValue_linked h (hitems x List.mem_cons_self),
      ih fun y hy => hitems y (List.mem_cons_of_mem _ hy)]

theorem render_linked {r : Ref} (hr : Seen f s s' r) (policy separator : Option String) :
    s'.render (f r) policy separator = s.render r policy separator := by
  have hrest : ∀ policy : JoinPolicy, (do
      let texts ← (← s'.array (f r)).allItems.mapM s'.stringValue
      return String.intercalate (separator.getD policy.separator) texts) = (do
      let texts ← (← s.array r).allItems.mapM s.stringValue
      return String.intercalate (separator.getD policy.separator) texts) := by
    intro policy
    refine bind_eq_bind_of_map (array_linked h hr) fun a ha => ?_
    rw [SlotArray.allItems_map, texts_linked h fun x hx => seen_of_allItems h hr ha hx]
  unfold render
  simp only [hrest]

/-! ## Questions about relations and suppliers -/

section

variable {r index item : Ref} (hr : Seen f s s' r) (hindex : Seen f s s' index)
  (hitem : Seen f s s' item)

include hr

include hindex in
theorem relatedItem_linked :
    s'.relatedItem (f r) (f index) = (s.relatedItem r index).map (Option.map f) := by
  refine bind_eq_map (valueKey_linked h hindex) fun key _ => ?_
  refine bind_eq_map (relation_linked h hr) fun a _ => ?_
  exact congrArg Except.ok (Relation.itemAt?_rename a h.injective key)

include hindex in
theorem hasIndex_linked : s'.hasIndex (f r) (f index) = s.hasIndex r index := by
  refine bind_eq_bind_of_map (valueKey_linked h hindex) fun key _ => ?_
  refine bind_eq_bind_of_map (relation_linked h hr) fun a _ => ?_
  exact congrArg Except.ok (Relation.hasIndex_rename a h.injective key)

include hindex hitem in
theorem isRelated_linked : s'.isRelated (f r) (f item) (f index) = s.isRelated r item index := by
  refine bind_eq_bind_of_map (valueKey_linked h hitem) fun itemKey _ => ?_
  refine bind_eq_bind_of_map (valueKey_linked h hindex) fun key _ => ?_
  refine bind_eq_bind_of_map (relation_linked h hr) fun a _ => ?_
  exact congrArg Except.ok (Relation.hasItem_rename a h.injective key itemKey)

include hitem in
theorem relatedIndex_linked :
    s'.relatedIndex (f r) (f item) = (s.relatedIndex r item).map (Option.map f) := by
  refine bind_eq_map (valueKey_linked h hitem) fun key _ => ?_
  refine bind_eq_map (relation_linked h hr) fun a _ => ?_
  exact congrArg Except.ok (Relation.indexOf?_rename a h.injective key)

theorem relatedCount_linked {index : Option Ref} (hindex : ∀ x ∈ index, Seen f s s' x) :
    s'.relatedCount (f r) (index.map f) = s.relatedCount r index := by
  refine bind_eq_bind_of_map (relation_linked h hr) fun a _ => ?_
  cases index with
  | none => rfl
  | some x =>
    refine bind_eq_bind_of_map (valueKey_linked h (hindex x rfl)) fun key _ => ?_
    exact congrArg Except.ok (Relation.countAt_rename a h.injective key)

theorem available_linked : s'.available (f r) = s.available r := by
  refine bind_eq_bind_of_map (supplier_linked h hr) fun a _ => ?_
  exact congrArg Except.ok (Supplier.available_rename f a)

theorem suppliedItem_linked : s'.suppliedItem (f r) = (s.suppliedItem r).map f :=
  bind_eq_map (supplier_linked h hr) fun a _ => Supplier.item_rename f a

theorem suppliedIndex_linked : s'.suppliedIndex (f r) = (s.suppliedIndex r).map f :=
  bind_eq_map (supplier_linked h hr) fun a _ => Supplier.index_rename f a

end

end

end Managed.Space

/-! ## All questions -/

namespace Managed.Query

open Space

/-- A question about objects, not about the state of the heap. -/
def Transparent : Query → Prop
  | generation _ | live | spaceEmpty | collectionDue | tally => False
  | _ => True

variable {f : Ref → Ref} {s s' : Space}

/-- Answers made from results that correspond. -/
theorem answer_of_map {β β' : Type} {x : Except Fault β} {y : Except Fault β'} {g : β → β'}
    {k : β → Answer} {k' : β' → Answer} (hx : y = x.map g) (hk : ∀ b, k' (g b) = (k b).rename f) :
    (y >>= fun b => pure (k' b)) =
      (x >>= fun b => pure (k b) : Except Fault Answer).map (Answer.rename f) :=
  bind_eq_map hx fun b _ => congrArg Except.ok (hk b)

/-- Answers in which there are no handles. -/
theorem answer_of_eq {β : Type} {x y : Except Fault β} {k : β → Answer} (hx : y = x)
    (hk : ∀ b, k b = (k b).rename f) :
    (y >>= fun b => pure (k b)) =
      (x >>= fun b => pure (k b) : Except Fault Answer).map (Answer.rename f) := by
  subst hx
  exact bind_eq_map_bind fun b _ => congrArg Except.ok (hk b)

theorem answer_rename (h : Linked f s s') {q : Query} (hq : q.Transparent)
    (hrefs : ∀ r ∈ q.refs, Seen f s s' r) :
    (q.rename f).answer s' = (q.answer s).map (Answer.rename f) := by
  have hself : ∀ {r : Ref} {rest : List Ref}, q.refs = r :: rest → Seen f s s' r := by
    intro r rest heq
    exact hrefs r (by simp [heq])
  cases q with
  | generation r => cases hq
  | live => cases hq
  | spaceEmpty => cases hq
  | collectionDue => cases hq
  | tally => cases hq
  | contains r =>
    obtain ⟨hr, hr'⟩ := hself rfl
    simp only [rename, answer, hr, hr']
    rfl
  | object r => exact answer_of_map (get_linked h (hself rfl)) fun _ => rfl
  | kind r =>
    exact answer_of_map (get_linked h (hself rfl)) fun o =>
      congrArg Answer.kind (Object.kind_rename f o)
  | stringValue r => exact answer_of_eq (stringValue_linked h (hself rfl)) fun _ => rfl
  | array r => exact answer_of_map (array_linked h (hself rfl)) fun _ => rfl
  | relation r => exact answer_of_map (relation_linked h (hself rfl)) fun _ => rfl
  | supplier r => exact answer_of_map (supplier_linked h (hself rfl)) fun _ => rfl
  | equalValue a b =>
    have hb : Seen f s s' b := hrefs b (by simp [refs])
    exact answer_of_eq (equalValue_linked h (hself rfl) hb) fun _ => rfl
  | compareNatural a b =>
    have hb : Seen f s s' b := hrefs b (by simp [refs])
    exact answer_of_eq (compareNatural_linked h (hself rfl) hb) fun _ => rfl
  | valueKey r => exact answer_of_map (valueKey_linked h (hself rfl)) fun _ => rfl
  | itemAt r index =>
    have hindex : ∀ x ∈ index.refs, Seen f s s' x := fun x hx =>
      hrefs x (List.mem_cons_of_mem _ hx)
    exact answer_of_map (itemAt_linked h (hself rfl) hindex) fun _ => rfl
  | hasItemAt r index =>
    have hindex : ∀ x ∈ index.refs, Seen f s s' x := fun x hx =>
      hrefs x (List.mem_cons_of_mem _ hx)
    exact answer_of_eq (hasItemAt_linked h (hself rfl) hindex) fun _ => rfl
  | indexOf r value =>
    have hvalue : Seen f s s' value := hrefs value (by simp [refs])
    exact answer_of_eq (indexOf_linked h (hself rfl) hvalue) fun _ => rfl
  | hasItem r value =>
    have hvalue : Seen f s s' value := hrefs value (by simp [refs])
    exact answer_of_eq (hasItem_linked h (hself rfl) hvalue) fun _ => rfl
  | items r => exact answer_of_map (array_linked h (hself rfl)) fun _ => rfl
  | size r => exact answer_of_map (array_linked h (hself rfl)) fun _ => rfl
  | isEmpty r => exact answer_of_map (array_linked h (hself rfl)) fun _ => rfl
  | dimension r n => exact answer_of_eq (dimension_linked h (hself rfl) n) fun _ => rfl
  | dimensionCount r => exact answer_of_map (array_linked h (hself rfl)) fun _ => rfl
  | dimensions r => exact answer_of_map (array_linked h (hself rfl)) fun _ => rfl
  | first r =>
    exact answer_of_map (array_linked h (hself rfl)) fun a =>
      congrArg Answer.position (SlotArray.next?_map f a 0)
  | last r => exact answer_of_map (array_linked h (hself rfl)) fun _ => rfl
  | next r position =>
    exact answer_of_map (array_linked h (hself rfl)) fun a =>
      congrArg Answer.position (SlotArray.next?_map f a position)
  | previous r position =>
    exact answer_of_map (array_linked h (hself rfl)) fun a =>
      congrArg Answer.position (SlotArray.previous?_map f a position)
  | firstItem r => exact answer_of_map (firstItem_linked h (hself rfl)) fun _ => rfl
  | lastItem r => exact answer_of_map (lastItem_linked h (hself rfl)) fun _ => rfl
  | render r policy separator =>
    exact answer_of_eq (render_linked h (hself rfl) policy separator) fun _ => rfl
  | relatedItem r index =>
    have hindex : Seen f s s' index := hrefs index (by simp [refs])
    exact answer_of_map (relatedItem_linked h (hself rfl) hindex) fun _ => rfl
  | hasIndex r index =>
    have hindex : Seen f s s' index := hrefs index (by simp [refs])
    exact answer_of_eq (hasIndex_linked h (hself rfl) hindex) fun _ => rfl
  | isRelated r item index =>
    have hindex : Seen f s s' index := hrefs index (by simp [refs])
    have hitem : Seen f s s' item := hrefs item (by simp [refs])
    exact answer_of_eq (isRelated_linked h (hself rfl) hindex hitem) fun _ => rfl
  | relatedIndex r item =>
    have hitem : Seen f s s' item := hrefs item (by simp [refs])
    exact answer_of_map (relatedIndex_linked h (hself rfl) hitem) fun _ => rfl
  | relatedCount r index =>
    have hindex : ∀ x ∈ index, Seen f s s' x := fun x hx =>
      hrefs x (List.mem_cons_of_mem _ (Option.mem_toList.mpr hx))
    exact answer_of_eq (relatedCount_linked h (hself rfl) hindex) fun _ => rfl
  | available r => exact answer_of_eq (available_linked h (hself rfl)) fun _ => rfl
  | suppliedItem r => exact answer_of_map (suppliedItem_linked h (hself rfl)) fun _ => rfl
  | suppliedIndex r => exact answer_of_map (suppliedIndex_linked h (hself rfl)) fun _ => rfl

end Managed.Query
