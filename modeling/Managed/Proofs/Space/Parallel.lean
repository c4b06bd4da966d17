import Managed.Proofs.Space.Alike

/-!
# Operations side by side

Two computations from spaces that are alike run in parallel if they end alike: both succeed, with
answers that are the same up to a renaming of handles, or both fail for the same reason. A computation
for which no slot is left is not compared. `Parallel` goes through sequencing, as `Obeys` does, with the
list of pairs growing at each new object. Here are its rules and the operations that make objects.
-/

namespace Managed.Space

/-- The result of a computation for which no slot was left. -/
inductive Exhausted {β : Type} : EStateM.Result Fault Space β → Prop
  | intro (max : Nat) (s : Space) : Exhausted (.error (.heap (.exhausted max)) s)

/-- Results that are the same under every renaming of the pairs. -/
inductive Corresponds {β : Type} (rename : (Ref → Ref) → β → β) (pairs : List (Ref × Ref)) :
    EStateM.Result Fault Space β → EStateM.Result Fault Space β → Prop
  | ok {b b' : β} {s s' : Space} (value : ∀ f, Renames pairs f → b' = rename f b) :
    Corresponds rename pairs (.ok b s) (.ok b' s')
  | error (e : Fault) (s s' : Space) : Corresponds rename pairs (.error e s) (.error e s')

/-- The computations `m` and `m'` from the spaces `s` and `s'`. -/
def Parallel {β : Type} (rename : (Ref → Ref) → β → β) (pairs : List (Ref × Ref))
    (freed freed' : Nat → Nat) (s s' : Space) (m m' : SpaceM β) : Prop :=
  Exhausted (m s) ∨ Exhausted (m' s') ∨
    ∃ new, Alike (pairs ++ new) freed freed' (left (m s)) (left (m' s')) ∧
      Corresponds rename (pairs ++ new) (m s) (m' s')

variable {pairs : List (Ref × Ref)} {freed freed' : Nat → Nat} {s s' : Space}

/-! ## Rules -/

section

variable {β γ : Type} {rename : (Ref → Ref) → β → β} {rename' : (Ref → Ref) → γ → γ}

/-- Computations that make no object. -/
theorem parallel_of_ok {m m' : SpaceM β} {b b' : β} {t t' : Space} (hm : m s = .ok b t)
    (hm' : m' s' = .ok b' t') (ha : Alike pairs freed freed' t t')
    (hb : ∀ f, Renames pairs f → b' = rename f b) :
    Parallel rename pairs freed freed' s s' m m' := by
  refine Or.inr (Or.inr ⟨[], ?_⟩)
  rw [List.append_nil, hm, hm']
  exact ⟨ha, .ok hb⟩

theorem parallel_of_error {m m' : SpaceM β} {e : Fault} {t t' : Space} (hm : m s = .error e t)
    (hm' : m' s' = .error e t') (ha : Alike pairs freed freed' t t') :
    Parallel rename pairs freed freed' s s' m m' := by
  refine Or.inr (Or.inr ⟨[], ?_⟩)
  rw [List.append_nil, hm, hm']
  exact ⟨ha, .error e t t'⟩

theorem parallel_pure (ha : Alike pairs freed freed' s s') {b b' : β}
    (hb : ∀ f, Renames pairs f → b' = rename f b) :
    Parallel rename pairs freed freed' s s' (pure b) (pure b') :=
  parallel_of_ok rfl rfl ha hb

theorem Exhausted.bind {m : SpaceM β} (h : Exhausted (m s)) (k : β → SpaceM γ) :
    Exhausted ((m >>= k) s) := by
  generalize hm : m s = result at h
  cases h with
  | intro max t =>
    rw [bind_of_error hm]
    exact .intro max t

theorem Parallel.bind {m m' : SpaceM β} {k k' : β → SpaceM γ}
    (h : Parallel rename pairs freed freed' s s' m m')
    (hk : ∀ b b' new t t', m s = .ok b t → m' s' = .ok b' t' →
      Alike (pairs ++ new) freed freed' t t' → (∀ f, Renames (pairs ++ new) f → b' = rename f b) →
      Parallel rename' (pairs ++ new) freed freed' t t' (k b) (k' b')) :
    Parallel rename' pairs freed freed' s s' (m >>= k) (m' >>= k') := by
  rcases h with h | h | ⟨new, ha, hc⟩
  · exact Or.inl (h.bind k)
  · exact Or.inr (Or.inl (h.bind k'))
  cases hm : m s with
  | error e t =>
    cases hm' : m' s' with
    | ok b' t' =>
      rw [hm, hm'] at hc
      cases hc
    | error e' t' =>
      rw [hm, hm'] at ha hc
      cases hc
      refine Or.inr (Or.inr ⟨new, ?_⟩)
      rw [bind_of_error hm, bind_of_error hm']
      exact ⟨ha, .error e t t'⟩
  | ok b t =>
    cases hm' : m' s' with
    | error e' t' =>
      rw [hm, hm'] at hc
      cases hc
    | ok b' t' =>
      rw [hm, hm'] at ha hc
      cases hc with
      | ok hb =>
        have hrest := hk b b' new t t' hm hm' ha hb
        unfold Parallel at hrest ⊢
        rw [bind_of_ok hm, bind_of_ok hm']
        refine hrest.imp_right fun hrest => hrest.imp_right fun hrest => ?_
        obtain ⟨new', ha', hc'⟩ := hrest
        rw [List.append_assoc] at ha' hc'
        exact ⟨new ++ new', ha', hc'⟩

theorem Parallel.map {m m' : SpaceM β} (h : Parallel rename pairs freed freed' s s' m m')
    {g : β → γ} (hg : ∀ f b, g (rename f b) = rename' f (g b)) :
    Parallel rename' pairs freed freed' s s' (g <$> m) (g <$> m') := by
  rw [map_eq_pure_bind, map_eq_pure_bind]
  refine h.bind fun b b' new t t' _ _ ha hb => parallel_pure ha fun f hf => ?_
  rw [hb f hf]
  exact hg f b

/-- A question that both spaces answer alike. -/
theorem parallel_ask (rename : (Ref → Ref) → β → β) (ha : Alike pairs freed freed' s s')
    {query query' : Space → Except Fault β}
    {k k' : β → SpaceM γ} (hq : ∀ f, Renames pairs f → query' s' = (query s).map (rename f))
    (hk : ∀ b b', query s = .ok b → (∀ f, Renames pairs f → b' = rename f b) →
      Parallel rename' pairs freed freed' s s' (k b) (k' b')) :
    Parallel rename' pairs freed freed' s s' (ask query >>= k) (ask query' >>= k') := by
  obtain ⟨π, hπ⟩ := ha.exists_renames
  cases hb : query s with
  | error e =>
    have hb' : query' s' = .error e := by rw [hq π hπ, hb]; rfl
    exact parallel_of_error (bind_of_error (by rw [ask, hb])) (bind_of_error (by rw [ask, hb'])) ha
  | ok b =>
    have hb' : query' s' = .ok (rename π b) := by rw [hq π hπ, hb]; rfl
    have hall : ∀ f, Renames pairs f → rename π b = rename f b := by
      intro f hf
      have hf' := hq f hf
      rw [hb, hb'] at hf'
      exact Except.ok.inj hf'
    have hrest := hk b (rename π b) hb hall
    unfold Parallel at hrest ⊢
    rwa [bind_of_ok (by rw [ask, hb]), bind_of_ok (by rw [ask, hb'])]

/-- The same for an answer in which there are no handles. -/
theorem parallel_ask_same (ha : Alike pairs freed freed' s s')
    {query query' : Space → Except Fault β} {k k' : β → SpaceM γ} (hq : query' s' = query s)
    (hk : ∀ b, Parallel rename' pairs freed freed' s s' (k b) (k' b)) :
    Parallel rename' pairs freed freed' s s' (ask query >>= k) (ask query' >>= k') := by
  obtain ⟨π, hπ⟩ := ha.exists_renames
  refine parallel_ask (fun _ b => b) ha (fun _ _ => ?_) fun b b' _ heq => ?_
  · rw [hq]
    exact (congrFun Except.map_id _).symm
  · rw [heq π hπ]
    exact hk b

end

/-! ## New objects -/

theorem alloc_result (ht : s.heap.Tidy) (o : Object) :
    Exhausted (alloc o s) ∨ ∃ r h, Heap.Allocated s.heap o r h ∧
      alloc o s = .ok r { s with heap := h } := by
  unfold alloc
  cases h : s.heap.alloc o with
  | ok p => exact Or.inr ⟨p.1, p.2, Heap.alloc_cases h ht.free_vacant, rfl⟩
  | error e =>
    left
    unfold Heap.alloc at h
    split at h
    · cases h
      exact .intro _ s
    · split at h
      · cases h
      · split at h
        · cases h
        · cases h
          exact .intro _ s

theorem parallel_alloc (ha : Alike pairs freed freed' s s') {o o' : Object}
    (ho : ∀ f, Renames pairs f → o' = o.rename f) :
    Parallel (fun f => f) pairs freed freed' s s' (alloc o) (alloc o') := by
  rcases alloc_result ha.kept.tidy o with hex | ⟨r, h, hr, heq⟩
  · exact Or.inl hex
  rcases alloc_result ha.kept'.tidy o' with hex | ⟨r', h', hr', heq'⟩
  · exact Or.inr (Or.inl hex)
  refine Or.inr (Or.inr ⟨[(r, r')], ?_, ?_⟩)
  · rw [heq, heq']
    exact ha.alloc hr hr' ho
  · rw [heq, heq']
    refine .ok fun f hf => ?_
    have hpair := hf.pair (r, r') (List.mem_append_right _ (List.mem_singleton.mpr rfl))
    exact hpair.symm

theorem parallel_newString (ha : Alike pairs freed freed' s s') (text : String) :
    Parallel (fun f => f) pairs freed freed' s s' (newString text) (newString text) :=
  parallel_alloc ha fun _ _ => rfl

/-- New objects made one after the other. -/
theorem parallel_mapM {β : Type} {make : β → SpaceM Ref}
    (hmake : ∀ b pairs s s', Alike pairs freed freed' s s' →
      Parallel (fun f => f) pairs freed freed' s s' (make b) (make b)) (bs : List β)
    (ha : Alike pairs freed freed' s s') :
    Parallel (fun f => List.map f) pairs freed freed' s s' (bs.mapM make) (bs.mapM make) := by
  induction bs generalizing pairs s s' with
  | nil =>
    rw [List.mapM_nil]
    exact parallel_pure ha fun _ _ => rfl
  | cons b rest ih =>
    rw [List.mapM_cons]
    refine (hmake b pairs s s' ha).bind fun r r' new t t' _ _ ha hr => ?_
    refine (ih ha).bind fun rs rs' new' t t' _ _ ha hrs => parallel_pure ha fun f hf => ?_
    rw [List.map_cons, hr f hf.of_append, hrs f hf]

/-- A new array that is found by a question. -/
theorem parallel_allocArray (ha : Alike pairs freed freed' s s')
    {query query' : Space → Except Fault (SlotArray Ref)}
    (hq : ∀ f, Renames pairs f → query' s' = (query s).map (SlotArray.map f)) :
    Parallel (fun f => f) pairs freed freed' s s' (do alloc (.array (← ask query)))
      (do alloc (.array (← ask query'))) := by
  refine parallel_ask SlotArray.map ha hq fun a a' _ heq => parallel_alloc ha fun f hf => ?_
  rw [heq f hf]
  rfl

theorem parallel_arrayOf (ha : Alike pairs freed freed' s s') {slots slots' : List (Option Ref)}
    (hslots : ∀ f, Renames pairs f → slots' = slots.map (Option.map f)) :
    Parallel (fun f => f) pairs freed freed' s s' (arrayOf slots) (arrayOf slots') := by
  refine parallel_allocArray ha fun f hf => ?_
  rw [hslots f hf, ha.limits, ← List.map_toArray]
  exact SlotArray.ofSlots_map f slots.toArray s.limits

theorem parallel_arrayOfItems (ha : Alike pairs freed freed' s s') {items items' : List Ref}
    (hitems : ∀ f, Renames pairs f → items' = items.map f) :
    Parallel (fun f => f) pairs freed freed' s s' (arrayOfItems items) (arrayOfItems items') := by
  refine parallel_arrayOf ha fun f hf => ?_
  rw [hitems f hf, List.map_map, List.map_map]
  rfl

/-- A new array of items that are found by a question. -/
theorem parallel_itemsOf {β : Type} (rename : (Ref → Ref) → β → β)
    (ha : Alike pairs freed freed' s s') {query query' : Space → Except Fault β}
    (hq : ∀ f, Renames pairs f → query' s' = (query s).map (rename f)) {items : β → List Ref}
    (hitems : ∀ f b, items (rename f b) = (items b).map f) :
    Parallel (fun f => f) pairs freed freed' s s' (do arrayOfItems (items (← ask query)))
      (do arrayOfItems (items (← ask query'))) := by
  refine parallel_ask rename ha hq fun b b' _ heq => parallel_arrayOfItems ha fun f hf => ?_
  rw [heq f hf, hitems]

theorem parallel_arrayOfStrings (ha : Alike pairs freed freed' s s') (texts : List String) :
    Parallel (fun f => f) pairs freed freed' s s' (arrayOfStrings texts) (arrayOfStrings texts) :=
  (parallel_mapM (fun text _ _ _ ha => parallel_newString ha text) texts ha).bind
    fun _ _ _ _ _ _ _ ha hrs => parallel_arrayOfItems ha hrs

theorem parallel_indexObject (ha : Alike pairs freed freed' s s') (subscripts : List Nat) :
    Parallel (fun f => f) pairs freed freed' s s' (indexObject subscripts)
      (indexObject subscripts) := by
  unfold indexObject
  split
  · exact parallel_newString ha _
  · exact parallel_arrayOfStrings ha _

section

variable (ha : Alike pairs freed freed' s s')
include ha

theorem parallel_newArray (size : Nat) :
    Parallel (fun f => f) pairs freed freed' s s' (newArray size) (newArray size) := by
  refine parallel_allocArray ha fun f _ => ?_
  rw [ha.limits]
  exact SlotArray.ofSize_map f size s.limits

theorem parallel_newShapedArray (sizes : List Nat) :
    Parallel (fun f => f) pairs freed freed' s s' (newShapedArray sizes)
      (newShapedArray sizes) := by
  refine parallel_allocArray ha fun f _ => ?_
  rw [ha.limits]
  exact SlotArray.ofDimensions_map f sizes s.limits

variable {r r' : Ref} (hr : Paired pairs s s' r r')
include hr

theorem parallel_copy : Parallel (fun f => f) pairs freed freed' s s' (copy r) (copy r') :=
  parallel_allocArray ha fun _ hf => array_of_get (ha.get hr hf)

theorem parallel_join {x x' : Ref} (hx : Paired pairs s s' x x') :
    Parallel (fun f => f) pairs freed freed' s s' (join r x) (join r' x') := by
  refine parallel_allocArray ha fun f hf => ?_
  refine bind_eq_map (array_of_get (ha.get hr hf)) fun a _ => ?_
  refine bind_eq_map (array_of_get (ha.get hx hf)) fun b _ => ?_
  rw [ha.limits]
  exact SlotArray.join_map_map f a b s.limits

theorem parallel_slice (start : Nat) (count : Option Nat) :
    Parallel (fun f => f) pairs freed freed' s s' (slice r start count)
      (slice r' start count) := by
  refine parallel_allocArray ha fun f hf => ?_
  refine bind_eq_map (array_of_get (ha.get hr hf)) fun a _ => ?_
  rw [ha.limits]
  exact SlotArray.sliceFrom_map f a start count s.limits

theorem parallel_allItems :
    Parallel (fun f => f) pairs freed freed' s s' (allItems r) (allItems r') :=
  parallel_itemsOf SlotArray.map ha (fun _ hf => array_of_get (ha.get hr hf)) SlotArray.allItems_map

theorem parallel_indexObjects :
    Parallel (fun f => List.map f) pairs freed freed' s s' (indexObjects r) (indexObjects r') := by
  obtain ⟨π, hπ⟩ := ha.exists_renames
  refine parallel_ask SlotArray.map ha (fun f hf => array_of_get (ha.get hr hf)) fun a a' _ heq => ?_
  rw [heq π hπ, SlotArray.allIndexes_map]
  exact parallel_mapM (fun b _ _ _ ha => parallel_indexObject ha b) _ ha

theorem parallel_allIndexes :
    Parallel (fun f => f) pairs freed freed' s s' (allIndexes r) (allIndexes r') :=
  (parallel_indexObjects ha hr).bind fun _ _ _ _ _ _ _ ha hrs => parallel_arrayOfItems ha hrs

theorem parallel_arraySupplier :
    Parallel (fun f => f) pairs freed freed' s s' (arraySupplier r) (arraySupplier r') := by
  refine parallel_ask SlotArray.map ha (fun f hf => array_of_get (ha.get hr hf)) fun a a' _ heq => ?_
  refine (parallel_indexObjects ha hr).bind fun rs rs' new t t' _ _ ha hrs => ?_
  refine parallel_alloc ha fun f hf => ?_
  rw [hrs f hf, heq f hf.of_append, SlotArray.allItems_map, Supplier.ofLists_rename]
  rfl

theorem parallel_allRelatedItems :
    Parallel (fun f => f) pairs freed freed' s s' (allRelatedItems r) (allRelatedItems r') :=
  parallel_itemsOf Relation.rename ha (fun _ hf => relation_of_get (ha.get hr hf))
    fun _ a => a.allItems_rename

theorem parallel_allRelatedIndexes :
    Parallel (fun f => f) pairs freed freed' s s' (allRelatedIndexes r) (allRelatedIndexes r') :=
  parallel_itemsOf Relation.rename ha (fun _ hf => relation_of_get (ha.get hr hf))
    fun _ a => a.allIndexes_rename

theorem parallel_remainingItems :
    Parallel (fun f => f) pairs freed freed' s s' (remainingItems r) (remainingItems r') :=
  parallel_itemsOf Supplier.rename ha (fun _ hf => supplier_of_get (ha.get hr hf))
    Supplier.remainingItems_rename

theorem parallel_remainingIndexes :
    Parallel (fun f => f) pairs freed freed' s s' (remainingIndexes r) (remainingIndexes r') :=
  parallel_itemsOf Supplier.rename ha (fun _ hf => supplier_of_get (ha.get hr hf))
    Supplier.remainingIndexes_rename

theorem parallel_relatedItems {index index' : Ref} (hindex : Paired pairs s s' index index') :
    Parallel (fun f => f) pairs freed freed' s s' (relatedItems r index)
      (relatedItems r' index') := by
  refine parallel_ask RelationKey.rename ha (fun _ hf => ha.valueKey hindex hf)
    fun key key' _ hkey => ?_
  refine parallel_ask Relation.rename ha (fun _ hf => relation_of_get (ha.get hr hf))
    fun a a' _ heq => parallel_arrayOfItems ha fun f hf => ?_
  rw [heq f hf, hkey f hf, Relation.itemsAt_rename a hf.injective]

theorem parallel_relatedIndexes {item item' : Ref} (hitem : Paired pairs s s' item item') :
    Parallel (fun f => f) pairs freed freed' s s' (relatedIndexes r item)
      (relatedIndexes r' item') := by
  refine parallel_ask RelationKey.rename ha (fun _ hf => ha.valueKey hitem hf)
    fun key key' _ hkey => ?_
  refine parallel_ask Relation.rename ha (fun _ hf => relation_of_get (ha.get hr hf))
    fun a a' _ heq => parallel_arrayOfItems ha fun f hf => ?_
  rw [heq f hf, hkey f hf, Relation.indexesOf_rename a hf.injective]

theorem parallel_relationSupplier {index index' : Option Ref}
    (hindex : ∀ f, Renames pairs f → index' = index.map f)
    (hlive : ∀ x ∈ index, ∀ x' ∈ index', Paired pairs s s' x x') :
    Parallel (fun f => f) pairs freed freed' s s' (relationSupplier r index)
      (relationSupplier r' index') := by
  refine parallel_ask (fun f => List.map (Prod.map f f)) ha (fun f hf => ?_) fun ps ps' _ heq => ?_
  · have hrelation := relation_of_get (ha.get hr hf)
    obtain rfl := hindex f hf
    cases index with
    | none =>
      refine bind_eq_map hrelation fun a _ => ?_
      exact congrArg Except.ok a.pairs_rename
    | some x =>
      refine bind_eq_map (ha.valueKey (hlive x rfl (f x) rfl) hf) fun key _ => ?_
      refine bind_eq_map hrelation fun a _ => ?_
      exact congrArg Except.ok (a.pairsAt_rename hf.injective key)
  · refine parallel_alloc ha fun f hf => ?_
    rw [heq f hf]
    simp only [List.map_map, Object.rename, ← Supplier.ofLists_rename]
    rfl

end

end Managed.Space
