import Managed.Proofs.Space.Effect

/-!
# Keys of relations

A relation files its entries under the keys that their objects counted as when they were put. The keys
stay true (`relation_keys`): the text of a string does not change, no object changes its class, and a
relation that survives a collection keeps its entries' objects alive, whether it can be reached or not.
For that the relation has to be remembered if it is old and holds a young object. No other object has to
be, so the argument goes through wherever barriers for other objects are missing.
-/

namespace Managed

/-- What an object counts as that is named by `x`. -/
def Object.keyAs (o : Object) (x : Ref) : RelationKey :=
  match o with
  | .string text => .text text
  | .array _ | .relation _ | .supplier _ => .identity x

namespace Space

variable {s t : Space} {op : Operation} {ended : Bool}

/-! ## What objects count as -/

theorem valueKey_eq_ok {x : Ref} {k : RelationKey} :
    s.valueKey x = .ok k ↔ ∃ o, s.heap.get? x = some o ∧ o.keyAs x = k := by
  unfold valueKey
  cases hx : s.get x with
  | error e =>
    have hnone : ∀ o, s.heap.get? x ≠ some o := fun o ho => by
      rw [get_eq_ok.mpr ho] at hx
      cases hx
    simp [bind, Except.bind, hnone]
  | ok o =>
    rw [get_eq_ok] at hx
    cases o <;> simp [bind, Except.bind, pure, Except.pure, hx, Object.keyAs]

/-- Two objects have the same value if they count as the same. -/
theorem equalValue_iff {x y : Ref} {k : RelationKey} (hx : s.valueKey x = .ok k) :
    s.equalValue x y = .ok true ↔ s.valueKey y = .ok k := by
  unfold equalValue
  by_cases hxy : x = y
  · subst hxy
    simp [hx, pure, Except.pure]
  · obtain ⟨o, ho, rfl⟩ := valueKey_eq_ok.mp hx
    rw [if_neg hxy, get_eq_ok.mpr ho, valueKey_eq_ok]
    cases hy : s.get y with
    | error e =>
      have hnone : ∀ p, s.heap.get? y ≠ some p := fun p hp => by
        rw [get_eq_ok.mpr hp] at hy
        cases hy
      simp [bind, Except.bind, hnone]
    | ok p =>
      rw [get_eq_ok] at hy
      have hyx : ¬ y = x := fun h => hxy h.symm
      cases o <;> cases p <;>
        simp [bind, Except.bind, pure, Except.pure, hy, Object.keyAs, hyx]
      exact eq_comm

/-- A relation whose keys are true finds items by their values. -/
theorem isRelated_iff {r item index : Ref} {a : Relation} (ha : s.relation r = .ok a)
    (hfiled : a.Filed fun x k => s.valueKey x = .ok k) :
    s.isRelated r item index = .ok true ↔
      ∃ e ∈ a.entries, s.equalValue e.index index = .ok true ∧ s.equalValue e.item item = .ok true := by
  have hkeys : s.isRelated r item index = .ok true ↔
      ∃ itemKey key, s.valueKey item = .ok itemKey ∧ s.valueKey index = .ok key ∧
        a.hasItem itemKey key = true := by
    unfold isRelated
    cases s.valueKey item with
    | error e => simp [bind, Except.bind]
    | ok itemKey =>
      cases s.valueKey index with
      | error e => simp [bind, Except.bind]
      | ok key => simp [bind, Except.bind, ha, pure, Except.pure]
  rw [hkeys]
  constructor
  · rintro ⟨itemKey, key, hitem, hindex, hfound⟩
    obtain ⟨b, hb, e, he, rfl, rfl⟩ := hfiled.hasItem_iff.mp hfound
    exact ⟨e, Relation.mem_entries.mpr ⟨b, hb, he⟩, (equalValue_iff (hfiled.index b hb e he)).mpr hindex,
      (equalValue_iff (hfiled.item b hb e he)).mpr hitem⟩
  · rintro ⟨e, he, hindex, hitem⟩
    obtain ⟨b, hb, he⟩ := Relation.mem_entries.mp he
    exact ⟨e.itemKey, b.key, (equalValue_iff (hfiled.item b hb e he)).mp hitem,
      (equalValue_iff (hfiled.index b hb e he)).mp hindex,
      hfiled.hasItem_iff.mpr ⟨b, hb, e, he, rfl, rfl⟩⟩

/-! ## The invariant -/

/-- All relations have their entries filed under the right keys, and an old one that holds a young
object is remembered. -/
structure Keyed (s : Space) : Prop where
  tidy : s.heap.Tidy
  filed : ∀ r a, s.relation r = .ok a → a.Filed fun x k => s.valueKey x = .ok k
  guarded : ∀ r a, s.relation r = .ok a → s.heap.Guarded r

theorem Keyed.live (hs : s.Keyed) {r x : Ref} {a : Relation} (ha : s.relation r = .ok a)
    (hx : x ∈ Traced.refs a) : s.heap.contains x = true := by
  obtain ⟨e, he, hxe⟩ := Relation.mem_refs.mp hx
  obtain ⟨b, hb, he⟩ := Relation.mem_entries.mp he
  have hkey : ∃ k, s.valueKey x = .ok k := by
    rcases hxe with rfl | rfl
    · exact ⟨_, (hs.filed r a ha).index b hb e he⟩
    · exact ⟨_, (hs.filed r a ha).item b hb e he⟩
  obtain ⟨k, hk⟩ := hkey
  obtain ⟨o, ho, _⟩ := valueKey_eq_ok.mp hk
  exact Heap.contains_iff_get?.mpr ⟨o, ho⟩

theorem keyed_start (limits : SpaceLimits) : (ofLimits limits).Keyed := by
  have hnone : ∀ r a, (ofLimits limits).relation r ≠ .ok a := by
    intro r a ha
    rw [relation_eq_ok] at ha
    simp [ofLimits, Heap.get?, Heap.resolve?] at ha
  exact ⟨(Session.sound_start limits.heap).tidy, fun r a ha => absurd ha (hnone r a),
    fun r a ha => absurd ha (hnone r a)⟩

theorem keyed_alloc (hs : s.Keyed) {o : Object} {r : Ref} {heap : Heap Object}
    (ha : s.heap.alloc o = .ok (r, heap)) (ho : ∀ a, o = .relation a → a = {}) :
    Keyed { s with heap } := by
  have halloc := Heap.alloc_cases ha hs.tidy.free_vacant
  have hstale : ∀ o, s.heap.get? r ≠ some o := by
    intro o ho
    simp [Heap.get?, halloc.stale] at ho
  refine ⟨halloc.tidy hs.tidy, fun x a hx => ?_, fun x a hx => ?_⟩
  · rw [relation_eq_ok, halloc.get?] at hx
    split at hx
    · obtain rfl := ho a (Option.some.inj hx)
      exact Relation.filed_empty
    · refine (hs.filed x a (relation_eq_ok.mpr hx)).imp fun y _ k hk => ?_
      obtain ⟨p, hp, hkey⟩ := valueKey_eq_ok.mp hk
      refine valueKey_eq_ok.mpr ⟨p, ?_, hkey⟩
      rw [halloc.get?, if_neg, hp]
      rintro rfl
      exact hstale p hp
  · by_cases hxr : x = r
    · -- what is new is young
      subst hxr
      intro hy
      exact absurd rfl (halloc.needsBarrier (Heap.holdsYoung_iff.mp hy).1).1
    · rw [relation_eq_ok, halloc.get?, if_neg hxr, ← relation_eq_ok] at hx
      refine halloc.guarded (hs.guarded x a hx) fun hr => ?_
      rw [Heap.children, relation_eq_ok.mp hx] at hr
      have hlive := hs.live hx hr
      rw [Heap.contains, halloc.stale] at hlive
      cases hlive

theorem keyed_makes (h : Makes s t) (hs : s.Keyed) : t.Keyed := by
  induction h with
  | refl => exact hs
  | alloc ho ha _ ih =>
    refine ih (keyed_alloc hs ha ?_)
    rintro a rfl
    cases ho
    rfl

/-- No object changes its class, so it goes on counting as the same. -/
theorem keyAs_alters {old new : Object} {handles : List Ref} (h : Alters s op ended old new handles)
    (x : Ref) : new.keyAs x = old.keyAs x := by
  cases h <;> rfl

theorem keyed_stored (hs : s.Keyed) {r : Ref} {old new : Object} {handles : List Ref}
    (hr : s.heap.get? r = some old) (h : Alters s op ended old new handles) :
    (s.stored r new handles).Keyed := by
  have hget := get?_stored hs.tidy hr new handles
  have hkeys : ∀ x k, s.valueKey x = .ok k → (s.stored r new handles).valueKey x = .ok k := by
    intro x k hk
    obtain ⟨o, ho, hkey⟩ := valueKey_eq_ok.mp hk
    rw [valueKey_eq_ok, hget]
    by_cases hx : x = r
    · subst hx
      rw [hr] at ho
      cases ho
      exact ⟨new, if_pos rfl, (keyAs_alters h x).trans hkey⟩
    · exact ⟨o, by rw [if_neg hx, ho], hkey⟩
  -- a relation of the new space was a relation before, and holds what it held or a barrier was called for
  have hwas : ∀ x a, (s.stored r new handles).relation x = .ok a →
      ∃ b, s.relation x = .ok b ∧ (a.Filed fun x k => s.valueKey x = .ok k) ∧
        (x = r → ∀ y ∈ Traced.refs a, y ∈ Traced.refs b ∨ y ∈ handles) := by
    intro x a ha
    rw [relation_eq_ok, hget] at ha
    split at ha
    · next hx =>
      subst hx
      cases ha
      cases h with
      | @relate item index b itemKey key hitem hindex =>
        have hb := relation_eq_ok.mpr hr
        exact ⟨b, hb, Relation.filed_put (hs.filed _ b hb) hitem hindex,
          fun _ y hy => Relation.mem_refs_of_put hy⟩
      | @unrelate b key p =>
        have hb := relation_eq_ok.mpr hr
        exact ⟨b, hb, Relation.filed_removeWhere (hs.filed _ b hb) key p,
          fun _ y hy => Or.inl (Relation.mem_refs_of_removeWhere hy)⟩
    · next hx =>
      have ha := relation_eq_ok.mpr ha
      exact ⟨a, ha, hs.filed x a ha, fun h => absurd h hx⟩
  refine ⟨tidy_stored hs.tidy r new handles, fun x a ha => ?_, fun x a ha => ?_⟩
  · obtain ⟨_, _, hfiled, _⟩ := hwas x a ha
    exact hfiled.imp fun y _ k hk => hkeys y k hk
  · obtain ⟨b, hb, _, hsub⟩ := hwas x a ha
    rw [stored_of_live hr, setObject_of_live hr]
    refine Heap.guarded_store hs.tidy (hs.guarded x b hb) fun hx y hy => ?_
    subst hx
    rw [relation_eq_ok, hget, if_pos rfl] at ha
    cases ha
    rw [Heap.children, relation_eq_ok.mp hb]
    exact hsub rfl y hy

/-- A relation that survives keeps what it holds. -/
theorem keyed_collect (hs : s.Keyed) (kind : CollectionKind) :
    Keyed { s with heap := s.heap.collect kind s.roots } := by
  have hwas : ∀ x o, (s.heap.collect kind s.roots).get? x = some o →
      s.heap.spares kind s.roots x = true ∧ s.heap.get? x = some o := by
    intro x o hx
    rw [Heap.get?_collect hs.tidy] at hx
    split at hx
    · next hspared => exact ⟨hspared, hx⟩
    · cases hx
  refine ⟨Heap.tidy_collect hs.tidy kind s.roots, fun x a ha => ?_, fun x a ha => ?_⟩
  · obtain ⟨hspared, hx⟩ := hwas x _ (relation_eq_ok.mp ha)
    have ha := relation_eq_ok.mpr hx
    refine (hs.filed x a ha).imp fun y hy k hk => ?_
    have hkept : s.heap.spares kind s.roots y = true :=
      Heap.spared_of_guarded hs.tidy kind s.roots (hs.guarded x a ha)
        (Heap.contains_iff_get?.mpr ⟨_, hx⟩) hspared (mem_children hx hy)
    obtain ⟨o, ho, hkey⟩ := valueKey_eq_ok.mp hk
    refine valueKey_eq_ok.mpr ⟨o, ?_, hkey⟩
    rw [Heap.get?_collect hs.tidy, if_pos hkept, ho]
  · obtain ⟨_, hx⟩ := hwas x _ (relation_eq_ok.mp ha)
    exact Heap.guarded_collect hs.tidy kind s.roots (hs.guarded x a (relation_eq_ok.mpr hx))

theorem keyed_tenure (hs : s.Keyed) {r : Ref} {heap : Heap Object}
    (ht : s.heap.tenure r = .ok heap) : Keyed { s with heap } := by
  rcases Heap.tenure_cases ht with rfl | rfl
  · exact hs
  · have hget : ∀ x, ((s.heap.tenured r).rememberHolder r).get? x = s.heap.get? x := by
      intro x
      rw [(Heap.sameObjects_rememberHolder _ _).get?, Heap.get?_tenured]
    refine ⟨Heap.tidy_rememberHolder (Heap.tidy_tenured hs.tidy r) r, fun x a ha => ?_,
      fun x a ha => ?_⟩
    · rw [relation_eq_ok, hget, ← relation_eq_ok] at ha
      refine (hs.filed x a ha).imp fun y _ k hk => ?_
      rw [valueKey_eq_ok] at hk ⊢
      rwa [hget]
    · rw [relation_eq_ok, hget, ← relation_eq_ok] at ha
      exact Heap.guarded_tenured hs.tidy (hs.guarded x a ha) r

theorem keyed_effect (h : Effect s op ended t) (hs : s.Keyed)
    (hop : ∀ a, op = .alloc (.relation a) → a = {}) : t.Keyed := by
  cases h with
  | made hm => exact keyed_makes hm hs
  | given hgiven ha =>
    refine keyed_alloc hs ha ?_
    rintro a rfl
    exact hop a hgiven
  | altered hr halters => exact keyed_stored hs hr halters
  | tenured ht => exact keyed_tenure hs ht
  | rooted roots => exact ⟨hs.tidy, hs.filed, hs.guarded⟩
  | @collected kind _ => exact keyed_collect hs kind

end Space

namespace Track

theorem keyed_run {t : Track} (ht : t.space.Keyed) {ops : List Operation}
    (hops : ∀ op ∈ ops, ∀ a, op = .alloc (.relation a) → a = {}) : (t.run ops).space.Keyed := by
  induction ops generalizing t with
  | nil => exact ht
  | cons op rest ih =>
    refine ih (t := t.step op) ?_ fun op' hop' => hops op' (List.mem_cons_of_mem _ hop')
    exact Space.keyed_effect (Space.effect_run op t.space) ht (hops op List.mem_cons_self)

/-- The keys of relations are true after every run in which relations are made empty: every entry of a
live relation, whether that can be reached or not, has live objects, is filed under what its index counts
as and says what its item counts as. So an item is found under an index if and only if the relation has
an entry with an index and an item of the same values. -/
theorem relation_keys (limits : SpaceLimits) (ops : List Operation)
    (hops : ∀ op ∈ ops, ∀ a, op = .alloc (.relation a) → a = {}) (r : Ref) (a : Relation) :
    let s := ((start limits).run ops).space
    s.relation r = .ok a →
      (∀ b ∈ a.buckets, ∀ e ∈ b.entries,
        s.heap.contains e.index = true ∧ s.heap.contains e.item = true ∧
        s.valueKey e.index = .ok b.key ∧ s.valueKey e.item = .ok e.itemKey) ∧
      ∀ item index, s.isRelated r item index = .ok true ↔
        ∃ e ∈ a.entries, s.equalValue e.index index = .ok true ∧
          s.equalValue e.item item = .ok true := by
  intro s ha
  have hs : s.Keyed := keyed_run (Space.keyed_start limits) hops
  have hfiled := hs.filed r a ha
  refine ⟨fun b hb e he => ⟨?_, ?_, hfiled.index b hb e he, hfiled.item b hb e he⟩, fun item index => ?_⟩
  · exact hs.live ha (Relation.index_mem_refs (Relation.mem_entries.mpr ⟨b, hb, he⟩))
  · exact hs.live ha (Relation.item_mem_refs (Relation.mem_entries.mpr ⟨b, hb, he⟩))
  · exact Space.isRelated_iff ha hfiled

/-- An old relation that nothing holds keeps two young strings through a minor collection. -/
theorem relation_keys_unreachable :
    let r : Ref := ⟨0, 0⟩
    let ops : List Operation :=
      [.newRelation, .tenure r, .newString "k", .newString "v", .relate r ⟨2, 0⟩ ⟨1, 0⟩,
        .collect .minor]
    let s := ((start {}).run ops).space
    (∀ op ∈ ops, ∀ a, op = .alloc (.relation a) → a = {}) ∧ ∃ a, s.relation r = .ok a ∧ a.len = 1 ∧
      ∀ b ∈ a.buckets, ∀ e ∈ b.entries,
        s.valueKey e.index = .ok b.key ∧ s.valueKey e.item = .ok e.itemKey := by
  intro r ops s
  have hops : ∀ op ∈ ops, ∀ a, op = .alloc (.relation a) → a = {} := by
    rintro _ hop a rfl
    simp [ops] at hop
  have hcheck : (s.relation r).toOption.any (fun a => decide (a.len = 1)) = true := by
    decide +kernel
  cases ha : s.relation r with
  | error e =>
    rw [ha] at hcheck
    cases hcheck
  | ok a =>
    rw [ha] at hcheck
    refine ⟨hops, a, rfl, of_decide_eq_true hcheck, fun b hb e he => ?_⟩
    exact ((relation_keys {} ops hops r a ha).1 b hb e he).2.2

end Track

end Managed
