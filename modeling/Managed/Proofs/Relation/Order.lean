import Managed.Proofs.Relation.Buckets

/-!
# The order of pairs in a relation

`listed` gives the entries of a relation in order, each with its index key. It is what the pairs, the
suppliers and the first matches of a relation are read off, so this is where the order is seen. A change
affects the entries with one key, which stand together, and leaves those around them as they are
(`listed_refiled`): to put a pair replaces it where it stands or adds it behind the last pair with its
index key, and to remove pairs lets the others close up (`changes_keep_order`). An index key that has
lost its last pair has lost its place, too.
-/

namespace Managed.Relation

variable {r : Relation} {key itemKey : RelationKey} {front back : List Bucket}

/-- The entries of some buckets with their index keys. -/
def listing (buckets : List Bucket) : List (RelationKey × RelationEntry) :=
  buckets.flatMap fun b => b.entries.map fun e => (b.key, e)

/-- The entries of a relation with their index keys, in order. -/
def listed (r : Relation) : List (RelationKey × RelationEntry) :=
  listing r.buckets

theorem pairs_eq_map_listed (r : Relation) : r.pairs = r.listed.map fun p => pairOf p.2 := by
  rw [pairs, entries, listed, listing, List.map_flatMap, List.map_flatMap]
  refine List.flatMap_congr fun b _ => ?_
  rw [List.map_map]
  rfl

theorem listed_refiled (front back : List Bucket) (key : RelationKey) (entries : List RelationEntry)
    (len : Nat) : (refiled front key entries back len).listed =
      listing front ++ entries.map (fun e => (key, e)) ++ listing back := by
  have hbucket : listing (bucketOf key entries) = entries.map fun e => (key, e) := by
    by_cases hnil : entries = []
    · rw [hnil, bucketOf_nil]
      rfl
    · rw [bucketOf_of_ne_nil hnil, listing, List.flatMap_singleton]
  simp only [listed, refiled, listing, List.flatMap_append] at hbucket ⊢
  rw [hbucket]

theorem Around.listed (ha : Around r key front back) :
    r.listed = listing front ++ (r.entriesAt key).map (fun e => (key, e)) ++ listing back := by
  rw [← listed_refiled front back key _ r.len, refiled_self ha]

theorem ne_of_mem_listing {buckets : List Bucket} (h : ∀ b ∈ buckets, b.key ≠ key)
    {p : RelationKey × RelationEntry} (hp : p ∈ listing buckets) : p.1 ≠ key := by
  obtain ⟨b, hb, hp⟩ := List.mem_flatMap.mp hp
  obtain ⟨e, _, rfl⟩ := List.mem_map.mp hp
  exact h b hb

/-! ## Pairs -/

/-- Whether an entry in the list is for an index and an item. -/
def isPair (key itemKey : RelationKey) (p : RelationKey × RelationEntry) : Bool :=
  p.1 = key && p.2.itemKey = itemKey

theorem isPair_of_ne {p : RelationKey × RelationEntry} (h : p.1 ≠ key) :
    isPair key itemKey p = false := by
  rw [isPair, decide_eq_false h, Bool.false_and]

@[simp] theorem isPair_self (key itemKey : RelationKey) (e : RelationEntry) :
    isPair key itemKey (key, e) = decide (e.itemKey = itemKey) := by
  rw [isPair, decide_eq_true rfl, Bool.true_and]

/-- Each pair is listed once. -/
theorem Consistent.nodup_listed (h : r.Consistent) :
    (r.listed.map fun p => (p.1, p.2.itemKey)).Nodup := by
  rw [listed, listing, List.map_flatMap, List.nodup_flatMap]
  refine ⟨fun b hb => ?_, ?_⟩
  · rw [List.map_map]
    have hinjective : Function.Injective (Prod.mk b.key : RelationKey → RelationKey × RelationKey) :=
      fun _ _ heq => congrArg Prod.snd heq
    have hkeys := (h.distinct b hb).map hinjective
    rwa [List.map_map] at hkeys
  · refine (List.pairwise_map.mp h.nodup).imp fun {b c} hne => ?_
    intro p hp hp'
    obtain ⟨_, he, rfl⟩ := List.mem_map.mp hp
    obtain ⟨_, _, rfl⟩ := List.mem_map.mp he
    obtain ⟨_, he', heq⟩ := List.mem_map.mp hp'
    obtain ⟨_, _, rfl⟩ := List.mem_map.mp he'
    exact hne (congrArg Prod.fst heq).symm

section

variable (ha : Around r key front back) {which : RelationKey × RelationEntry → Bool}
  (hwhich : ∀ p, p.1 ≠ key → which p = false)
include ha

theorem Around.front_listing : ∀ p ∈ listing front, p.1 ≠ key :=
  fun _ hp => ne_of_mem_listing ha.front_ne hp

theorem Around.back_listing : ∀ p ∈ listing back, p.1 ≠ key :=
  fun _ hp => ne_of_mem_listing ha.back_ne hp

include hwhich

/-- What is looked for under one key is found among the entries with that key. -/
theorem Around.find?_listed :
    r.listed.find? which = ((r.entriesAt key).find? fun e => which (key, e)).map fun e => (key, e) := by
  have hfront : (listing front).find? which = none := by
    refine List.find?_eq_none.mpr fun p hp => ?_
    simp [hwhich p (ha.front_listing p hp)]
  have hback : (listing back).find? which = none := by
    refine List.find?_eq_none.mpr fun p hp => ?_
    simp [hwhich p (ha.back_listing p hp)]
  rw [ha.listed, List.find?_append, List.find?_append, hfront, hback, Option.none_or, Option.or_none,
    List.find?_map]
  rfl

theorem Around.eraseP_listed :
    r.listed.eraseP which = listing front ++
      ((r.entriesAt key).eraseP fun e => which (key, e)).map (fun e => (key, e)) ++ listing back := by
  have hfront : ∀ p ∈ listing front, ¬which p = true := by
    intro p hp
    simp [hwhich p (ha.front_listing p hp)]
  have hback : (listing back).eraseP which = listing back := by
    refine List.eraseP_of_forall_not fun p hp => ?_
    simp [hwhich p (ha.back_listing p hp)]
  have hhere : (((r.entriesAt key).map fun e => (key, e)) ++ listing back).eraseP which =
      ((r.entriesAt key).eraseP fun e => which (key, e)).map (fun e => (key, e)) ++ listing back := by
    rw [List.eraseP_append, List.eraseP_map, hback]
    split
    · rfl
    · next hnone =>
      rw [List.eraseP_of_forall_not (by simpa using hnone)]
  rw [ha.listed, List.append_assoc, List.eraseP_append_right _ hfront, hhere, List.append_assoc]

end

/-! ## Changes -/

section

variable (h : r.Consistent)
include h

/-- The first entry with a property is removed, for properties of entries with one index key. -/
theorem Consistent.removeWhere_listed (which : RelationKey × RelationEntry → Bool)
    (hwhich : ∀ p, p.1 ≠ key → which p = false) :
    (r.removeWhere key fun e => which (key, e)).1 = (r.listed.find? which).map (·.2.item) ∧
      (r.removeWhere key fun e => which (key, e)).2.listed = r.listed.eraseP which := by
  obtain ⟨front, back, ha⟩ := h.exists_around key
  rw [ha.find?_listed hwhich, ha.eraseP_listed hwhich]
  cases hfind : (r.entriesAt key).find? fun e => which (key, e) with
  | none =>
    rw [removeWhere_of_none hfind, List.eraseP_of_forall_not (List.find?_eq_none.mp hfind)]
    exact ⟨rfl, ha.listed⟩
  | some e =>
    rw [removeWhere_of_some ha hfind]
    exact ⟨rfl, listed_refiled _ _ _ _ _⟩

theorem Consistent.remove_listed (key : RelationKey) :
    (r.remove key).1 = (r.listed.find? (·.1 = key)).map (·.2.item) ∧
      (r.remove key).2.listed = r.listed.eraseP (·.1 = key) := by
  have hremoved := h.removeWhere_listed (·.1 = key) fun p hp => decide_eq_false hp
  simp only [decide_true] at hremoved
  exact hremoved

theorem Consistent.removeItem_listed (itemKey key : RelationKey) :
    (r.removeItem itemKey key).1 = (r.listed.find? (isPair key itemKey)).map (·.2.item) ∧
      (r.removeItem itemKey key).2.listed = r.listed.eraseP (isPair key itemKey) := by
  have hremoved := h.removeWhere_listed (isPair key itemKey) fun p hp => isPair_of_ne hp
  simp only [isPair_self] at hremoved
  exact hremoved

theorem Consistent.removeAll_listed (key : RelationKey) :
    (r.removeAll key).1 = (r.listed.filter (·.1 = key)).map (·.2.item) ∧
      (r.removeAll key).2.listed = r.listed.filter (·.1 ≠ key) := by
  obtain ⟨front, back, ha⟩ := h.exists_around key
  rw [removeAll_eq ha, listed_refiled, ha.listed]
  have hothers : ∀ ps : List (RelationKey × RelationEntry), (∀ p ∈ ps, p.1 ≠ key) →
      ps.filter (·.1 = key) = [] ∧ ps.filter (·.1 ≠ key) = ps := by
    intro ps hps
    exact ⟨List.filter_eq_nil_iff.mpr (by simpa using hps),
      List.filter_eq_self.mpr (by simpa using hps)⟩
  obtain ⟨hfront, hfront'⟩ := hothers _ ha.front_listing
  obtain ⟨hback, hback'⟩ := hothers _ ha.back_listing
  have hhere : ((r.entriesAt key).map fun e => (key, e)).filter (·.1 = key) =
      (r.entriesAt key).map fun e => (key, e) := List.filter_eq_self.mpr (by simp)
  have hhere' : ((r.entriesAt key).map fun e => (key, e)).filter (·.1 ≠ key) = [] :=
    List.filter_eq_nil_iff.mpr (by simp)
  simp only [List.filter_append, hfront, hfront', hback, hback', hhere, hhere', List.append_nil,
    List.nil_append, List.map_map, List.map_nil, and_true]
  rfl

theorem Consistent.hasItem_listed (itemKey key : RelationKey) :
    r.hasItem itemKey key = r.listed.any (isPair key itemKey) := by
  obtain ⟨front, back, ha⟩ := h.exists_around key
  rw [← List.isSome_find?, ha.find?_listed fun p hp => isPair_of_ne hp, Option.isSome_map,
    List.isSome_find?, hasItem]
  simp only [isPair_self]

theorem Consistent.put_fst (item index : Ref) (itemKey key : RelationKey) :
    (r.put item itemKey index key).1 = !r.hasItem itemKey key := by
  obtain ⟨front, back, ha⟩ := h.exists_around key
  cases hitem : r.hasItem itemKey key with
  | true => rw [put_of_hasItem ha hitem]; rfl
  | false => rw [put_of_not_hasItem ha hitem]; rfl

/-- A pair that is there already is replaced where it stands. -/
theorem Consistent.put_listed_of_hasItem (hitem : r.hasItem itemKey key = true) (item index : Ref) :
    (r.put item itemKey index key).2.listed = r.listed.map fun p =>
      if isPair key itemKey p then (key, ⟨index, item, itemKey⟩) else p := by
  obtain ⟨front, back, ha⟩ := h.exists_around key
  have hothers : ∀ ps : List (RelationKey × RelationEntry), (∀ p ∈ ps, p.1 ≠ key) →
      ps.map (fun p => if isPair key itemKey p then (key, ⟨index, item, itemKey⟩) else p) = ps := by
    intro ps hps
    refine (List.map_congr_left fun p hp => ?_).trans (List.map_id ps)
    rw [isPair_of_ne (hps p hp), if_neg Bool.false_ne_true, id]
  have hhere : ((r.entriesAt key).map fun e => (key, e)).map
      (fun p => if isPair key itemKey p then (key, ⟨index, item, itemKey⟩) else p) =
      (replaced ⟨index, item, itemKey⟩ (r.entriesAt key)).map fun e => (key, e) := by
    rw [replaced, List.map_map, List.map_map]
    refine List.map_congr_left fun e _ => ?_
    simp only [Function.comp_apply, isPair_self, decide_eq_true_eq]
    split <;> rfl
  rw [put_of_hasItem ha hitem, listed_refiled, ha.listed, List.map_append, List.map_append,
    hothers _ ha.front_listing, hothers _ ha.back_listing, hhere]

/-- A new pair is added behind the last one with its index key, or behind all others. -/
theorem Consistent.put_listed_of_not_hasItem (hitem : r.hasItem itemKey key = false)
    (item index : Ref) :
    ∃ before after, r.listed = before ++ after ∧
      (r.put item itemKey index key).2.listed = before ++ (key, ⟨index, item, itemKey⟩) :: after ∧
      (∀ p ∈ after, p.1 ≠ key) ∧
      ((∃ p ∈ r.listed, p.1 = key) → ∃ p ∈ before.getLast?, p.1 = key) ∧
      ((∀ p ∈ r.listed, p.1 ≠ key) → after = []) := by
  obtain ⟨front, back, ha⟩ := h.exists_around key
  refine ⟨listing front ++ (r.entriesAt key).map (fun e => (key, e)), listing back, ha.listed, ?_,
    ha.back_listing, fun ⟨p, hp, hkey⟩ => ?_, fun hnone => ?_⟩
  · rw [put_of_not_hasItem ha hitem, listed_refiled, List.map_append, List.append_assoc,
      List.append_assoc, List.append_assoc]
    rfl
  · have hne : r.entriesAt key ≠ [] := by
      intro hnil
      rw [ha.listed, hnil, ha.back_nil hnil, List.map_nil, List.append_nil] at hp
      rcases List.mem_append.mp hp with hp | hp
      · exact ha.front_listing p hp hkey
      · cases hp
    refine ⟨(key, (r.entriesAt key).getLast hne), ?_, rfl⟩
    rw [List.getLast?_append, List.getLast?_map, List.getLast?_eq_some_getLast hne]
    rfl
  · have hnil : r.entriesAt key = [] := by
      refine List.eq_nil_iff_forall_not_mem.mpr fun e he => ?_
      refine hnone (key, e) ?_ rfl
      rw [ha.listed]
      exact List.mem_append_left _ (List.mem_append_right _ (List.mem_map_of_mem he))
    rw [ha.back_nil hnil]
    rfl

/-- To remove a pair that has just been added undoes the change. -/
theorem Consistent.removeItem_put (hitem : r.hasItem itemKey key = false) (item index : Ref) :
    (r.put item itemKey index key).2.removeItem itemKey key = (some item, r) := by
  obtain ⟨front, back, ha⟩ := h.exists_around key
  rw [put_of_not_hasItem ha hitem]
  obtain ⟨hentries, ha'⟩ := around_refiled ha
    (List.append_ne_nil_of_right_ne_nil (r.entriesAt key)
      (List.cons_ne_nil (⟨index, item, itemKey⟩ : RelationEntry) [])) (r.len + 1)
  -- no other entry has the item key, so the one that was added is found
  have hothers : ∀ e ∈ r.entriesAt key, ¬decide (e.itemKey = itemKey) = true :=
    List.any_eq_false.mp hitem
  have hfind : (r.entriesAt key ++ [(⟨index, item, itemKey⟩ : RelationEntry)]).find?
      (·.itemKey = itemKey) = some ⟨index, item, itemKey⟩ := by
    rw [List.find?_append, List.find?_eq_none.mpr hothers, Option.none_or,
      List.find?_cons_of_pos (by simp)]
  have herase : (r.entriesAt key ++ [(⟨index, item, itemKey⟩ : RelationEntry)]).eraseP
      (·.itemKey = itemKey) = r.entriesAt key := by
    rw [List.eraseP_append_right _ hothers, List.eraseP_cons_of_pos (by simp),
      List.append_nil]
  rw [← hentries] at hfind
  rw [removeItem, removeWhere_of_some ha' hfind, hentries, herase]
  exact congrArg (Prod.mk (some item)) (refiled_self ha)

end

/-- Each pair is listed once. A pair that is put takes the place of the one that is there for its keys,
or is added behind the last pair with its index key, or else behind all pairs, and nothing else is moved
or changed. Pairs that are removed are the first with the index key, the one for both keys or all with the
index key, and the others stay in their order. To remove a pair that has just been added leaves the
relation as it was. -/
theorem changes_keep_order (changes : List Change) (item index : Ref) (itemKey key : RelationKey) :
    let r := ofChanges changes
    let new := (r.put item itemKey index key).1
    let put := (r.put item itemKey index key).2
    r.pairs = r.listed.map (fun p => pairOf p.2) ∧
    (r.listed.map fun p => (p.1, p.2.itemKey)).Nodup ∧
    new = !r.listed.any (isPair key itemKey) ∧
    (new = false → put.listed = r.listed.map fun p =>
      if isPair key itemKey p then (key, ⟨index, item, itemKey⟩) else p) ∧
    (new = true →
      (∃ before after, r.listed = before ++ after ∧
        put.listed = before ++ (key, ⟨index, item, itemKey⟩) :: after ∧ (∀ p ∈ after, p.1 ≠ key) ∧
        ((∃ p ∈ r.listed, p.1 = key) → ∃ p ∈ before.getLast?, p.1 = key) ∧
        ((∀ p ∈ r.listed, p.1 ≠ key) → after = [])) ∧
      put.removeItem itemKey key = (some item, r)) ∧
    (r.remove key).1 = (r.listed.find? (·.1 = key)).map (·.2.item) ∧
    (r.remove key).2.listed = r.listed.eraseP (·.1 = key) ∧
    (r.removeItem itemKey key).1 = (r.listed.find? (isPair key itemKey)).map (·.2.item) ∧
    (r.removeItem itemKey key).2.listed = r.listed.eraseP (isPair key itemKey) ∧
    (r.removeAll key).1 = (r.listed.filter (·.1 = key)).map (·.2.item) ∧
    (r.removeAll key).2.listed = r.listed.filter (·.1 ≠ key) := by
  intro r new put
  have h : r.Consistent := consistent_ofChanges changes
  have hnew : new = !r.hasItem itemKey key := h.put_fst item index itemKey key
  refine ⟨pairs_eq_map_listed r, h.nodup_listed, ?_, fun hfalse => ?_, fun htrue => ?_,
    (h.remove_listed key).1, (h.remove_listed key).2, (h.removeItem_listed itemKey key).1,
    (h.removeItem_listed itemKey key).2, (h.removeAll_listed key).1, (h.removeAll_listed key).2⟩
  · rw [hnew, h.hasItem_listed]
  · rw [hfalse] at hnew
    exact h.put_listed_of_hasItem (by simpa using hnew.symm) item index
  · rw [htrue] at hnew
    have hitem : r.hasItem itemKey key = false := by simpa using hnew.symm
    exact ⟨h.put_listed_of_not_hasItem hitem item index, h.removeItem_put hitem item index⟩

end Managed.Relation
