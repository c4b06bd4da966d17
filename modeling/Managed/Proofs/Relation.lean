import Managed.Relation
import Mathlib.Data.List.Nodup

/-!
# What a relation holds

A relation answers with handles that it holds. A change brings in no handles but those of the entry it
is given. If the keys it is given are those that the objects count as, all its entries stay filed under
the right keys (`Filed`).
-/

namespace Managed.Relation

variable {r : Relation} {key itemKey : RelationKey}

theorem mem_refs {x : Ref} :
    x ∈ Traced.refs r ↔ ∃ e ∈ r.entries, x = e.index ∨ x = e.item := by
  simp [Traced.refs, List.mem_flatMap]

theorem mem_entries {e : RelationEntry} : e ∈ r.entries ↔ ∃ b ∈ r.buckets, e ∈ b.entries :=
  List.mem_flatMap

theorem mem_entries_of_entriesAt {e : RelationEntry} (he : e ∈ r.entriesAt key) : e ∈ r.entries := by
  unfold entriesAt bucket? at he
  cases hb : r.buckets.find? (·.key = key) with
  | none =>
    rw [hb] at he
    cases he
  | some b =>
    rw [hb] at he
    exact mem_entries.mpr ⟨b, List.mem_of_find?_eq_some hb, he⟩

/-! ## Queries -/

theorem item_mem_refs {e : RelationEntry} (he : e ∈ r.entries) : e.item ∈ Traced.refs r :=
  mem_refs.mpr ⟨e, he, Or.inr rfl⟩

theorem index_mem_refs {e : RelationEntry} (he : e ∈ r.entries) : e.index ∈ Traced.refs r :=
  mem_refs.mpr ⟨e, he, Or.inl rfl⟩

theorem mem_refs_of_itemsAt {x : Ref} (hx : x ∈ r.itemsAt key) : x ∈ Traced.refs r := by
  obtain ⟨e, he, rfl⟩ := List.mem_map.mp hx
  exact item_mem_refs (mem_entries_of_entriesAt he)

theorem mem_refs_of_indexesOf {x : Ref} (hx : x ∈ r.indexesOf itemKey) : x ∈ Traced.refs r := by
  obtain ⟨e, he, rfl⟩ := List.mem_map.mp hx
  exact index_mem_refs (List.mem_filter.mp he).1

theorem mem_refs_of_allItems {x : Ref} (hx : x ∈ r.allItems) : x ∈ Traced.refs r := by
  obtain ⟨e, he, rfl⟩ := List.mem_map.mp hx
  exact item_mem_refs he

theorem mem_refs_of_allIndexes {x : Ref} (hx : x ∈ r.allIndexes) : x ∈ Traced.refs r := by
  obtain ⟨e, he, rfl⟩ := List.mem_map.mp hx
  exact index_mem_refs he

theorem mem_refs_of_pairs {p : Ref × Ref} (hp : p ∈ r.pairs) :
    p.1 ∈ Traced.refs r ∧ p.2 ∈ Traced.refs r := by
  obtain ⟨e, he, rfl⟩ := List.mem_map.mp hp
  exact ⟨index_mem_refs he, item_mem_refs he⟩

theorem mem_pairs_of_pairsAt {p : Ref × Ref} (hp : p ∈ r.pairsAt key) : p ∈ r.pairs := by
  obtain ⟨e, he, rfl⟩ := List.mem_map.mp hp
  exact List.mem_map_of_mem (mem_entries_of_entriesAt he)

/-! ## Changes -/

theorem mem_setEntries {buckets : List Bucket} {entries : List RelationEntry} {b : Bucket}
    (hb : b ∈ setEntries buckets key entries) :
    b ∈ buckets ∨ b.entries = entries := by
  unfold setEntries at hb
  split at hb
  · exact Or.inl (List.mem_of_mem_eraseP hb)
  · obtain ⟨c, hc, rfl⟩ := List.mem_map.mp hb
    split
    · exact Or.inr rfl
    · exact Or.inl hc

/-- Replacing the entries of one bucket. -/
theorem mem_refs_of_setEntries {entries : List RelationEntry} {len : Nat} (new : List Ref)
    (hentries : ∀ e ∈ entries, e ∈ r.entries ∨ (e.index ∈ new ∧ e.item ∈ new)) {x : Ref}
    (hx : x ∈ Traced.refs ({ buckets := setEntries r.buckets key entries, len } : Relation)) :
    x ∈ Traced.refs r ∨ x ∈ new := by
  obtain ⟨e, he, hxe⟩ := mem_refs.mp hx
  obtain ⟨b, hb, heb⟩ := mem_entries.mp he
  have horigin : e ∈ r.entries ∨ (e.index ∈ new ∧ e.item ∈ new) := by
    rcases mem_setEntries hb with hb | hb
    · exact Or.inl (mem_entries.mpr ⟨b, hb, heb⟩)
    · rw [hb] at heb
      exact hentries e heb
  rcases horigin with he | ⟨hindex, hitem⟩
  · exact Or.inl (mem_refs.mpr ⟨e, he, hxe⟩)
  · rcases hxe with rfl | rfl
    · exact Or.inr hindex
    · exact Or.inr hitem

theorem mem_refs_of_put {item index x : Ref}
    (hx : x ∈ Traced.refs (r.put item itemKey index key).2) :
    x ∈ Traced.refs r ∨ x ∈ [item, index] := by
  have hnew : ∀ e : RelationEntry, e = { index, item, itemKey } →
      e ∈ r.entries ∨ (e.index ∈ [item, index] ∧ e.item ∈ [item, index]) := by
    rintro e rfl
    simp
  unfold put at hx
  dsimp only at hx
  split at hx
  · refine mem_refs_of_setEntries _ (fun e he => ?_) hx
    obtain ⟨e', he', rfl⟩ := List.mem_map.mp he
    split
    · exact hnew _ rfl
    · exact Or.inl (mem_entries_of_entriesAt he')
  · split at hx
    · refine mem_refs_of_setEntries _ (fun e he => ?_) hx
      rcases List.mem_append.mp he with he | he
      · exact Or.inl (mem_entries_of_entriesAt he)
      · exact hnew e (List.mem_singleton.mp he)
    · obtain ⟨e, he, hxe⟩ := mem_refs.mp hx
      rw [entries, List.flatMap_append, List.mem_append] at he
      rcases he with he | he
      · exact Or.inl (mem_refs.mpr ⟨e, he, hxe⟩)
      · simp only [List.flatMap_cons, List.flatMap_nil, List.append_nil, List.mem_singleton] at he
        subst he
        right
        rcases hxe with rfl | rfl <;> simp

theorem mem_refs_of_removeWhere {p : RelationEntry → Bool} {x : Ref}
    (hx : x ∈ Traced.refs (r.removeWhere key p).2) : x ∈ Traced.refs r := by
  unfold removeWhere at hx
  split at hx
  · exact hx
  · have hor := mem_refs_of_setEntries [] (fun e he =>
      Or.inl (mem_entries_of_entriesAt (List.mem_of_mem_eraseP he))) hx
    simpa using hor

/-! ## Keys -/

/-- Every entry is filed under what its index counts as, and says what its item counts as. -/
structure Filed (counts : Ref → RelationKey → Prop) (r : Relation) : Prop where
  nodup : (r.buckets.map Bucket.key).Nodup
  index : ∀ b ∈ r.buckets, ∀ e ∈ b.entries, counts e.index b.key
  item : ∀ b ∈ r.buckets, ∀ e ∈ b.entries, counts e.item e.itemKey

variable {counts counts' : Ref → RelationKey → Prop}

theorem filed_empty : Filed counts {} :=
  ⟨List.nodup_nil, nofun, nofun⟩

/-- Only what the handles of the relation count as matters. -/
theorem Filed.imp (h : r.Filed counts) (himp : ∀ x ∈ Traced.refs r, ∀ k, counts x k → counts' x k) :
    r.Filed counts' where
  nodup := h.nodup
  index b hb e he := himp _ (index_mem_refs (mem_entries.mpr ⟨b, hb, he⟩)) _ (h.index b hb e he)
  item b hb e he := himp _ (item_mem_refs (mem_entries.mpr ⟨b, hb, he⟩)) _ (h.item b hb e he)

/-- An index key has one bucket at most. -/
theorem Filed.mem_entriesAt (h : r.Filed counts) {e : RelationEntry} :
    e ∈ r.entriesAt key ↔ ∃ b ∈ r.buckets, b.key = key ∧ e ∈ b.entries := by
  unfold entriesAt bucket?
  cases hb : r.buckets.find? (·.key = key) with
  | none =>
    simp only [Option.map_none, Option.getD_none, List.not_mem_nil, false_iff]
    rintro ⟨b, hmem, rfl, _⟩
    simpa using List.find?_eq_none.mp hb b hmem
  | some b =>
    have hkey : b.key = key := by simpa using List.find?_some hb
    have hmem := List.mem_of_find?_eq_some hb
    simp only [Option.map_some, Option.getD_some]
    constructor
    · intro he
      exact ⟨b, hmem, hkey, he⟩
    · rintro ⟨c, hc, hckey, he⟩
      rwa [List.inj_on_of_nodup_map h.nodup hmem hc (hkey.trans hckey.symm)]

theorem filed_setEntries (h : r.Filed counts) {entries : List RelationEntry} {len : Nat}
    (hentries : ∀ e ∈ entries, counts e.index key ∧ counts e.item e.itemKey) :
    Filed counts { buckets := setEntries r.buckets key entries, len } := by
  unfold setEntries
  split
  · have hmem : ∀ b ∈ r.buckets.eraseP (·.key = key), b ∈ r.buckets :=
      fun b hb => List.mem_of_mem_eraseP hb
    refine ⟨?_, fun b hb => h.index b (hmem b hb), fun b hb => h.item b (hmem b hb)⟩
    exact h.nodup.sublist (List.eraseP_sublist.map _)
  · refine ⟨?_, fun b hb e he => ?_, fun b hb e he => ?_⟩
    · have hkeys : (r.buckets.map fun b => if b.key = key then { b with entries } else b).map
          Bucket.key = r.buckets.map Bucket.key := by
        rw [List.map_map]
        refine List.map_congr_left fun b _ => ?_
        simp only [Function.comp_apply]
        split <;> rfl
      exact hkeys ▸ h.nodup
    · obtain ⟨c, hc, rfl⟩ := List.mem_map.mp hb
      split at he
      · next hkey =>
        rw [if_pos hkey, hkey]
        exact (hentries e he).1
      · next hkey =>
        rw [if_neg hkey]
        exact h.index c hc e he
    · obtain ⟨c, hc, rfl⟩ := List.mem_map.mp hb
      split at he
      · exact (hentries e he).2
      · exact h.item c hc e he

theorem Filed.entriesAt (h : r.Filed counts) {e : RelationEntry} (he : e ∈ r.entriesAt key) :
    counts e.index key ∧ counts e.item e.itemKey := by
  obtain ⟨b, hb, rfl, he'⟩ := h.mem_entriesAt.mp he
  exact ⟨h.index b hb e he', h.item b hb e he'⟩

theorem filed_put (h : r.Filed counts) {item index : Ref} (hitem : counts item itemKey)
    (hindex : counts index key) : (r.put item itemKey index key).2.Filed counts := by
  unfold put
  dsimp only
  split
  · refine filed_setEntries h fun e he => ?_
    obtain ⟨e', he', rfl⟩ := List.mem_map.mp he
    split
    · exact ⟨hindex, hitem⟩
    · exact h.entriesAt he'
  · split
    · refine filed_setEntries h fun e he => ?_
      rcases List.mem_append.mp he with he | he
      · exact h.entriesAt he
      · rw [List.mem_singleton.mp he]
        exact ⟨hindex, hitem⟩
    · next hnone =>
      have hfresh : ∀ b ∈ r.buckets, b.key ≠ key := by
        intro b hb hkey
        refine hnone (Option.isSome_iff_ne_none.mpr fun hfind => ?_)
        exact List.find?_eq_none.mp hfind b hb (decide_eq_true hkey)
      have hnew : ∀ b ∈ r.buckets ++ [{ key, entries := [{ index, item, itemKey }] }],
          b ∈ r.buckets ∨ b = { key, entries := [{ index, item, itemKey }] } := by
        simp
      refine ⟨?_, fun b hb e he => ?_, fun b hb e he => ?_⟩
      · rw [List.map_append, List.nodup_append]
        refine ⟨h.nodup, List.nodup_singleton _, ?_⟩
        intro k hk k' hk'
        obtain ⟨b, hb, rfl⟩ := List.mem_map.mp hk
        rw [List.mem_singleton.mp hk']
        exact hfresh b hb
      · rcases hnew b hb with hb | rfl
        · exact h.index b hb e he
        · rw [List.mem_singleton.mp he]
          exact hindex
      · rcases hnew b hb with hb | rfl
        · exact h.item b hb e he
        · rw [List.mem_singleton.mp he]
          exact hitem

theorem filed_removeWhere (h : r.Filed counts) (key : RelationKey) (p : RelationEntry → Bool) :
    (r.removeWhere key p).2.Filed counts := by
  unfold removeWhere
  split
  · exact h
  · exact filed_setEntries h fun e he => h.entriesAt (List.mem_of_mem_eraseP he)

/-- What a relation answers about an item and an index, told by the keys of its entries. -/
theorem Filed.hasItem_iff (h : r.Filed counts) :
    r.hasItem itemKey key = true ↔
      ∃ b ∈ r.buckets, ∃ e ∈ b.entries, b.key = key ∧ e.itemKey = itemKey := by
  simp only [hasItem, List.any_eq_true, decide_eq_true_eq]
  constructor
  · rintro ⟨e, he, hitem⟩
    obtain ⟨b, hb, hkey, he⟩ := h.mem_entriesAt.mp he
    exact ⟨b, hb, e, he, hkey, hitem⟩
  · rintro ⟨b, hb, e, he, hkey, hitem⟩
    exact ⟨e, h.mem_entriesAt.mpr ⟨b, hb, hkey, he⟩, hitem⟩

end Managed.Relation
