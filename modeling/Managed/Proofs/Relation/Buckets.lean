import Managed.Proofs.Relation

/-!
# Buckets of a relation

Every relation that a program makes is `Consistent`: index keys have one bucket each, no bucket is empty,
the entries of a bucket have different item keys, and the entries are counted right.

A change is a change of the entries with one index key. `Around` tells which buckets stand in front of
them and which behind, also if there are none yet: then all buckets stand in front, and new entries make
a bucket at the end. So each change puts other entries between the same buckets (`put_of_not_hasItem`
and the lemmas beside it), and what it keeps follows from that (`consistent_refiled`).

All questions about a consistent relation are answered from the same entries (`queries_agree`).
-/

namespace Managed.Relation

variable {r : Relation} {key itemKey : RelationKey}

/-- The bucket for some entries, which is none if there are no entries. -/
def bucketOf (key : RelationKey) (entries : List RelationEntry) : List Bucket :=
  if entries = [] then [] else [{ key, entries }]

@[simp] theorem bucketOf_nil (key : RelationKey) : bucketOf key [] = [] :=
  if_pos rfl

theorem bucketOf_of_ne_nil {entries : List RelationEntry} (h : entries ≠ []) :
    bucketOf key entries = [{ key, entries }] :=
  if_neg h

theorem flatMap_bucketOf (key : RelationKey) (entries : List RelationEntry) :
    (bucketOf key entries).flatMap Bucket.entries = entries := by
  by_cases h : entries = []
  · rw [h, bucketOf_nil]
    rfl
  · rw [bucketOf_of_ne_nil h, List.flatMap_singleton]

/-- The parts of a relation agree. -/
structure Consistent (r : Relation) : Prop where
  nodup : (r.buckets.map Bucket.key).Nodup
  filled : ∀ b ∈ r.buckets, b.entries ≠ []
  distinct : ∀ b ∈ r.buckets, (b.entries.map RelationEntry.itemKey).Nodup
  len_eq : r.len = r.entries.length

theorem consistent_empty : Consistent {} :=
  ⟨List.nodup_nil, by simp, by simp, rfl⟩

/-! ## Around an index key -/

/-- The buckets in front of the entries with an index key and those behind them. -/
structure Around (r : Relation) (key : RelationKey) (front back : List Bucket) : Prop where
  buckets : r.buckets = front ++ bucketOf key (r.entriesAt key) ++ back
  front_ne : ∀ b ∈ front, b.key ≠ key
  back_ne : ∀ b ∈ back, b.key ≠ key
  back_nil : r.entriesAt key = [] → back = []

theorem entriesAt_of_forall_ne (h : ∀ b ∈ r.buckets, b.key ≠ key) :
    r.bucket? key = none ∧ r.entriesAt key = [] := by
  have hnone : r.bucket? key = none := by
    refine List.find?_eq_none.mpr fun b hb => ?_
    simpa using h b hb
  refine ⟨hnone, ?_⟩
  rw [entriesAt, hnone]
  rfl

theorem entriesAt_of_append {front back : List Bucket} {b : Bucket}
    (h : r.buckets = front ++ b :: back) (hfront : ∀ c ∈ front, c.key ≠ b.key) :
    r.bucket? b.key = some b ∧ r.entriesAt b.key = b.entries := by
  have hsome : r.bucket? b.key = some b := by
    rw [bucket?, h, List.find?_append, List.find?_eq_none.mpr (by simpa using hfront),
      Option.none_or, List.find?_cons_of_pos (by simp)]
  refine ⟨hsome, ?_⟩
  rw [entriesAt, hsome]
  rfl

/-- Each bucket is found under its key. -/
theorem Consistent.bucket?_eq (h : r.Consistent) {b : Bucket} (hb : b ∈ r.buckets) :
    r.bucket? b.key = some b ∧ r.entriesAt b.key = b.entries := by
  obtain ⟨front, back, heq⟩ := List.append_of_mem hb
  refine entriesAt_of_append heq fun c hc hkey => ?_
  have hnodup := h.nodup
  rw [heq, List.map_append, List.nodup_append] at hnodup
  exact hnodup.2.2 c.key (List.mem_map_of_mem hc) b.key (by simp) hkey

theorem Consistent.exists_around (h : r.Consistent) (key : RelationKey) :
    ∃ front back, Around r key front back := by
  by_cases hkey : ∃ b ∈ r.buckets, b.key = key
  · obtain ⟨b, hb, rfl⟩ := hkey
    obtain ⟨_, hentries⟩ := h.bucket?_eq hb
    have hne := h.filled b hb
    obtain ⟨front, back, heq⟩ := List.append_of_mem hb
    have hnodup := h.nodup
    rw [heq, List.map_append, List.map_cons, List.nodup_append, List.nodup_cons] at hnodup
    obtain ⟨_, ⟨hback, _⟩, hfront⟩ := hnodup
    refine ⟨front, back, ?_, fun c hc hc' => ?_, fun c hc hc' => ?_, fun hnil => ?_⟩
    · rw [hentries, bucketOf_of_ne_nil hne, heq, List.append_assoc]
      rfl
    · exact hfront c.key (List.mem_map_of_mem hc) b.key List.mem_cons_self hc'
    · exact hback (hc' ▸ List.mem_map_of_mem hc)
    · exact absurd (hentries ▸ hnil) hne
  · have hnone : ∀ b ∈ r.buckets, b.key ≠ key := fun b hb hb' => hkey ⟨b, hb, hb'⟩
    refine ⟨r.buckets, [], ?_, hnone, by simp, fun _ => rfl⟩
    rw [(entriesAt_of_forall_ne hnone).2, bucketOf_nil, List.append_nil, List.append_nil]

section

variable {front back : List Bucket} (ha : Around r key front back)
include ha

theorem Around.entries : r.entries =
    front.flatMap Bucket.entries ++ r.entriesAt key ++ back.flatMap Bucket.entries := by
  rw [Relation.entries, ha.buckets, List.flatMap_append, List.flatMap_append, flatMap_bucketOf]

theorem Around.hasIndex : r.hasIndex key = true ↔ r.entriesAt key ≠ [] := by
  by_cases hnil : r.entriesAt key = []
  · have hnone : ∀ b ∈ r.buckets, b.key ≠ key := by
      rw [ha.buckets, hnil, ha.back_nil hnil]
      simpa using ha.front_ne
    simp [Relation.hasIndex, (entriesAt_of_forall_ne hnone).1, hnil]
  · have heq : r.buckets = front ++ { key, entries := r.entriesAt key } :: back := by
      have heq := ha.buckets
      rwa [bucketOf_of_ne_nil hnil, List.append_assoc] at heq
    simp [Relation.hasIndex, (entriesAt_of_append heq ha.front_ne).1, hnil]

/-- To remove the bucket of a key is to leave the buckets in front and behind. -/
theorem Around.eraseP : r.buckets.eraseP (·.key = key) = front ++ back := by
  have hback : back.eraseP (·.key = key) = back :=
    List.eraseP_of_forall_not (by simpa using ha.back_ne)
  rw [ha.buckets, List.append_assoc, List.eraseP_append_right _ (by simpa using ha.front_ne)]
  by_cases hnil : r.entriesAt key = []
  · rw [hnil, bucketOf_nil, List.nil_append, hback]
  · rw [bucketOf_of_ne_nil hnil, List.singleton_append, List.eraseP_cons_of_pos (by simp)]

/-- Other entries are put between the buckets in front and behind. -/
theorem Around.setEntries {entries : List RelationEntry}
    (h : entries ≠ [] → r.entriesAt key ≠ []) :
    setEntries r.buckets key entries = front ++ bucketOf key entries ++ back := by
  unfold Relation.setEntries
  by_cases hnil : entries = []
  · rw [hnil, bucketOf_nil, List.append_nil]
    exact ha.eraseP
  · have hother : ∀ bs : List Bucket, (∀ b ∈ bs, b.key ≠ key) →
        bs.map (fun b => if b.key = key then { b with entries } else b) = bs := by
      intro bs hbs
      refine (List.map_congr_left fun b hb => if_neg (hbs b hb)).trans (List.map_id bs)
    rw [if_neg (by simpa using hnil), ha.buckets, bucketOf_of_ne_nil (h hnil),
      bucketOf_of_ne_nil hnil, List.map_append, List.map_append, hother front ha.front_ne,
      hother back ha.back_ne, List.map_singleton, if_pos rfl]

end

/-- Entries with one key put between some buckets. -/
def refiled (front : List Bucket) (key : RelationKey) (entries : List RelationEntry)
    (back : List Bucket) (len : Nat) : Relation :=
  { buckets := front ++ bucketOf key entries ++ back, len }

theorem refiled_self {front back : List Bucket} (ha : Around r key front back) :
    refiled front key (r.entriesAt key) back r.len = r := by
  rw [refiled, ← ha.buckets]

theorem around_refiled {front back : List Bucket} (ha : Around r key front back)
    {entries : List RelationEntry} (hne : entries ≠ []) (len : Nat) :
    (refiled front key entries back len).entriesAt key = entries ∧
      Around (refiled front key entries back len) key front back := by
  have hbuckets : (refiled front key entries back len).buckets =
      front ++ { key, entries } :: back := by
    rw [refiled, bucketOf_of_ne_nil hne, List.append_assoc]
    rfl
  have hentries := (entriesAt_of_append hbuckets ha.front_ne).2
  refine ⟨hentries, ?_, ha.front_ne, ha.back_ne, fun hnil => ?_⟩
  · dsimp only at hentries
    rw [hentries]
    rfl
  · exact absurd (hentries.symm.trans hnil) hne

theorem Consistent.distinct_entriesAt (h : r.Consistent) (key : RelationKey) :
    ((r.entriesAt key).map RelationEntry.itemKey).Nodup := by
  unfold entriesAt
  cases hb : r.bucket? key with
  | none => exact List.nodup_nil
  | some b => exact h.distinct b (List.mem_of_find?_eq_some hb)

theorem Around.nodup {front back : List Bucket} (ha : Around r key front back) (h : r.Consistent) :
    (front.map Bucket.key ++ key :: back.map Bucket.key).Nodup := by
  have hsub : (front ++ back).Sublist r.buckets := by
    rw [ha.buckets]
    exact (List.sublist_append_left front _).append (List.Sublist.refl back)
  have hkeys : (front.map Bucket.key ++ back.map Bucket.key).Nodup := by
    rw [← List.map_append]
    exact h.nodup.sublist (hsub.map _)
  rw [List.nodup_middle, List.nodup_cons]
  refine ⟨fun hmem => ?_, hkeys⟩
  rcases List.mem_append.mp hmem with hmem | hmem
  · obtain ⟨b, hb, hkey⟩ := List.mem_map.mp hmem
    exact ha.front_ne b hb hkey
  · obtain ⟨b, hb, hkey⟩ := List.mem_map.mp hmem
    exact ha.back_ne b hb hkey

/-- Other entries between the same buckets. -/
theorem consistent_refiled (h : r.Consistent) {front back : List Bucket}
    (ha : Around r key front back) {entries : List RelationEntry} {len : Nat}
    (hdistinct : (entries.map RelationEntry.itemKey).Nodup)
    (hlen : len + (r.entriesAt key).length = r.len + entries.length) :
    (refiled front key entries back len).Consistent := by
  have hlen_eq := h.len_eq
  rw [ha.entries, List.length_append, List.length_append] at hlen_eq
  have hmem : ∀ b ∈ front ++ bucketOf key entries ++ back,
      b ∈ r.buckets ∨ b = { key, entries } ∧ entries ≠ [] := by
    intro b hb
    by_cases hnil : entries = []
    · rw [hnil, bucketOf_nil, List.append_nil] at hb
      rw [ha.buckets]
      exact Or.inl (by simp only [List.mem_append] at hb ⊢; tauto)
    · rw [bucketOf_of_ne_nil hnil] at hb
      rw [ha.buckets]
      simp only [List.mem_append, List.mem_singleton] at hb ⊢
      tauto
  refine ⟨?_, fun b hb => ?_, fun b hb => ?_, ?_⟩
  · refine (ha.nodup h).sublist ?_
    rw [refiled, List.map_append, List.map_append, List.append_assoc]
    apply List.Sublist.append (List.Sublist.refl _)
    by_cases hnil : entries = []
    · rw [hnil, bucketOf_nil]
      exact List.sublist_cons_self _ _
    · rw [bucketOf_of_ne_nil hnil]
      exact List.Sublist.refl _
  · rcases hmem b hb with hb | ⟨rfl, hne⟩
    · exact h.filled b hb
    · exact hne
  · rcases hmem b hb with hb | ⟨rfl, _⟩
    · exact h.distinct b hb
    · exact hdistinct
  · simp only [refiled, Relation.entries, List.flatMap_append, flatMap_bucketOf,
      List.length_append]
    omega

/-! ## Changes -/

/-- Of entries with different item keys just one has a given key, if any. -/
theorem exists_entry_of_any {entries : List RelationEntry}
    (hdistinct : (entries.map RelationEntry.itemKey).Nodup)
    (hany : entries.any (·.itemKey = itemKey) = true) :
    ∃ before e after, entries = before ++ e :: after ∧ e.itemKey = itemKey ∧
      ∀ x ∈ before ++ after, x.itemKey ≠ itemKey := by
  obtain ⟨e, he, hkey⟩ := List.any_eq_true.mp hany
  obtain ⟨before, after, rfl⟩ := List.append_of_mem he
  refine ⟨before, e, after, rfl, of_decide_eq_true hkey, fun x hx hx' => ?_⟩
  rw [List.map_append, List.map_cons, List.nodup_middle, List.nodup_cons, ← List.map_append] at hdistinct
  apply hdistinct.1
  rw [of_decide_eq_true hkey, ← hx']
  exact List.mem_map_of_mem hx

/-- The entries of a bucket with one of them replaced. -/
def replaced (entry : RelationEntry) (entries : List RelationEntry) : List RelationEntry :=
  entries.map fun e => if e.itemKey = entry.itemKey then entry else e

theorem map_itemKey_replaced (entry : RelationEntry) (entries : List RelationEntry) :
    (replaced entry entries).map RelationEntry.itemKey = entries.map RelationEntry.itemKey := by
  rw [replaced, List.map_map]
  refine List.map_congr_left fun e _ => ?_
  rw [Function.comp_apply]
  split
  · next hkey => exact hkey.symm
  · rfl

section

variable {front back : List Bucket} (ha : Around r key front back)
include ha

theorem put_of_hasItem (hitem : r.hasItem itemKey key = true) (item index : Ref) :
    r.put item itemKey index key =
      (false, refiled front key (replaced ⟨index, item, itemKey⟩ (r.entriesAt key)) back r.len) := by
  have hset : r.entriesAt key ≠ [] := by
    intro hnil
    rw [hasItem, hnil] at hitem
    cases hitem
  rw [put, if_pos hitem]
  dsimp only
  rw [ha.setEntries fun _ => hset]
  rfl

theorem put_of_not_hasItem (hitem : r.hasItem itemKey key = false) (item index : Ref) :
    r.put item itemKey index key =
      (true, refiled front key (r.entriesAt key ++ [⟨index, item, itemKey⟩]) back (r.len + 1)) := by
  rw [put, hitem, if_neg Bool.false_ne_true]
  by_cases hnil : r.entriesAt key = []
  · -- a new bucket at the end
    have hindex : ¬r.hasIndex key = true := fun h => ha.hasIndex.mp h hnil
    have hbuckets := ha.buckets
    rw [hnil, ha.back_nil hnil, bucketOf_nil, List.append_nil, List.append_nil] at hbuckets
    rw [if_neg hindex, refiled, hnil, ha.back_nil hnil, hbuckets, List.append_nil]
    rfl
  · rw [if_pos (ha.hasIndex.mpr hnil), ha.setEntries fun _ => hnil]
    rfl

omit ha in
theorem removeWhere_of_none {p : RelationEntry → Bool} (h : (r.entriesAt key).find? p = none) :
    r.removeWhere key p = (none, r) := by
  simp only [removeWhere, h]

theorem removeWhere_of_some {p : RelationEntry → Bool} {e : RelationEntry}
    (h : (r.entriesAt key).find? p = some e) :
    r.removeWhere key p =
      (some e.item, refiled front key ((r.entriesAt key).eraseP p) back (r.len - 1)) := by
  have hset : r.entriesAt key ≠ [] := List.ne_nil_of_mem (List.mem_of_find?_eq_some h)
  simp only [removeWhere, h, ha.setEntries fun _ => hset]
  rfl

theorem removeAll_eq : r.removeAll key =
    ((r.entriesAt key).map RelationEntry.item,
      refiled front key [] back (r.len - (r.entriesAt key).length)) := by
  rw [removeAll, ha.eraseP, refiled, bucketOf_nil, List.append_nil]
  rfl

end

/-- A change of a relation. -/
inductive Change where
  | put (item : Ref) (itemKey : RelationKey) (index : Ref) (key : RelationKey)
  | remove (key : RelationKey)
  | removeItem (itemKey key : RelationKey)
  | removeAll (key : RelationKey)
  | clear
deriving DecidableEq, Repr

def Change.apply (r : Relation) : Change → Relation
  | put item itemKey index key => (r.put item itemKey index key).2
  | remove key => (r.remove key).2
  | removeItem itemKey key => (r.removeItem itemKey key).2
  | removeAll key => (r.removeAll key).2
  | clear => r.clear

/-- A new relation after some changes. -/
def ofChanges (changes : List Change) : Relation :=
  changes.foldl Change.apply {}

theorem Consistent.length_entriesAt_le (h : r.Consistent) (key : RelationKey) :
    (r.entriesAt key).length ≤ r.len := by
  obtain ⟨front, back, ha⟩ := h.exists_around key
  rw [h.len_eq, ha.entries, List.length_append, List.length_append]
  omega

theorem consistent_put (h : r.Consistent) (item index : Ref) (itemKey key : RelationKey) :
    (r.put item itemKey index key).2.Consistent := by
  obtain ⟨front, back, ha⟩ := h.exists_around key
  cases hitem : r.hasItem itemKey key with
  | true =>
    rw [put_of_hasItem ha hitem]
    apply consistent_refiled h ha
    · rw [map_itemKey_replaced]
      exact h.distinct_entriesAt key
    · rw [replaced, List.length_map]
  | false =>
    rw [put_of_not_hasItem ha hitem]
    apply consistent_refiled h ha
    · rw [List.map_append, List.nodup_append]
      refine ⟨h.distinct_entriesAt key, List.nodup_singleton _, fun k hk k' hk' heq => ?_⟩
      obtain ⟨e, he, rfl⟩ := List.mem_map.mp hk
      rw [List.mem_singleton.mp hk'] at heq
      exact List.any_eq_false.mp hitem e he (decide_eq_true heq)
    · rw [List.length_append, List.length_singleton]
      omega

theorem consistent_removeWhere (h : r.Consistent) (key : RelationKey) (p : RelationEntry → Bool) :
    (r.removeWhere key p).2.Consistent := by
  cases hfind : (r.entriesAt key).find? p with
  | none =>
    rw [removeWhere_of_none hfind]
    exact h
  | some e =>
    obtain ⟨front, back, ha⟩ := h.exists_around key
    have hmem := List.mem_of_find?_eq_some hfind
    have hpos : 0 < (r.entriesAt key).length := List.length_pos_of_mem hmem
    have hlen := h.length_entriesAt_le key
    rw [removeWhere_of_some ha hfind]
    apply consistent_refiled h ha
    · exact (h.distinct_entriesAt key).sublist (List.eraseP_sublist.map _)
    · rw [List.length_eraseP_of_mem hmem (List.find?_some hfind)]
      omega

theorem consistent_removeAll (h : r.Consistent) (key : RelationKey) :
    (r.removeAll key).2.Consistent := by
  obtain ⟨front, back, ha⟩ := h.exists_around key
  have hlen := h.length_entriesAt_le key
  rw [removeAll_eq ha]
  apply consistent_refiled h ha
  · exact List.nodup_nil
  · rw [List.length_nil]
    omega

theorem consistent_apply (h : r.Consistent) (c : Change) : (c.apply r).Consistent := by
  cases c with
  | put item itemKey index key => exact consistent_put h item index itemKey key
  | remove key => exact consistent_removeWhere h key _
  | removeItem itemKey key => exact consistent_removeWhere h key _
  | removeAll key => exact consistent_removeAll h key
  | clear => exact consistent_empty

theorem consistent_ofChanges (changes : List Change) : (ofChanges changes).Consistent := by
  have hrun : ∀ (r : Relation), r.Consistent → (changes.foldl Change.apply r).Consistent := by
    induction changes with
    | nil => exact fun r h => h
    | cons c rest ih => exact fun r h => ih (c.apply r) (consistent_apply h c)
  exact hrun {} consistent_empty

/-! ## Questions -/

theorem Consistent.hasIndex_iff (h : r.Consistent) (key : RelationKey) :
    r.hasIndex key = true ↔ 0 < r.countAt key := by
  obtain ⟨front, back, ha⟩ := h.exists_around key
  rw [ha.hasIndex, countAt, List.length_pos_iff]

theorem Consistent.hasItem_iff_countP (h : r.Consistent) (itemKey key : RelationKey) :
    r.hasItem itemKey key = true ↔ (r.entriesAt key).countP (·.itemKey = itemKey) = 1 := by
  have hle : (r.entriesAt key).countP (·.itemKey = itemKey) ≤ 1 := by
    have hcount := List.nodup_iff_count_le_one.mp (h.distinct_entriesAt key) itemKey
    rwa [List.count, List.countP_map] at hcount
  have hpos : r.hasItem itemKey key = true ↔ 0 < (r.entriesAt key).countP (·.itemKey = itemKey) := by
    rw [hasItem, List.any_eq_true, List.countP_pos_iff]
  rw [hpos]
  omega

theorem Consistent.pairs_eq (h : r.Consistent) :
    r.pairs = (r.buckets.map Bucket.key).flatMap r.pairsAt := by
  rw [pairs, Relation.entries, List.map_flatMap, List.flatMap_map]
  refine List.flatMap_congr fun b hb => ?_
  rw [pairsAt, (h.bucket?_eq hb).2]

theorem indexOf?_eq_head? (r : Relation) (itemKey : RelationKey) :
    r.indexOf? itemKey = (r.indexesOf itemKey).head? := by
  rw [indexOf?, indexesOf, List.head?_map, List.head?_filter]

/-- Each bucket with an entry for the item gives one index. -/
theorem forall₂_indexes {buckets : List Bucket}
    (hdistinct : ∀ b ∈ buckets, (b.entries.map RelationEntry.itemKey).Nodup)
    (hfound : ∀ b ∈ buckets, r.entriesAt b.key = b.entries) (itemKey : RelationKey) :
    List.Forall₂ (fun key x => ∃ e ∈ r.entriesAt key, e.itemKey = itemKey ∧ e.index = x)
      ((buckets.filter fun b => r.hasItem itemKey b.key).map Bucket.key)
      (((buckets.flatMap Bucket.entries).filter (·.itemKey = itemKey)).map
        RelationEntry.index) := by
  induction buckets with
  | nil => exact .nil
  | cons b rest ih =>
    have hb := hfound b List.mem_cons_self
    have ih := ih (fun c hc => hdistinct c (List.mem_cons_of_mem _ hc))
      fun c hc => hfound c (List.mem_cons_of_mem _ hc)
    rw [List.flatMap_cons, List.filter_append, List.map_append, List.filter_cons]
    split
    · next hitem =>
      rw [hasItem, hb] at hitem
      obtain ⟨before, e, after, heq, hkey, hother⟩ :=
        exists_entry_of_any (hdistinct b List.mem_cons_self) hitem
      have hone : b.entries.filter (·.itemKey = itemKey) = [e] := by
        rw [List.forall_mem_append] at hother
        rw [heq, List.filter_append, List.filter_cons_of_pos (by simp [hkey]),
          List.filter_eq_nil_iff.mpr (by simpa using hother.1),
          List.filter_eq_nil_iff.mpr (by simpa using hother.2)]
        rfl
      rw [hone]
      refine .cons ⟨e, ?_, hkey, rfl⟩ ih
      rw [hb, heq]
      exact List.mem_append_right _ List.mem_cons_self
    · next hitem =>
      rw [hasItem, hb, Bool.not_eq_true] at hitem
      have hnone : b.entries.filter (·.itemKey = itemKey) = [] :=
        List.filter_eq_nil_iff.mpr (List.any_eq_false.mp hitem)
      rwa [hnone]

/-- The indexes of an item go with the index keys under which it is. -/
theorem Consistent.exists_keys (h : r.Consistent) (itemKey : RelationKey) :
    ∃ keys : List RelationKey, keys.Nodup ∧
      (∀ key, key ∈ keys ↔ r.hasItem itemKey key = true) ∧
      List.Forall₂ (fun key x => ∃ e ∈ r.entriesAt key, e.itemKey = itemKey ∧ e.index = x) keys
        (r.indexesOf itemKey) := by
  refine ⟨(r.buckets.filter fun b => r.hasItem itemKey b.key).map Bucket.key,
    h.nodup.sublist (List.filter_sublist.map _), fun key => ?_,
    forall₂_indexes h.distinct (fun b hb => (h.bucket?_eq hb).2) itemKey⟩
  rw [List.mem_map]
  constructor
  · rintro ⟨b, hb, rfl⟩
    exact (List.mem_filter.mp hb).2
  · intro hitem
    by_cases hkey : ∃ b ∈ r.buckets, b.key = key
    · obtain ⟨b, hb, rfl⟩ := hkey
      exact ⟨b, List.mem_filter.mpr ⟨hb, hitem⟩, rfl⟩
    · have hnone := entriesAt_of_forall_ne fun b hb hb' => hkey ⟨b, hb, hb'⟩
      rw [hasItem, hnone.2] at hitem
      cases hitem

/-- After any changes the parts of a relation agree, and so do its answers: whether an index has items,
how many and which they are, which is the first, whether it has a given item, under which indexes an item
is, and what all pairs, items and indexes are. -/
theorem queries_agree (changes : List Change) :
    let r := ofChanges changes
    r.Consistent ∧
    (∀ key, (r.hasIndex key = true ↔ 0 < r.countAt key) ∧
      r.countAt key = (r.itemsAt key).length ∧ r.countAt key = (r.pairsAt key).length ∧
      r.itemAt? key = (r.itemsAt key).head? ∧
      ∀ itemKey, r.hasItem itemKey key = true ↔
        (r.entriesAt key).countP (·.itemKey = itemKey) = 1) ∧
    (∀ itemKey, r.indexOf? itemKey = (r.indexesOf itemKey).head? ∧
      ∃ keys : List RelationKey, keys.Nodup ∧
        (∀ key, key ∈ keys ↔ r.hasItem itemKey key = true) ∧
        List.Forall₂ (fun key x => ∃ e ∈ r.entriesAt key, e.itemKey = itemKey ∧ e.index = x) keys
          (r.indexesOf itemKey)) ∧
    (∀ b ∈ r.buckets, r.entriesAt b.key = b.entries) ∧
    r.pairs = (r.buckets.map Bucket.key).flatMap r.pairsAt ∧
    r.allItems = r.pairs.map Prod.snd ∧ r.allIndexes = r.pairs.map Prod.fst ∧
    r.allItems.length = r.len ∧ r.allIndexes.length = r.len := by
  intro r
  have h : r.Consistent := consistent_ofChanges changes
  refine ⟨h, fun key => ⟨h.hasIndex_iff key, ?_, ?_, ?_, fun k => h.hasItem_iff_countP k key⟩,
    fun k => ⟨indexOf?_eq_head? r k, h.exists_keys k⟩, fun b hb => (h.bucket?_eq hb).2, h.pairs_eq,
    ?_, ?_, ?_, ?_⟩
  · rw [itemsAt, List.length_map, countAt]
  · rw [pairsAt, List.length_map, countAt]
  · rw [itemsAt, List.head?_map, itemAt?]
  · rw [pairs, List.map_map]
    rfl
  · rw [pairs, List.map_map]
    rfl
  · rw [allItems, List.length_map, h.len_eq]
  · rw [allIndexes, List.length_map, h.len_eq]

end Managed.Relation
