import Managed.Proofs.Relation
import Managed.Proofs.SlotArray.Renamed
import Managed.Proofs.Space.Operation

/-!
# Objects with other handles

Objects, questions, answers and operations with the handle `f r` in place of each handle `r`. Arrays
and suppliers never look at the handles they hold. Relations compare the identities in their keys, so
there `f` has to be one-to-one.
-/

namespace Managed

/-! ## Relations -/

def RelationKey.rename (f : Ref → Ref) : RelationKey → RelationKey
  | text t => text t
  | identity r => identity (f r)

def RelationEntry.rename (f : Ref → Ref) (e : RelationEntry) : RelationEntry :=
  { index := f e.index, item := f e.item, itemKey := e.itemKey.rename f }

def Bucket.rename (f : Ref → Ref) (b : Bucket) : Bucket :=
  { key := b.key.rename f, entries := b.entries.map (RelationEntry.rename f) }

def Relation.rename (f : Ref → Ref) (r : Relation) : Relation :=
  { buckets := r.buckets.map (Bucket.rename f), len := r.len }

theorem RelationKey.rename_inj {f : Ref → Ref} (hf : Function.Injective f) {a b : RelationKey} :
    a.rename f = b.rename f ↔ a = b := by
  cases a <;> cases b <;> simp [rename, hf.eq_iff]

namespace Relation

variable {f : Ref → Ref} (r : Relation)

theorem entries_rename : (r.rename f).entries = r.entries.map (RelationEntry.rename f) := by
  simp [entries, rename, Bucket.rename, List.map_flatMap, List.flatMap_map]

theorem refs_rename : Traced.refs (r.rename f) = (Traced.refs r).map f := by
  simp [Traced.refs, entries_rename, RelationEntry.rename, List.map_flatMap, List.flatMap_map]

theorem pairs_rename : (r.rename f).pairs = r.pairs.map (Prod.map f f) := by
  simp [pairs, entries_rename, pairOf, RelationEntry.rename]

theorem allItems_rename : (r.rename f).allItems = r.allItems.map f := by
  simp [allItems, entries_rename, RelationEntry.rename]

theorem allIndexes_rename : (r.rename f).allIndexes = r.allIndexes.map f := by
  simp [allIndexes, entries_rename, RelationEntry.rename]

section

variable (hf : Function.Injective f) (key itemKey : RelationKey)
include hf

theorem bucket?_rename :
    (r.rename f).bucket? (key.rename f) = (r.bucket? key).map (Bucket.rename f) := by
  have hkey : (fun b : Bucket => decide (b.key = key.rename f)) ∘ Bucket.rename f =
      fun b => decide (b.key = key) := by
    funext b
    simp [Bucket.rename, RelationKey.rename_inj hf]
  simp only [bucket?, rename]
  rw [List.find?_map, hkey]

theorem entriesAt_rename :
    (r.rename f).entriesAt (key.rename f) = (r.entriesAt key).map (RelationEntry.rename f) := by
  unfold entriesAt
  rw [bucket?_rename r hf]
  cases r.bucket? key <;> rfl

theorem itemAt?_rename : (r.rename f).itemAt? (key.rename f) = (r.itemAt? key).map f := by
  simp [itemAt?, entriesAt_rename r hf, RelationEntry.rename, Function.comp_def]

theorem itemsAt_rename : (r.rename f).itemsAt (key.rename f) = (r.itemsAt key).map f := by
  simp [itemsAt, entriesAt_rename r hf, RelationEntry.rename]

theorem pairsAt_rename :
    (r.rename f).pairsAt (key.rename f) = (r.pairsAt key).map (Prod.map f f) := by
  simp [pairsAt, entriesAt_rename r hf, pairOf, RelationEntry.rename]

theorem countAt_rename : (r.rename f).countAt (key.rename f) = r.countAt key := by
  simp [countAt, entriesAt_rename r hf]

theorem hasIndex_rename : (r.rename f).hasIndex (key.rename f) = r.hasIndex key := by
  simp [hasIndex, bucket?_rename r hf]

theorem itemKey_rename : (fun e : RelationEntry => decide (e.itemKey = itemKey.rename f)) ∘
    RelationEntry.rename f = fun e => decide (e.itemKey = itemKey) := by
  funext e
  simp [RelationEntry.rename, RelationKey.rename_inj hf]

theorem hasItem_rename :
    (r.rename f).hasItem (itemKey.rename f) (key.rename f) = r.hasItem itemKey key := by
  simp only [hasItem, entriesAt_rename r hf]
  rw [List.any_map, itemKey_rename hf]

theorem indexesOf_rename :
    (r.rename f).indexesOf (itemKey.rename f) = (r.indexesOf itemKey).map f := by
  simp only [indexesOf, entries_rename]
  rw [List.filter_map, itemKey_rename hf]
  simp [RelationEntry.rename]

theorem indexOf?_rename :
    (r.rename f).indexOf? (itemKey.rename f) = (r.indexOf? itemKey).map f := by
  simp only [indexOf?, entries_rename]
  rw [List.find?_map, itemKey_rename hf]
  simp [RelationEntry.rename, Function.comp_def]

theorem setEntries_rename (buckets : List Bucket) (entries : List RelationEntry) :
    setEntries (buckets.map (Bucket.rename f)) (key.rename f)
        (entries.map (RelationEntry.rename f)) =
      (setEntries buckets key entries).map (Bucket.rename f) := by
  have hkey : (fun b : Bucket => decide (b.key = key.rename f)) ∘ Bucket.rename f =
      fun b => decide (b.key = key) := by
    funext b
    simp [Bucket.rename, RelationKey.rename_inj hf]
  unfold setEntries
  rw [List.isEmpty_map]
  split
  · rw [List.eraseP_map, hkey]
  · simp only [List.map_map]
    congr 1
    funext b
    simp only [Function.comp_apply, Bucket.rename, RelationKey.rename_inj hf]
    split <;> rfl

theorem put_rename (item index : Ref) :
    (r.rename f).put (f item) (itemKey.rename f) (f index) (key.rename f) =
      Prod.map id (rename f) (r.put item itemKey index key) := by
  have hentry : ({ index := f index, item := f item, itemKey := itemKey.rename f } :
      RelationEntry) = RelationEntry.rename f { index, item, itemKey } := rfl
  unfold put
  dsimp only
  rw [hasItem_rename r hf, hasIndex_rename r hf, entriesAt_rename r hf, hentry]
  split
  · have hmap : ((r.entriesAt key).map (RelationEntry.rename f)).map (fun e =>
        if e.itemKey = itemKey.rename f then RelationEntry.rename f { index, item, itemKey } else e) =
        ((r.entriesAt key).map fun e => if e.itemKey = itemKey then { index, item, itemKey }
          else e).map (RelationEntry.rename f) := by
      rw [List.map_map, List.map_map]
      congr 1
      funext e
      simp only [Function.comp_apply, RelationEntry.rename, RelationKey.rename_inj hf]
      split <;> rfl
    rw [hmap]
    simp only [rename, setEntries_rename hf]
    rfl
  · split
    · have happend : (r.entriesAt key).map (RelationEntry.rename f) ++
          [RelationEntry.rename f { index, item, itemKey }] =
          (r.entriesAt key ++ [(⟨index, item, itemKey⟩ : RelationEntry)]).map
            (RelationEntry.rename f) := by simp
      rw [happend]
      simp only [rename, setEntries_rename hf]
      rfl
    · simp [rename, Bucket.rename]

theorem removeWhere_rename {p p' : RelationEntry → Bool}
    (hp : p' ∘ RelationEntry.rename f = p) :
    (r.rename f).removeWhere (key.rename f) p' =
      Prod.map (Option.map f) (rename f) (r.removeWhere key p) := by
  unfold removeWhere
  rw [entriesAt_rename r hf, List.find?_map, hp]
  cases (r.entriesAt key).find? p with
  | none => rfl
  | some e =>
    simp only [Option.map_some]
    rw [List.eraseP_map, hp]
    simp only [rename, setEntries_rename hf]
    rfl

theorem remove_rename :
    (r.rename f).remove (key.rename f) = Prod.map (Option.map f) (rename f) (r.remove key) :=
  removeWhere_rename r hf key rfl

theorem removeItem_rename :
    (r.rename f).removeItem (itemKey.rename f) (key.rename f) =
      Prod.map (Option.map f) (rename f) (r.removeItem itemKey key) :=
  removeWhere_rename r hf key (itemKey_rename hf itemKey)

end

end Relation

/-! ## Suppliers and objects -/

namespace Supplier

def rename (f : Ref → Ref) (s : Supplier) : Supplier where
  items := s.items.map f
  indexes := s.indexes.map f
  position := s.position

variable (f : Ref → Ref) (s : Supplier)

theorem remainingItems_rename : (s.rename f).remainingItems = s.remainingItems.map f :=
  List.map_drop.symm

theorem remainingIndexes_rename : (s.rename f).remainingIndexes = s.remainingIndexes.map f :=
  List.map_drop.symm

theorem ofLists_rename (items indexes : List Ref) :
    ofLists (items.map f) (indexes.map f) = (ofLists items indexes).rename f :=
  rfl

theorem available_rename : (s.rename f).available = s.available := by
  simp [available, rename]

theorem current_rename (refs : List Ref) :
    (s.rename f).current (refs.map f) = (s.current refs).map f := by
  simp only [current, rename, List.getElem?_map]
  cases refs[s.position]? <;> rfl

theorem item_rename : (s.rename f).item = s.item.map f :=
  current_rename f s s.items

theorem index_rename : (s.rename f).index = s.index.map f :=
  current_rename f s s.indexes

theorem next_rename : (s.rename f).next = s.next.map (rename f) := by
  rw [next, next, available_rename]
  split <;> rfl

end Supplier

namespace Object

def rename (f : Ref → Ref) : Object → Object
  | string text => string text
  | array a => array (a.map f)
  | relation r => relation (r.rename f)
  | supplier s => supplier (s.rename f)

theorem refs_rename (f : Ref → Ref) (o : Object) :
    Traced.refs (o.rename f) = (Traced.refs o).map f := by
  cases o with
  | string text => rfl
  | array a => exact SlotArray.allItems_map f a
  | relation r => exact Relation.refs_rename r
  | supplier s =>
    simp only [rename, Traced.refs, Supplier.remainingItems_rename,
      Supplier.remainingIndexes_rename, List.map_append]

theorem kind_rename (f : Ref → Ref) (o : Object) : (o.rename f).kind = o.kind := by
  cases o <;> rfl

theorem stringValue_rename (f : Ref → Ref) (o : Object) :
    (o.rename f).stringValue = o.stringValue := by
  cases o <;> rfl

end Object

/-! ## Operations and answers -/

def Answer.rename (f : Ref → Ref) : Answer → Answer
  | ref r => ref (f r)
  | found r => found (r.map f)
  | key k => key (k.rename f)
  | object o => object (o.rename f)
  | done => done
  | position p => position p
  | number n => number n
  | numbers ns => numbers ns
  | truth b => truth b
  | text t => text t
  | order o => order o
  | kind c => kind c
  | generation g => generation g
  | report r => report r
  | tally t => tally t

def ArrayIndex.rename (f : Ref → Ref) : ArrayIndex → ArrayIndex
  | numbers subscripts => numbers subscripts
  | objects arguments => objects (arguments.map (Option.map f))

def Query.rename (f : Ref → Ref) : Query → Query
  | contains r => contains (f r)
  | object r => object (f r)
  | kind r => kind (f r)
  | stringValue r => stringValue (f r)
  | array r => array (f r)
  | relation r => relation (f r)
  | supplier r => supplier (f r)
  | equalValue a b => equalValue (f a) (f b)
  | compareNatural a b => compareNatural (f a) (f b)
  | valueKey r => valueKey (f r)
  | itemAt r index => itemAt (f r) (index.rename f)
  | hasItemAt r index => hasItemAt (f r) (index.rename f)
  | indexOf r value => indexOf (f r) (f value)
  | hasItem r value => hasItem (f r) (f value)
  | items r => items (f r)
  | size r => size (f r)
  | isEmpty r => isEmpty (f r)
  | dimension r n => dimension (f r) n
  | dimensionCount r => dimensionCount (f r)
  | dimensions r => dimensions (f r)
  | first r => first (f r)
  | last r => last (f r)
  | next r position => next (f r) position
  | previous r position => previous (f r) position
  | firstItem r => firstItem (f r)
  | lastItem r => lastItem (f r)
  | render r policy separator => render (f r) policy separator
  | relatedItem r index => relatedItem (f r) (f index)
  | hasIndex r index => hasIndex (f r) (f index)
  | isRelated r item index => isRelated (f r) (f item) (f index)
  | relatedIndex r item => relatedIndex (f r) (f item)
  | relatedCount r index => relatedCount (f r) (index.map f)
  | available r => available (f r)
  | suppliedItem r => suppliedItem (f r)
  | suppliedIndex r => suppliedIndex (f r)
  | generation r => generation (f r)
  | live => live
  | spaceEmpty => spaceEmpty
  | collectionDue => collectionDue
  | tally => tally

def Operation.rename (f : Ref → Ref) : Operation → Operation
  | query q => query (q.rename f)
  | alloc o => alloc (o.rename f)
  | newString text => newString text
  | newArray size => newArray size
  | newShapedArray sizes => newShapedArray sizes
  | arrayOf slots => arrayOf (slots.map (Option.map f))
  | arrayOfStrings texts => arrayOfStrings texts
  | newRelation => newRelation
  | allItems r => allItems (f r)
  | allIndexes r => allIndexes (f r)
  | arraySupplier r => arraySupplier (f r)
  | copy r => copy (f r)
  | join a b => join (f a) (f b)
  | slice r start count => slice (f r) start count
  | relatedItems r index => relatedItems (f r) (f index)
  | relatedIndexes r item => relatedIndexes (f r) (f item)
  | allRelatedItems r => allRelatedItems (f r)
  | allRelatedIndexes r => allRelatedIndexes (f r)
  | relationSupplier r index => relationSupplier (f r) (index.map f)
  | remainingItems r => remainingItems (f r)
  | remainingIndexes r => remainingIndexes (f r)
  | store r value index => store (f r) (f value) (index.rename f)
  | removeAt r index => removeAt (f r) (index.rename f)
  | append r value => append (f r) (f value)
  | appendAll r other => appendAll (f r) (f other)
  | insert r value target => insert (f r) (value.map f) target
  | insertAfter r value position => insertAfter (f r) (value.map f) position
  | delete r position => delete (f r) position
  | removeItem r value => removeItem (f r) (f value)
  | fill r value => fill (f r) (f value)
  | clearAll r => clearAll (f r)
  | sort r stable => sort (f r) stable
  | sortWith r stable comparator memory => sortWith (f r) stable comparator memory
  | relate r item index => relate (f r) (f item) (f index)
  | unrelate r index => unrelate (f r) (f index)
  | unrelateItem r item index => unrelateItem (f r) (f item) (f index)
  | advance r => advance (f r)
  | root r => root (f r)
  | unroot r => unroot (f r)
  | tenure r => tenure (f r)
  | collect kind => collect kind

end Managed
