import Managed.Proofs.SlotArray.Sorted
import Managed.Proofs.SlotArray.Subscripts
import Managed.SlotArray.Detached

/-!
# Arrays with other items

No operation on an array looks at its items. So it makes no difference whether the items are replaced
by others, one by one (`SlotArray.map`), before an operation or after it. `Mirrors` says so of work in
place, also of the array that it leaves when it fails.
-/

namespace Managed

/-- Two computations that agree up to a function, one after the other. -/
theorem bind_eq_map {ε β β' γ γ' : Type} {x : Except ε β} {y : Except ε β'} {f : β → β'}
    {k : β → Except ε γ} {k' : β' → Except ε γ'} {g : γ → γ'} (hx : y = x.map f)
    (hk : ∀ b, x = .ok b → k' (f b) = (k b).map g) : y >>= k' = (x >>= k).map g := by
  subst hx
  cases x with
  | error e => rfl
  | ok b => exact hk b rfl

theorem bind_eq_bind_of_map {ε β β' γ : Type} {x : Except ε β} {y : Except ε β'} {f : β → β'}
    {k : β → Except ε γ} {k' : β' → Except ε γ} (hx : y = x.map f)
    (hk : ∀ b, x = .ok b → k' (f b) = k b) : y >>= k' = x >>= k := by
  subst hx
  cases x with
  | error e => rfl
  | ok b => exact hk b rfl

theorem bind_eq_map_bind {ε β γ γ' : Type} {x : Except ε β} {k : β → Except ε γ}
    {k' : β → Except ε γ'} {g : γ → γ'} (hk : ∀ b, x = .ok b → k' b = (k b).map g) :
    x >>= k' = (x >>= k).map g := by
  cases x with
  | error e => rfl
  | ok b => exact hk b rfl

namespace SlotArray

variable {α β : Type}

/-- The array with `f x` in place of each item `x`. -/
def map (f : α → β) (a : SlotArray α) : SlotArray β :=
  { storage := a.storage.map (Option.map f), size := a.size, items := a.items, last := a.last,
    shape := a.shape }

section

variable (f : α → β) (a : SlotArray α)

theorem map_map {γ : Type} (g : β → γ) : (a.map f).map g = a.map (g ∘ f) := by
  simp [map, Function.comp_def]

theorem join_map (slot : Option (Option α)) :
    (slot.map (Option.map f)).join = slot.join.map f := by
  cases slot <;> rfl

/-! ## Reading -/

theorem occupied_map (block : Array (Option α)) (position : Nat) :
    occupied (block.map (Option.map f)) position = occupied block position := by
  simp [occupied, join_map]

theorem lastOccupied_map (block : Array (Option α)) (position : Nat) :
    lastOccupied (block.map (Option.map f)) position = lastOccupied block position := by
  induction position with
  | zero => rfl
  | succ p ih => rw [lastOccupied, lastOccupied, occupied_map, ih]

theorem firstOccupied_map (block : Array (Option α)) (stop position : Nat) :
    firstOccupied (block.map (Option.map f)) stop position = firstOccupied block stop position := by
  fun_induction firstOccupied block stop position with
  | case1 position hle hocc => rw [firstOccupied, if_pos hle, occupied_map, if_pos hocc]
  | case2 position hle hocc ih => rw [firstOccupied, if_pos hle, occupied_map, if_neg hocc, ih]
  | case3 position hle => rw [firstOccupied, if_neg hle]

theorem capacity_map : (a.map f).capacity = a.capacity := by
  simp [capacity, map]

theorem slots_map : (a.map f).slots = a.slots.map (Option.map f) := by
  simp [slots, map]

theorem get?_map (position : Nat) : (a.map f).get? position = (a.get? position).map f := by
  unfold get?
  simp only [map, Array.getElem?_map, join_map]
  split <;> rfl

theorem entries_map : (a.map f).entries = a.entries.map (Prod.map id f) := by
  simp only [entries, slots_map, Array.toList_map, List.zipIdx_map, List.filterMap_map,
    List.map_filterMap]
  congr 1
  funext entry
  obtain ⟨slot, p⟩ := entry
  cases slot <;> rfl

theorem allItems_map : (a.map f).allItems = a.allItems.map f := by
  simp [allItems, entries_map]

theorem allIndexes_map : (a.map f).allIndexes = a.allIndexes := by
  simp [allIndexes, entries_map]

theorem next?_map (position : Nat) : (a.map f).next? position = a.next? position :=
  firstOccupied_map f a.storage a.last (position + 1)

theorem previous?_map (position : Nat) : (a.map f).previous? position = a.previous? position :=
  lastOccupied_map f a.storage (min position (a.size + 1) - 1)

/-! ## Making and changing -/

theorem recount_map : (a.map f).recount = a.recount.map f := by
  have hcount : (a.map f).slots.countP Option.isSome = a.slots.countP Option.isSome := by
    rw [slots_map, Array.countP_map]
    congr 1
    funext slot
    simp
  have hlast : lastOccupied (a.map f).storage (a.map f).size = lastOccupied a.storage a.size :=
    lastOccupied_map f a.storage a.size
  rw [recount, recount, hcount, hlast]
  rfl

theorem empty_map : ({} : SlotArray β) = map f {} := by
  simp [map]

theorem replicate_map (size : Nat) (shape : Option Shape) :
    ({ size, storage := Array.replicate size none, shape } : SlotArray β) =
      map f { size, storage := Array.replicate size none, shape } := by
  simp [map]

theorem ofSize_map (size : Nat) (limits : ArrayLimits) :
    (ofSize size limits : Except Fault (SlotArray β)) = (ofSize size limits).map (map f) := by
  refine bind_eq_map_bind fun u _ => ?_
  rw [replicate_map f]
  rfl

theorem ofDimensions_map (sizes : List Nat) (limits : ArrayLimits) :
    (ofDimensions sizes limits : Except Fault (SlotArray β)) =
      (ofDimensions sizes limits).map (map f) := by
  unfold ofDimensions
  split
  · exact congrArg Except.ok (empty_map f)
  · exact ofSize_map f _ limits
  · refine bind_eq_map_bind fun u _ => ?_
    rw [replicate_map f]
    rfl

theorem ofSlots_map (slots : Array (Option α)) (limits : ArrayLimits) :
    ofSlots (slots.map (Option.map f)) limits = (ofSlots slots limits).map (map f) := by
  unfold ofSlots
  rw [Array.size_map]
  refine bind_eq_map_bind fun u _ => ?_
  have hmap := recount_map f { size := slots.size, storage := slots }
  exact congrArg Except.ok hmap

theorem put_map (position : Nat) (value : Option α) :
    (a.map f).put position (value.map f) = (a.put position value).map f := by
  have hstorage : (a.map f).storage.setIfInBounds (position - 1) (value.map f) =
      (a.storage.setIfInBounds (position - 1) value).map (Option.map f) := by
    simp [map]
  have hheld : occupied (a.map f).storage position = occupied a.storage position :=
    occupied_map f a.storage position
  simp only [put, hstorage, hheld, lastOccupied_map, Option.isSome_map]
  rfl

theorem clear_map (position : Nat) :
    (a.map f).clear position = Prod.map (Option.map f) (map f) (a.clear position) := by
  unfold clear
  rw [get?_map]
  cases a.get? position with
  | none => rfl
  | some x =>
    have hput := put_map f a position none
    exact congrArg (Prod.mk (some (f x))) hput

theorem overlay_map (block : Array (Option α)) (n : Nat) (value : Option α) :
    Array.replicate n (value.map f) ++ (block.map (Option.map f)).extract n =
      (Array.replicate n value ++ block.extract n).map (Option.map f) := by
  simp

theorem fill_map (value : α) : (a.map f).fill (f value) = (a.fill value).map f := by
  have hstorage := overlay_map f a.storage a.size (some value)
  simp only [fill, map] at hstorage ⊢
  simp only [Option.map_some] at hstorage
  rw [← hstorage]

theorem clearAll_map : (a.map f).clearAll = a.clearAll.map f := by
  have hstorage := overlay_map f a.storage a.size none
  simp only [clearAll, map] at hstorage ⊢
  simp only [Option.map_none] at hstorage
  rw [← hstorage]

/-! ## Growing -/

theorem reallocate_map (capacity : Nat) :
    (a.map f).reallocate capacity = (a.reallocate capacity).map f := by
  unfold reallocate
  rw [slots_map]
  simp [map]

theorem ensureSpace_map (size : Nat) (limits : ArrayLimits) :
    (a.map f).ensureSpace size limits = (a.ensureSpace size limits).map (map f) := by
  rw [ensureSpace_eq, ensureSpace_eq, capacity_map, reallocate_map]
  split
  · rfl
  · exact bind_eq_map_bind fun u _ => rfl

theorem extend_map (extension : Nat) (limits : ArrayLimits) :
    (a.map f).extend extension limits = (a.extend extension limits).map (map f) := by
  rw [extend_eq, extend_eq]
  refine bind_eq_map_bind fun u _ => bind_eq_map_bind fun u _ => ?_
  have hsize : (a.map f).size = a.size := rfl
  dsimp only
  rw [capacity_map, reallocate_map, hsize]
  split <;> rfl

theorem copy_map (run : Shape.Run) (source target : Array (Option α)) :
    run.copy (source.map (Option.map f)) (target.map (Option.map f)) =
      (run.copy source target).map (Option.map f) := by
  unfold Shape.Run.copy
  induction List.range run.length generalizing target with
  | nil => rfl
  | cons k rest ih =>
    rw [List.foldl_cons, List.foldl_cons, ← ih]
    congr 1
    simp [join_map]

theorem foldl_copy_map (runs : List Shape.Run) (source target : Array (Option α)) :
    runs.foldl (fun block run => run.copy (source.map (Option.map f)) block)
        (target.map (Option.map f)) =
      (runs.foldl (fun block run => run.copy source block) target).map (Option.map f) := by
  induction runs generalizing target with
  | nil => rfl
  | cons run rest ih => rw [List.foldl_cons, List.foldl_cons, copy_map, ih]

theorem moveTo_map (s t : Shape) (total : Nat) :
    (a.map f).moveTo s t total = (a.moveTo s t total).map f := by
  have hblock : (Array.replicate total none : Array (Option β)) =
      (Array.replicate total none).map (Option.map f) := by simp
  have hsize : (a.map f).size = a.size := rfl
  unfold moveTo
  dsimp only
  rw [← recount_map, slots_map, hblock, foldl_copy_map, hsize]
  split <;> rfl

theorem cover_map (subscripts : List Nat) (limits : ArrayLimits) :
    (a.map f).cover subscripts limits = (a.cover subscripts limits).map (map f) := by
  have hsizes : (a.map f).growingSizes = a.growingSizes := rfl
  rw [cover_eq, cover_eq, hsizes]
  dsimp only
  split
  · rfl
  · split
    · rfl
    · refine bind_eq_map_bind fun u _ => ?_
      rw [moveTo_map]
      rfl

theorem validateIndex_map (subscripts : List Subscript) (access : IndexAccess)
    (limits : ArrayLimits) :
    (a.map f).validateIndex subscripts access limits =
      (a.validateIndex subscripts access limits).map (Prod.map id (map f)) := by
  rw [validateIndex_eq, validateIndex_eq]
  refine bind_eq_map_bind fun location _ => ?_
  cases location with
  | position p => rfl
  | beyond p => exact bind_eq_map (extend_map f a _ limits) fun b _ => rfl
  | outside whole =>
    refine bind_eq_map (cover_map f a whole limits) fun b _ => ?_
    exact bind_eq_map_bind fun p _ => rfl
  | nowhere => rfl

/-! ## Arrays as sequences -/

theorem growTo_map (position : Nat) (limits : ArrayLimits) :
    (a.map f).growTo position limits = (a.growTo position limits).map (map f) := by
  have hsize : (a.map f).size = a.size := rfl
  rw [growTo_eq, growTo_eq, hsize]
  split
  · exact extend_map f a _ limits
  · rfl

theorem append_map (value : α) (limits : ArrayLimits) :
    (a.map f).append (f value) limits = (a.append value limits).map (Prod.map id (map f)) := by
  rw [append_eq, append_eq]
  refine bind_eq_map_bind fun u _ => bind_eq_map (growTo_map f a _ limits) fun b _ => ?_
  have hput := put_map f b (a.last + 1) (some value)
  exact congrArg (fun c => Except.ok (a.last + 1, c)) hput

theorem shiftUp_map (position size : Nat) :
    (a.map f).shiftUp position size = (a.shiftUp position size).map f := by
  have hstorage : (a.map f).storage.extract 0 (position - 1) ++ #[none] ++
      (a.map f).storage.extract (position - 1) size ++ (a.map f).storage.extract (size + 1) =
      (a.storage.extract 0 (position - 1) ++ #[none] ++ a.storage.extract (position - 1) size ++
        a.storage.extract (size + 1)).map (Option.map f) := by
    simp [map]
  rw [shiftUp, hstorage]
  rfl

theorem shiftDown_map (position : Nat) :
    (a.map f).shiftDown position = (a.shiftDown position).map f := by
  have hstorage : (a.map f).storage.extract 0 (position - 1) ++
      (a.map f).storage.extract position (a.map f).size ++ #[none] ++
      (a.map f).storage.extract (a.map f).size =
      (a.storage.extract 0 (position - 1) ++ a.storage.extract position a.size ++ #[none] ++
        a.storage.extract a.size).map (Option.map f) := by
    simp [map]
  rw [shiftDown, hstorage]
  rfl

theorem openGap_map (position : Nat) (limits : ArrayLimits) :
    (a.map f).openGap position limits = (a.openGap position limits).map (map f) := by
  have hsize : (a.map f).size = a.size := rfl
  rw [openGap_eq, openGap_eq, hsize]
  refine bind_eq_map (extend_map f a _ limits) fun b _ => ?_
  rw [shiftUp_map]
  split <;> rfl

theorem insert_map (value : Option α) (target : InsertAt) (limits : ArrayLimits) :
    (a.map f).insert (value.map f) target limits =
      (a.insert value target limits).map (Prod.map id (map f)) := by
  have hposition : (a.map f).insertPosition target = a.insertPosition target := by
    cases target <;> rfl
  rw [insert_eq, insert_eq, hposition]
  refine bind_eq_map_bind fun u _ => bind_eq_map_bind fun position _ => ?_
  refine bind_eq_map (openGap_map f a position limits) fun b _ => ?_
  rw [put_map]
  rfl

theorem delete_map (position : Nat) :
    (a.map f).delete position =
      (a.delete position).map (Prod.map (Option.map f) (map f)) := by
  rw [delete_eq, delete_eq]
  refine bind_eq_map_bind fun u _ => bind_eq_map_bind fun u _ => ?_
  rw [clear_map]
  exact congrArg (fun c => Except.ok ((a.clear position).1.map f, c))
    (shiftDown_map f (a.clear position).2 position)

theorem sliceFrom_map (start : Nat) (count : Option Nat) (limits : ArrayLimits) :
    (a.map f).sliceFrom start count limits = (a.sliceFrom start count limits).map (map f) := by
  have hsize : (a.map f).size = a.size := rfl
  have hstorage : ∀ i j, (a.map f).storage.extract i j =
      (a.storage.extract i j).map (Option.map f) := fun i j => by simp [map]
  unfold sliceFrom
  refine bind_eq_map_bind fun u _ => ?_
  dsimp only
  rw [hsize, hstorage]
  by_cases hstart : start = 0
  · rw [if_pos hstart, if_pos hstart]
    split <;> rfl
  · rw [if_neg hstart, if_neg hstart]
    split
    · exact congrArg Except.ok (empty_map f)
    · exact ofSlots_map f _ limits

theorem join_map_map (b : SlotArray α) (limits : ArrayLimits) :
    (a.map f).join (b.map f) limits = (a.join b limits).map (map f) := by
  have hslots : (a.map f).slots ++ (b.map f).slots = (a.slots ++ b.slots).map (Option.map f) := by
    rw [slots_map, slots_map, Array.map_append]
  unfold join
  rw [hslots]
  exact bind_eq_map_bind fun u _ => ofSlots_map f _ limits

end

end SlotArray

/-! ## Sorting -/

namespace Detached

open Sorting

variable {ε σ α β : Type}

/-- The result of a sort, with `f x` in place of each item `x`. -/
def mirrored (f : α → β) :
    EStateM.Result ε (Detached α × σ) Unit → EStateM.Result ε (Detached β × σ) Unit
  | .ok u (d, s) => .ok u (d.map f, s)
  | .error e (d, s) => .error e (d.map f, s)

/-- The comparators need to agree only on items with a property that all items have. -/
theorem sort_map_of_forall {f : α → β} {compare : Comparator ε σ α} {compare' : Comparator ε σ β}
    {p : α → Prop} (hc : ∀ a b, p a → p b → compare' (f a) (f b) = compare a b)
    {d : Detached α} (hp : ∀ x, some x ∈ d.storage → p x) (stable : Bool) (s : σ) :
    sort stable compare' (d.map f, s) = mirrored f (sort stable compare (d, s)) := by
  let same : Likeness ε ε σ σ := { state := Eq, fault := Eq }
  have hcompare : same.Comparators (fun x y => p x ∧ y = f x) compare compare' := by
    rintro a b _ _ ⟨ha, rfl⟩ ⟨hb, rfl⟩ s _ rfl
    rw [hc a b ha hb]
    cases compare a b s with
    | ok verdict t => exact ⟨rfl, rfl⟩
    | error e t => exact ⟨rfl, rfl⟩
  rcases (alike_sort hcompare stable (matches_map fun x hx => ⟨hp x hx, rfl⟩) (rfl : s = s)).cases with
    ⟨_, _, ⟨e, t⟩, ⟨e', _⟩, hx, hx', _, he, rfl⟩ | ⟨_, _, ⟨e, t⟩, ⟨e', _⟩, hx, hx', rfl, he, rfl⟩
  · obtain rfl : e' = e.map f := eq_map_of_matches (fun _ _ h => h.2) he
    rw [hx, hx']
    rfl
  · obtain rfl : e' = e.map f := eq_map_of_matches (fun _ _ h => h.2) he
    rw [hx, hx']
    rfl

end Detached

namespace SlotArray

variable {α β : Type} (f : α → β) (a : SlotArray α)

theorem densePrefix_map : (a.map f).densePrefix = a.densePrefix := by
  have hfind : ((a.map f).storage.extract 0 a.items).findIdx? Option.isNone =
      (a.storage.extract 0 a.items).findIdx? Option.isNone := by
    have hholes : Option.isNone ∘ Option.map f = Option.isNone := by
      funext slot
      cases slot <;> rfl
    simp only [map]
    rw [← Array.map_extract, Array.findIdx?_map, hholes]
  unfold densePrefix
  rw [show (a.map f).items = a.items from rfl, hfind]

theorem detach_map :
    (a.map f).detach = a.detach.map (Prod.map (Detached.map f) (map f)) := by
  unfold detach
  rw [densePrefix_map]
  refine bind_eq_map_bind fun n _ => ?_
  simp [pure, Except.pure, Except.map, map, Detached.map]

end SlotArray

/-! ## Work in place -/

namespace ArrayM

variable {α β γ γ' δ δ' : Type} {f : α → β} {g : γ → γ'}

/-- What `work` does to an array, `work'` does to the array with other items. -/
def Mirrors (f : α → β) (g : γ → γ') (work : ArrayM α γ) (work' : ArrayM β γ') : Prop :=
  ∀ a, work' (a.map f) = match work a with
    | .ok answer b => .ok (g answer) (b.map f)
    | .error e b => .error e (b.map f)

/-- Work that leaves the array as it was when it fails is told by its outcome. -/
theorem Restores.mirrors {work : ArrayM α γ} {work' : ArrayM β γ'} (h : work.Restores)
    (h' : work'.Restores)
    (ho : ∀ a, work'.outcome (a.map f) = (work.outcome a).map (Prod.map g (SlotArray.map f))) :
    Mirrors f g work work' := by
  intro a
  rw [h.apply_eq, h'.apply_eq, ho]
  cases work.outcome a <;> rfl

theorem Mirrors.bind {g' : δ → δ'} {work : ArrayM α γ} {work' : ArrayM β γ'} {next : γ → ArrayM α δ}
    {next' : γ' → ArrayM β δ'} (h : Mirrors f g work work')
    (hnext : ∀ answer, Mirrors f g' (next answer) (next' (g answer))) :
    Mirrors f g' (work >>= next) (work' >>= next') := by
  intro a
  rw [bind_apply, bind_apply, h]
  cases work a with
  | error e b => rfl
  | ok answer b => exact hnext answer b

theorem mirrors_get (f : α → β) : Mirrors f (SlotArray.map f) get get :=
  fun _ => rfl

theorem mirrors_pure (f : α → β) (g : γ → γ') (answer : γ) :
    Mirrors f g (pure answer) (pure (g answer)) :=
  fun _ => rfl

theorem mirrors_modify {change : SlotArray α → SlotArray α} {change' : SlotArray β → SlotArray β}
    (h : ∀ a, change' (a.map f) = (change a).map f) :
    Mirrors f id (modify change) (modify change') := by
  intro a
  change EStateM.Result.ok () (change' (a.map f)) = _
  rw [h]
  rfl

theorem mirrors_clear (f : α → β) (position : Nat) :
    Mirrors f (Option.map f) (clear position) (clear position) :=
  (succeeds_clear position).restores.mirrors (succeeds_clear position).restores
    fun a => congrArg Except.ok (SlotArray.clear_map f a position)

theorem mirrors_delete (f : α → β) (position : Nat) :
    Mirrors f (Option.map f) (delete position) (delete position) :=
  (restores_delete position).mirrors (restores_delete position)
    fun a => SlotArray.delete_map f a position

theorem mirrors_insert (f : α → β) (value : Option α) (target : InsertAt) (limits : ArrayLimits) :
    Mirrors f id (insert value target limits) (insert (value.map f) target limits) :=
  (restores_insert value target limits).mirrors (restores_insert _ target limits)
    fun a => SlotArray.insert_map f a value target limits

theorem mirrors_append (f : α → β) (value : α) (limits : ArrayLimits) :
    Mirrors f id (append value limits) (append (f value) limits) :=
  (restores_append value limits).mirrors (restores_append _ limits)
    fun a => SlotArray.append_map f a value limits

theorem mirrors_ensureSpace (f : α → β) (size : Nat) (limits : ArrayLimits) :
    Mirrors f id (ensureSpace size limits) (ensureSpace size limits) := by
  intro a
  have hmap := SlotArray.ensureSpace_map f a size limits
  rw [SlotArray.ensureSpace, SlotArray.ensureSpace] at hmap
  rw [(restores_ensureSpace size limits).apply_unit, (restores_ensureSpace size limits).apply_unit,
    hmap]
  cases (ensureSpace size limits).outcome a <;> rfl

theorem mirrors_remove (f : α → β) (subscripts : List Subscript) :
    Mirrors f (Option.map f) (remove subscripts) (remove subscripts) := by
  have hask :
      Mirrors f id (ask (·.positionOf subscripts .read)) (ask (·.positionOf subscripts .read)) := by
    intro a
    rw [ask, ask, show (a.map f).positionOf subscripts .read = a.positionOf subscripts .read from rfl]
    cases a.positionOf subscripts .read <;> rfl
  refine hask.bind fun found => ?_
  cases found with
  | none => exact mirrors_pure f (Option.map f) none
  | some p => exact mirrors_clear f p

theorem mirrors_store (f : α → β) (subscripts : List Subscript) (value : α) (limits : ArrayLimits) :
    Mirrors f id (store subscripts value limits) (store subscripts (f value) limits) := by
  have hindex : Mirrors f id (validateIndex subscripts .write limits)
      (validateIndex subscripts .write limits) :=
    (restores_validateIndex subscripts .write limits).mirrors
      (restores_validateIndex subscripts .write limits)
      fun a => SlotArray.validateIndex_map f a subscripts .write limits
  refine hindex.bind fun found => ?_
  cases found with
  | none => exact (mirrors_get f).bind fun _ _ => rfl
  | some p => exact mirrors_modify fun a => SlotArray.put_map f a p (some value)

theorem mirrors_appendAll (f : α → β) (items : List α) (limits : ArrayLimits) :
    Mirrors f id (appendAll items limits) (appendAll (items.map f) limits) := by
  have heach : Mirrors f id
      (items.forM fun item => do
        let _ ← append item limits)
      ((items.map f).forM fun item => do
        let _ ← append item limits) := by
    induction items with
    | nil => exact mirrors_pure f id ()
    | cons x rest ih =>
      exact ((mirrors_append f x limits).bind fun _ => mirrors_pure f id ()).bind fun _ => ih
  refine (mirrors_get f).bind fun a => ?_
  rw [List.length_map]
  exact (mirrors_ensureSpace f _ limits).bind fun _ => heach

end ArrayM

end Managed
