import Managed.Proofs.SlotArray.Packed
import Managed.Proofs.Space.Dense

/-!
# Sorts by the natural order

Strings have a natural order, and other objects have none. A sort by the natural order succeeds if all
items are strings, or if there are fewer than two of them, and fails otherwise, wherever the item that
is none may lie (`naturalSort_of_dense`). What it reports then is true of one of the items: that it is
of a class without an order, or that it no longer refers to an object. In any case no item is lost.
-/

namespace Managed

/-! ## Items in front -/

namespace SlotArray

variable {α : Type} {a : SlotArray α} {items : List α} {rest : Array (Option α)}

/-- The slots of an array are these items and then holes. -/
def Fronted (a : SlotArray α) (items : List α) (rest : Array (Option α)) : Prop :=
  a.storage = (items.map some).toArray ++ rest ∧ ∀ slot ∈ rest, slot = none

theorem Fronted.allItems_eq (h : a.Fronted items rest) (hle : items.length ≤ a.size) :
    a.allItems = items := by
  obtain ⟨hstorage, hrest⟩ := h
  have hholes : ∀ n, (rest.toList.take n).filterMap id = [] := by
    intro n
    refine List.filterMap_eq_nil_iff.mpr fun slot hslot => ?_
    exact hrest slot (Array.mem_toList_iff.mp (List.mem_of_mem_take hslot))
  rw [allItems_eq_filterMap, toList_slots, hstorage, Array.toList_append, List.take_append,
    List.take_of_length_le (by simpa using hle), List.filterMap_append, hholes, List.append_nil,
    List.filterMap_map]
  simp

/-- The items of a dense array fill its first slots. -/
theorem exists_fronted (ha : a.Padded) (hc : a.Counted) (hdense : a.Dense) :
    ∃ rest, a.Fronted a.allItems rest ∧ a.allItems.length = a.items := by
  have hlast := (dense_iff ha hc).mp hdense
  have hfront : ∀ i < a.items, (a.slotAt i).isSome = true := by
    rw [hlast]
    exact (dense_iff_slots ha).mp hdense
  have hsome : ∀ slot ∈ a.storage.toList.take a.items, slot.isSome = true := by
    intro slot hslot
    obtain ⟨i, hi, rfl⟩ := List.mem_take_iff_getElem.mp hslot
    have hheld := hfront i (by omega)
    rwa [slotAt, cell_toList, List.getElem?_eq_getElem (by omega)] at hheld
  have hnone : ∀ slot ∈ a.storage.toList.drop a.items, slot = none := by
    intro slot hslot
    obtain ⟨i, hi, rfl⟩ := List.mem_drop_iff_getElem.mp hslot
    have hhole := hole_of_dense hc hfront (Nat.le_add_right a.items i)
    rwa [slotAt, cell_toList, List.getElem?_eq_getElem (by omega)] at hhole
  obtain ⟨items, hitems⟩ : ∃ items : List α, items.map some = a.storage.toList.take a.items := by
    refine ⟨(a.storage.toList.take a.items).filterMap id, ?_⟩
    rw [List.map_filterMap_some_eq_filter_map_isSome, List.map_id, List.filter_eq_self.mpr hsome]
  have hlength : items.length = a.items := by
    have hle := hc.items_le
    rw [← List.length_map some, hitems, List.length_take, Array.length_toList]
    omega
  have hfronted : a.Fronted items (a.storage.toList.drop a.items).toArray := by
    refine ⟨?_, fun slot hslot => hnone slot (by simpa using hslot)⟩
    apply Array.toList_inj.mp
    rw [Array.toList_append, hitems, List.take_append_drop]
  have hall : a.allItems = items := by
    have hle := hc.last_le_size ha
    exact hfronted.allItems_eq (by omega)
  rw [hall]
  exact ⟨_, hfronted, hlength⟩

/-- The array with other items in front. -/
def refronted (a : SlotArray α) (items : List α) (rest : Array (Option α)) : SlotArray α :=
  { a with storage := (items.map some).toArray ++ rest }

theorem Fronted.reordered (h : a.Fronted items rest) (hcount : items.length = a.items) {m : List α}
    (hm : m.Perm items) : a.Reordered (a.refronted m rest) := by
  obtain ⟨hstorage, hrest⟩ := h
  have hlength : m.length = a.items := hm.length_eq.trans hcount
  refine ⟨rfl, ?_, rfl, rfl, rfl, ?_, fun i hi => ?_⟩
  · simp [capacity, refronted, hstorage, hm.length_eq]
  · rw [hstorage, refronted, Array.toList_append, Array.toList_append,
      List.take_left' (by simpa using hlength), List.take_left' (by simpa using hcount)]
    exact hm.map some
  · have hsize : ((m.map some).toArray : Array (Option α)).size = a.items := by simpa using hlength
    change cell ((m.map some).toArray ++ rest) i = none
    rw [cell_append, if_neg (by omega), cell]
    cases hslot : rest[i - _]? with
    | none => rfl
    | some slot => rw [hrest slot (Array.mem_of_getElem? hslot), Option.join_some]

end SlotArray

/-! ## The natural order -/

instance : Std.TransCmp Text.byteOrder :=
  inferInstanceAs (Std.TransCmp (compareOn Text.bytes))

namespace Space

open Sorting

variable {s : Space} {r : Ref} {a : SlotArray Ref}

theorem get_eq_error {x : Ref} {e : Fault} :
    s.get x = .error e ↔ s.heap.get? x = none ∧ e = .heap (.stale x) := by
  unfold get Heap.get Heap.get?
  cases s.heap.resolve? x with
  | none => simp [eq_comm]
  | some entry => simp

/-- What a comparison says of one of its items when it fails. -/
def Unordered (s : Space) (x : Ref) (e : Fault) : Prop :=
  (∃ o, s.heap.get? x = some o ∧ o.kind ≠ .string ∧ e = .notComparable o.kind) ∨
    s.heap.get? x = none ∧ e = .heap (.stale x)

/-- Two strings compare as their texts do. Of two other objects one is to blame. -/
theorem compareNatural_cases (s : Space) (a b : Ref) :
    (∃ x y, s.heap.get? a = some (.string x) ∧ s.heap.get? b = some (.string y) ∧
      s.compareNatural a b = .ok (Text.byteOrder x y)) ∨
    ∃ e, s.compareNatural a b = .error e ∧ (s.Unordered a e ∨ s.Unordered b e) := by
  have hblame : ∀ {x : Ref} {o : Object}, s.get x = .ok o → o.kind ≠ .string →
      s.Unordered x (.notComparable o.kind) :=
    fun hx hkind => Or.inl ⟨_, get_eq_ok.mp hx, hkind, rfl⟩
  unfold compareNatural
  cases ha : s.get a with
  | error e => exact Or.inr ⟨e, rfl, Or.inl (Or.inr (get_eq_error.mp ha))⟩
  | ok o =>
    cases hb : s.get b with
    | error e => exact Or.inr ⟨e, rfl, Or.inr (Or.inr (get_eq_error.mp hb))⟩
    | ok o' =>
      -- an object on the left that is no string is named, whatever stands on the right
      cases o with
      | string x =>
        cases o' with
        | string y => exact Or.inl ⟨x, y, get_eq_ok.mp ha, get_eq_ok.mp hb, rfl⟩
        | array _ => exact Or.inr ⟨_, rfl, Or.inr (hblame hb (by rintro ⟨⟩))⟩
        | relation _ => exact Or.inr ⟨_, rfl, Or.inr (hblame hb (by rintro ⟨⟩))⟩
        | supplier _ => exact Or.inr ⟨_, rfl, Or.inr (hblame hb (by rintro ⟨⟩))⟩
      | array _ => exact Or.inr ⟨_, rfl, Or.inl (hblame ha (by rintro ⟨⟩))⟩
      | relation _ => exact Or.inr ⟨_, rfl, Or.inl (hblame ha (by rintro ⟨⟩))⟩
      | supplier _ => exact Or.inr ⟨_, rfl, Or.inl (hblame ha (by rintro ⟨⟩))⟩

theorem natural_cases (s : Space) (a b : Ref) :
    (∃ x y, s.heap.get? a = some (.string x) ∧ s.heap.get? b = some (.string y) ∧
      natural s a b () = .ok (Text.byteOrder x y) ()) ∨
    ∃ e, natural s a b () = .error e () ∧ (s.Unordered a e ∨ s.Unordered b e) := by
  unfold natural
  rcases compareNatural_cases s a b with ⟨x, y, ha, hb, hok⟩ | ⟨e, herr, hblame⟩
  · rw [hok]
    exact Or.inl ⟨x, y, ha, hb, rfl⟩
  · rw [herr]
    exact Or.inr ⟨e, rfl, hblame⟩

theorem Unordered.not_string {x : Ref} {e : Fault} (h : s.Unordered x e) (text : String) :
    s.heap.get? x ≠ some (.string text) := by
  intro hx
  rcases h with ⟨o, ho, hkind, _⟩ | ⟨hnone, _⟩
  · rw [hx] at ho
    cases ho
    exact hkind rfl
  · rw [hx] at hnone
    cases hnone

/-- Strings rank by their texts. -/
theorem ranks_natural (s : Space) :
    Ranks (natural s) (fun x text => s.heap.get? x = some (.string text)) Text.byteOrder where
  answered {a b j k} ha hb := by
    rintro ⟨⟩
    rcases natural_cases s a b with ⟨x, y, hx, hy, hok⟩ | ⟨e, _, hblame | hblame⟩
    · rw [ha] at hx
      rw [hb] at hy
      cases hx
      cases hy
      exact ⟨(), hok⟩
    · exact absurd ha (hblame.not_string j)
    · exact absurd hb (hblame.not_string k)
  demands a b := by
    rintro ⟨⟩ o ⟨⟩ hrun
    rcases natural_cases s a b with ⟨x, y, hx, hy, _⟩ | ⟨e, herr, _⟩
    · exact ⟨⟨x, hx⟩, y, hy⟩
    · rw [hrun] at herr
      cases herr

/-! ## Sorting -/

/-- Handles that are sorted by the natural order are all handles of strings, unless there are fewer
than two of them. Otherwise one of them is to blame. -/
theorem arrange_natural_cases (s : Space) (stable : Bool) (items : List Ref) :
    (∃ w : Vector Ref items.length,
      arrange stable (natural s) items.length (⟨items.toArray, rfl⟩, ()) = .ok () (w, ()) ∧
      w.toList.Perm items ∧
      (items.length < 2 ∨ ∀ x ∈ items, ∃ text, s.heap.get? x = some (.string text)) ∧
      w.toList.Pairwise fun x y => ∃ j k, s.heap.get? x = some (.string j) ∧
        s.heap.get? y = some (.string k) ∧ (Text.byteOrder j k).isLE = true) ∨
    ∃ (e : Fault) (w : Vector Ref items.length),
      arrange stable (natural s) items.length (⟨items.toArray, rfl⟩, ()) = .error e (w, ()) ∧
      w.toList.Perm items ∧
      ¬(items.length < 2 ∨ ∀ x ∈ items, ∃ text, s.heap.get? x = some (.string text)) ∧
      ∃ x ∈ items, s.Unordered x e := by
  have hperm := rearranges_arrange stable (natural s) items.length ⟨items.toArray, rfl⟩ ()
  have hiff := (ranks_natural s).arrange_isOk_iff stable
    (⟨items.toArray, rfl⟩ : Vector Ref items.length) ()
  cases hrun : arrange stable (natural s) items.length (⟨items.toArray, rfl⟩, ()) with
  | ok u p =>
    rw [hrun] at hperm hiff
    exact Or.inl ⟨p.1, rfl, hperm, hiff.mp ⟨p.1, (), rfl⟩, (ranks_natural s).pairwise_of_arrange hrun⟩
  | error e p =>
    rw [hrun] at hperm hiff
    refine Or.inr ⟨e, p.1, rfl, hperm, fun h => ?_, ?_⟩
    · obtain ⟨_, _, hok⟩ := hiff.mpr h
      cases hok
    · obtain ⟨x, hx, y, hy, ⟨⟩, ⟨⟩, herr⟩ := refused_of_arrange hrun
      rcases natural_cases s x y with ⟨_, _, _, _, hok⟩ | ⟨_, herr', hblame⟩
      · rw [herr] at hok
        cases hok
      · rw [herr] at herr'
        cases herr'
        rcases hblame with hblame | hblame
        · exact ⟨x, hx, hblame⟩
        · exact ⟨y, hy, hblame⟩

/-- A sort of a dense array arranges its items. -/
theorem sorting_of_fronted {σ : Type} {rest : Array (Option Ref)} (ha : s.array r = .ok a)
    (hd : a.detach = .ok ({ storage := a.storage, size := a.size, items := a.items, last := a.last },
      { shape := a.shape })) (hfront : a.Fronted a.allItems rest)
    (hcount : a.allItems.length = a.items) (stable : Bool)
    (compare : Space → Comparator Fault σ Ref) (memory : σ) :
    sorting r stable compare memory s =
      match arrange stable (compare (s.setObject r (.array { shape := a.shape }))) a.allItems.length
        (⟨a.allItems.toArray, rfl⟩, memory) with
      | .ok u (w, _) => .ok u (s.setObject r (.array (a.refronted w.toList rest)))
      | .error e (w, _) => .error e (s.setObject r (.array (a.refronted w.toList rest))) := by
  have hd' : s.array r >>= SlotArray.detach = a.detach := by
    rw [ha]
    rfl
  rw [hd] at hd'
  rw [sorting_of_ok hd', hfront.1, ← hcount, Detached.sort_front]
  cases arrange stable (compare (s.setObject r (.array { shape := a.shape }))) a.allItems.length
    (⟨a.allItems.toArray, rfl⟩, memory) with
  | ok u p => simp only [SlotArray.attach, SlotArray.refronted, hcount]
  | error e p => simp only [SlotArray.attach, SlotArray.refronted, hcount]

section

variable (ha : s.array r = .ok a) {b : SlotArray Ref} {x : Ref}
include ha

/-- Putting an array in the place of an array makes no difference to what is a string. -/
theorem get?_setArray_eq_string {text : String} :
    (s.setObject r (.array b)).heap.get? x = some (.string text) ↔
      s.heap.get? x = some (.string text) := by
  have hobj := array_eq_ok.mp ha
  rw [get?_setObject hobj]
  split
  · next hx =>
    subst hx
    rw [hobj]
    constructor
    · rintro ⟨⟩
    · rintro ⟨⟩
  · rfl

theorem Unordered.of_setArray {e : Fault} (h : (s.setObject r (.array b)).Unordered x e) :
    s.Unordered x e := by
  have hobj := array_eq_ok.mp ha
  have hget := get?_setObject hobj (.array b) x
  by_cases hx : x = r
  · subst hx
    rw [if_pos rfl] at hget
    rcases h with ⟨o, ho, hkind, rfl⟩ | ⟨hnone, _⟩
    · rw [hget] at ho
      cases ho
      exact Or.inl ⟨.array a, hobj, hkind, rfl⟩
    · rw [hget] at hnone
      cases hnone
  · rw [if_neg hx] at hget
    unfold Unordered at h ⊢
    rwa [hget] at h

end

/-- A sort of a dense array by the natural order succeeds if and only if it has fewer than two items
or all of them are strings, which are then in the order of their bytes. Otherwise the fault is true of
one of the items. In any case only the order of the items has changed. -/
theorem naturalSort_of_dense (hs : s.Reachable) (ha : s.array r = .ok a) (hdense : a.Dense)
    (stable : Bool) :
    ((∃ t, sort r stable s = .ok () t) ↔
      a.items < 2 ∨ ∀ x ∈ a.allItems, ∃ text, s.heap.get? x = some (.string text)) ∧
    (∀ t, sort r stable s = .ok () t → ∃ b, t = s.setObject r (.array b) ∧ a.Reordered b ∧
      b.allItems.Perm a.allItems ∧
      b.allItems.Pairwise fun x y => ∃ j k, s.heap.get? x = some (.string j) ∧
        s.heap.get? y = some (.string k) ∧ (Text.byteOrder j k).isLE = true) ∧
    (∀ e t, sort r stable s = .error e t →
      (∃ b, t = s.setObject r (.array b) ∧ a.Reordered b ∧ b.allItems.Perm a.allItems) ∧
      ∃ x ∈ a.allItems,
        (∃ o, s.heap.get? x = some o ∧ o.kind ≠ .string ∧ e = .notComparable o.kind) ∨
          s.heap.get? x = none ∧ e = .heap (.stale x)) := by
  obtain ⟨hpad, hcount, _⟩ := (coherent_of_reachable hs).2 r a ha
  obtain ⟨rest, hfront, hitems⟩ := SlotArray.exists_fronted hpad hcount hdense
  have hleft : ∀ {m : List Ref}, m.Perm a.allItems →
      a.Reordered (a.refronted m rest) ∧ (a.refronted m rest).allItems = m := by
    intro m hm
    have hlast := hcount.items_le_last hpad
    have hsize := hcount.last_le_size hpad
    have hlength := hm.length_eq
    refine ⟨hfront.reordered hitems hm, SlotArray.Fronted.allItems_eq ⟨rfl, hfront.2⟩ ?_⟩
    change m.length ≤ a.size
    omega
  rw [sort_eq, sorting_of_fronted ha (hdense.detach_eq hpad hcount) hfront hitems]
  -- the comparator sees the array empty, and all strings as they are
  have hcases := arrange_natural_cases (s.setObject r (.array { shape := a.shape })) stable a.allItems
  simp only [get?_setArray_eq_string ha, hitems] at hcases
  rcases hcases with ⟨w, hrun, hperm, hgood, hsorted⟩ | ⟨e, w, hrun, hperm, hbad, x, hx, hblame⟩
  · obtain ⟨hreordered, hall⟩ := hleft hperm
    rw [hrun]
    refine ⟨⟨fun _ => hgood, fun _ => ⟨_, rfl⟩⟩, ?_, ?_⟩
    · rintro _ ⟨⟩
      refine ⟨_, rfl, hreordered, ?_, ?_⟩
      · rw [hall]
        exact hperm
      · rw [hall]
        exact hsorted
    · rintro _ _ ⟨⟩
  · obtain ⟨hreordered, hall⟩ := hleft hperm
    rw [hrun]
    refine ⟨⟨?_, fun h => absurd h hbad⟩, ?_, ?_⟩
    · rintro ⟨_, ⟨⟩⟩
    · rintro _ ⟨⟩
    · rintro _ _ ⟨⟩
      refine ⟨⟨_, rfl, hreordered, ?_⟩, x, hx, hblame.of_setArray ha⟩
      rw [hall]
      exact hperm

/-- Two strings are sorted. With the array among its own items there is one that has no place. -/
theorem naturalSort_of_dense_self :
    let r : Ref := ⟨2, 0⟩
    let s := left ((Operation.arrayOfStrings ["b", "a"]).run (.ofLimits {}))
    let t := left ((Operation.append r r).run s)
    s.Reachable ∧ t.Reachable ∧
      (∃ a, s.array r = .ok a ∧ a.Dense ∧ ∃ u, sort r false s = .ok () u) ∧
      ∃ a, t.array r = .ok a ∧ a.Dense ∧ ∃ u, sort r true t = .error (.notComparable .array) u := by
  intro r s t
  have hs : s.Reachable :=
    .run _ (.start _) (fun a h => by cases h) fun r a => Track.capacity_of_roomy (by decide +kernel)
  have ht : t.Reachable :=
    .run _ hs (fun a h => by cases h) fun r a => Track.capacity_of_roomy (by decide +kernel)
  have hdense : ∀ {u : Space} {a : SlotArray Ref}, u.Reachable → u.array r = .ok a →
      a.items = a.last → a.Dense := by
    intro u a hu ha hitems
    obtain ⟨hpad, hcount, _⟩ := (coherent_of_reachable hu).2 r a ha
    exact (SlotArray.dense_iff hpad hcount).mpr hitems
  have hstrings : (s.array r).toOption.any (fun a => decide (a.items = a.last ∧ ∀ x ∈ a.allItems,
      ((s.heap.get? x).bind Object.text?).isSome = true)) = true := by decide +kernel
  have hself : (t.array r).toOption.any (fun a => decide (a.items = a.last ∧ 2 ≤ a.items ∧
      r ∈ a.allItems ∧ ∀ x ∈ a.allItems, (t.heap.get? x).any
        (fun o => o.kind == .string || o.kind == .array) = true)) = true := by decide +kernel
  obtain ⟨a, ha, hcheck⟩ := exists_array_of_any hstrings
  obtain ⟨b, hb, hcheck'⟩ := exists_array_of_any hself
  obtain ⟨hitems, htexts⟩ := of_decide_eq_true hcheck
  obtain ⟨hitems', hmany, hmem, hkinds⟩ := of_decide_eq_true hcheck'
  have hda := hdense hs ha hitems
  have hdb := hdense ht hb hitems'
  refine ⟨hs, ht, ⟨a, ha, hda, (naturalSort_of_dense hs ha hda false).1.mpr (Or.inr fun x hx => ?_)⟩,
    b, hb, hdb, ?_⟩
  · obtain ⟨text, htext⟩ := Option.isSome_iff_exists.mp (htexts x hx)
    obtain ⟨o, ho, hstring⟩ := Option.bind_eq_some_iff.mp htext
    cases o with
    | string y => exact ⟨y, ho⟩
    | array _ => cases hstring
    | relation _ => cases hstring
    | supplier _ => cases hstring
  · obtain ⟨hiff, _, hfail⟩ := naturalSort_of_dense ht hb hdb true
    cases hsort : sort r true t with
    | ok u v =>
      rcases hiff.mp ⟨v, hsort⟩ with hfew | hall
      · omega
      · obtain ⟨text, htext⟩ := hall r hmem
        rw [array_eq_ok.mp hb] at htext
        cases htext
    | error e v =>
      obtain ⟨_, x, hx, ⟨o, ho, hkind, rfl⟩ | ⟨hnone, _⟩⟩ := hfail e v hsort
      · have hknown := hkinds x hx
        rw [ho] at hknown
        cases o with
        | array _ => exact ⟨v, rfl⟩
        | string _ => exact absurd rfl hkind
        | relation _ => cases hknown
        | supplier _ => cases hknown
      · have hknown := hkinds x hx
        rw [hnone] at hknown
        cases hknown

end Space

end Managed
