import Managed.Proofs.LineSort.Loading
import Managed.Proofs.Sorting.Ordered

/-!
# Sorted lines

Sorting the lines of a text succeeds if and only if there is room for them, and what it gives is the
same text within all limits: when garbage is collected makes no difference (`sortLines_sorted`). The
items of the array are handles, but they are sorted as the lines that they stand for would be.
-/

namespace Managed.LineSort

open Space Sorting

/-! ## The order of lines -/

/-- Whether a line may stand in front of another one. -/
def Options.inOrder (o : Options) (a b : String) : Bool :=
  (o.order.compare? a b).any fun verdict => if o.has .reverse then verdict.isGE else verdict.isLE

/-- Whether two lines compare equal. -/
def Options.tied (o : Options) (a b : String) : Bool :=
  o.order.compare? a b == some .eq

/-- What sorting lines comes to: they are all there, in order, and in a stable sort those that compare
equal are in the order in which they were. -/
structure Sorted (o : Options) (lines sorted : List String) : Prop where
  perm : sorted.Perm lines
  inOrder : sorted.Pairwise fun a b => o.inOrder a b = true
  stable : o.has .stable = true → ∀ x, sorted.filter (o.tied x) = lines.filter (o.tied x)

/-- What is compared of a line. -/
def LineOrder.key : LineOrder → String → String
  | caseless => Text.lowercase
  | _ => id

theorem compare?_eq_some {order : LineOrder} (hnum : order ≠ .numeric) (a b : String) :
    order.compare? a b = some (Text.byteOrder (order.key a) (order.key b)) := by
  cases order with
  | natural => rfl
  | caseless => rfl
  | numeric => exact absurd rfl hnum

/-- The order in which lines are sorted. -/
def sortOrder (order : LineOrder) (reverse : Bool) (a b : String) : Ordering :=
  let verdict := Text.byteOrder (order.key a) (order.key b)
  if reverse then verdict.swap else verdict

instance (order : LineOrder) (reverse : Bool) : Std.TransCmp (sortOrder order reverse) := by
  have hkey : Std.TransCmp fun a b => Text.byteOrder (order.key a) (order.key b) :=
    inferInstanceAs (Std.TransCmp (compareOn fun a => Text.bytes (order.key a)))
  cases reverse with
  | false => exact hkey
  | true =>
    have hswap : sortOrder order true = fun a b => Text.byteOrder (order.key b) (order.key a) :=
      funext₂ fun _ _ => hkey.eq_swap.symm
    rw [hswap]
    exact .opposite

/-- The sort of the lines themselves, which are values, ends with `w`. -/
def SortsTo (stable : Bool) (cmp : String → String → Ordering) (lines : List String)
    (w : Vector String lines.length) : Prop :=
  (if stable then mergeSort (fun a b => pure (cmp a b)) lines.length
    else quickSort (fun a b => pure (cmp a b)) lines.length :
      SortM Fault Unit String lines.length Unit) (⟨lines.toArray, rfl⟩, ()) = .ok () (w, ())

section

variable {o : Options} (ho : o.order ≠ .numeric)
include ho

theorem inOrder_eq (a b : String) :
    o.inOrder a b = (sortOrder o.order (o.has .reverse) a b).isLE := by
  rw [Options.inOrder, compare?_eq_some ho, sortOrder]
  cases o.has .reverse with
  | false => rfl
  | true => exact Ordering.isLE_swap.symm

theorem tied_eq (a b : String) :
    o.tied a b = (sortOrder o.order (o.has .reverse) a b == .eq) := by
  rw [Options.tied, compare?_eq_some ho, sortOrder]
  cases o.has .reverse <;> cases Text.byteOrder (o.order.key a) (o.order.key b) <;> rfl

theorem exists_sorted (lines : List String) : ∃ w,
    SortsTo (o.has .stable) (sortOrder o.order (o.has .reverse)) lines w ∧
      Sorted o lines w.toList := by
  have hc : Decides (fun a b => pure (sortOrder o.order (o.has .reverse) a b) :
      Comparator Fault Unit String) (sortOrder o.order (o.has .reverse)) := decides_pure _
  have hin : ∀ w : List String, Ascending (sortOrder o.order (o.has .reverse)) w →
      w.Pairwise fun a b => o.inOrder a b = true :=
    fun w hw => hw.imp fun hab => (inOrder_eq ho _ _).trans hab
  cases hstable : o.has .stable with
  | false =>
    obtain ⟨_, w, _, hrun, hasc, hperm⟩ := leads_quickSort hc lines.length ⟨lines.toArray, rfl⟩ ()
    refine ⟨w, hrun, hperm, hin _ hasc, fun h => ?_⟩
    rw [hstable] at h
    cases h
  | true =>
    obtain ⟨_, w, _, hrun, hsorted⟩ := leads_mergeSort hc lines.length ⟨lines.toArray, rfl⟩ ()
    refine ⟨w, hrun, hsorted.perm, hin _ hsorted.ascending, fun _ x => ?_⟩
    have htied : o.tied x = fun y => sortOrder o.order (o.has .reverse) x y == .eq :=
      funext (tied_eq ho x)
    rw [htied]
    exact hsorted.ties x

end

/-! ## Comparators of handles -/

/-- A comparator that compares strings as `cmp` compares their texts. -/
def Compares (s : Space) (compare : Comparator Fault Unit Ref) (cmp : String → String → Ordering) :
    Prop :=
  ∀ a b x y, s.heap.get? a = some (.string x) → s.heap.get? b = some (.string y) →
    compare a b () = .ok (cmp x y) ()

theorem compares_natural (s : Space) : Compares s (natural s) (sortOrder .natural false) := by
  intro a b x y ha hb
  have hab : s.compareNatural a b = .ok (Text.byteOrder x y) := by
    rw [compareNatural, get_eq_ok.mpr ha, get_eq_ok.mpr hb]
    rfl
  simp only [natural, hab]
  rfl

theorem stringValue_eq_ok {s : Space} {r : Ref} {text : String}
    (h : s.heap.get? r = some (.string text)) : s.stringValue r = .ok text := by
  rw [stringValue, get_eq_ok.mpr h]
  rfl

/-- A verdict is read as it was written. -/
theorem verdict_orderText (v : Ordering) : verdict (some (.string (orderText v))) = .ok v := by
  cases v <;> decide

theorem compares_answer {order : LineOrder} (hnum : order ≠ .numeric) (reverse : Bool) (s : Space) :
    Compares s (answered (fun s a b memory => (answer order reverse s a b, memory)) s)
      (sortOrder order reverse) := by
  intro a b x y ha hb
  have hab : answer order reverse s a b = some (.string (orderText (sortOrder order reverse x y))) := by
    rw [answer, stringValue_eq_ok ha, stringValue_eq_ok hb]
    simp only [Except.toOption, bind, Option.bind, compare?_eq_some hnum]
    rfl
  simp only [answered, hab, verdict_orderText]

/-! ## Sorting what was loaded -/

section

variable {limits : SpaceLimits} {array : Ref} {refs : List Ref} {lines : List String} {s : Space}

/-- A string is still there when another array stands in the place of the array. -/
theorem Loaded.string_setObject (hs : Loaded limits array refs lines s) (a : SlotArray Ref) {r : Ref}
    {line : String} (hr : s.heap.get? r = some (.string line)) :
    (s.setObject array (.array a)).heap.get? r = some (.string line) := by
  obtain ⟨spare, hpacked⟩ := hs.packed
  rw [get?_setObject hpacked, if_neg, hr]
  rintro rfl
  rw [hpacked] at hr
  cases hr

/-- The array is sorted as the lines are. -/
theorem sorting_loaded (hs : Loaded limits array refs lines s)
    {compare : Space → Comparator Fault Unit Ref} {cmp : String → String → Ordering}
    (hc : ∀ t, Compares t (compare t) cmp) (stable : Bool) {w : Vector String lines.length}
    (hrun : SortsTo stable cmp lines w) :
    ∃ m spare, sorting array stable compare () s =
        .ok () (s.setObject array (.array (.packed m spare))) ∧
      List.Forall₂ (fun r line => (s.setObject array (.array (.packed m spare))).heap.get? r =
        some (.string line)) m w.toList := by
  obtain ⟨spare, hpacked⟩ := hs.packed
  have hdetach : s.array array >>= SlotArray.detach = .ok (.packed refs spare, {}) := by
    rw [array_eq_ok.mpr hpacked]
    exact SlotArray.detach_packed
  -- the relation between handles and lines in the space that the comparator sees
  let emptied := s.setObject array (.array {})
  let item := fun r line => emptied.heap.get? r = some (.string line)
  have hlike : (⟨Eq, Eq⟩ : Likeness Fault Fault Unit Unit).Comparators item (compare emptied)
      (fun a b => pure (cmp a b)) := by
    rintro a b x y ha hb _ _ rfl
    rw [hc emptied a b x y ha hb]
    exact ⟨rfl, rfl⟩
  have hitems : List.Forall₂ item refs (⟨lines.toArray, rfl⟩ : Vector String lines.length).toList :=
    hs.strings.imp fun r line hr => hs.string_setObject {} hr
  obtain ⟨m, _, hsort, hm, _⟩ := Detached.sort_packed hlike stable spare hitems rfl hrun
  refine ⟨m, spare, ?_, hm.imp fun r line hr => ?_⟩
  · rw [sorting_of_ok hdetach, hsort]
    rfl
  · refine hs.string_setObject _ ?_
    change emptied.heap.get? r = _ at hr
    rw [get?_setObject hpacked] at hr
    split at hr
    · cases hr
    · exact hr

/-- Whichever sort the options ask for. -/
theorem sort_loaded {o : Options} (ho : o.order ≠ .numeric) (hs : Loaded limits array refs lines s)
    {w : Vector String lines.length}
    (hrun : SortsTo (o.has .stable) (sortOrder o.order (o.has .reverse)) lines w) :
    ∃ m spare, (if o.order = .natural ∧ !o.has .reverse then Space.sort array (o.has .stable)
        else Space.sortByAnswer array (o.has .stable) (answer o.order (o.has .reverse))) s =
          .ok () (s.setObject array (.array (.packed m spare))) ∧
      List.Forall₂ (fun r line => (s.setObject array (.array (.packed m spare))).heap.get? r =
        some (.string line)) m w.toList := by
  split
  · next h =>
    rw [h.1, (Bool.not_eq_true' _).mp h.2] at hrun
    rw [sort_eq]
    exact sorting_loaded hs compares_natural _ hrun
  · rw [sortByAnswer_eq]
    exact sorting_loaded hs (compares_answer ho _) _ hrun

end

/-! ## Rendering -/

theorem mapM_stringValue {s : Space} {refs : List Ref} {lines : List String}
    (h : List.Forall₂ (fun r line => s.heap.get? r = some (.string line)) refs lines) :
    refs.mapM s.stringValue = .ok lines := by
  induction h with
  | nil => rfl
  | cons hr _ ih =>
    rw [List.mapM_cons, stringValue_eq_ok hr, ih]
    rfl

/-- What stands between the lines of the output. -/
def Options.between (o : Options) : String :=
  o.separator.getD (if o.has .char then "" else "\n")

theorem render_packed {s : Space} {array : Ref} {refs : List Ref} {spare : Nat} {lines : List String}
    (harray : s.heap.get? array = some (.array (.packed refs spare)))
    (h : List.Forall₂ (fun r line => s.heap.get? r = some (.string line)) refs lines) (o : Options) :
    s.render array (some (if o.has .char then "C" else "L")) o.separator =
      .ok (String.intercalate o.between lines) := by
  have hitems : (SlotArray.packed refs spare).allItems.mapM s.stringValue = .ok lines := by
    rw [SlotArray.allItems_packed, mapM_stringValue h]
  rw [render, array_eq_ok.mpr harray, Options.between]
  cases o.has .char <;> simp only [bind, Except.bind, hitems] <;> rfl

/-! ## Sorting lines -/

section

variable {o : Options} {text : String} {limits : SpaceLimits}

/-- What is sorted and rendered is the lines, as soon as they are loaded. -/
theorem sortLines_of_loaded (ho : o.order ≠ .numeric) {w : Vector String (Text.lines text).length}
    (hrun : SortsTo (o.has .stable) (sortOrder o.order (o.has .reverse)) (Text.lines text) w)
    {array : Ref} {refs : List Ref} {s : Space}
    (hload : loadLines (Text.lines text) (.ofLimits limits) = .ok array s)
    (hs : Loaded limits array refs (Text.lines text) s) :
    ∃ t, sortLines o text (.ofLimits limits) = .ok (String.intercalate o.between w.toList) t := by
  obtain ⟨m, spare, hsort, hm⟩ := sort_loaded ho hs hrun
  obtain ⟨_, hpacked⟩ := hs.packed
  have harray : (s.setObject array (.array (.packed m spare))).heap.get? array =
      some (.array (.packed m spare)) := by
    rw [get?_setObject hpacked, if_pos rfl]
  have hrender : ask (·.render array (some (if o.has .char then "C" else "L")) o.separator)
      (s.setObject array (.array (.packed m spare))) =
        .ok (String.intercalate o.between w.toList) (s.setObject array (.array (.packed m spare))) := by
    rw [ask, render_packed harray hm]
  have hunroot : ∀ t : Space, ∃ b t', unroot array t = .ok b t' := by
    intro t
    unfold unroot
    split
    · exact ⟨_, _, rfl⟩
    · exact ⟨_, _, rfl⟩
  obtain ⟨b, t, hunroot⟩ := hunroot (s.setObject array (.array (.packed m spare)))
  have hfinish : (do
      let text ← ask (·.render array (some (if o.has .char then "C" else "L")) o.separator)
      let _ ← unroot array
      return text : SpaceM String) (s.setObject array (.array (.packed m spare))) =
        .ok (String.intercalate o.between w.toList) t := by
    rw [bind_of_ok hrender, bind_of_ok hunroot]
    rfl
  refine ⟨t, ?_⟩
  rw [sortLines, bind_of_ok hload]
  split at hsort
  · next hnatural =>
    rw [if_pos hnatural, bind_of_ok hsort]
    exact hfinish
  · next hanswer =>
    rw [if_neg hanswer, bind_of_ok hsort]
    exact hfinish

theorem sortLines_ok (ho : o.order ≠ .numeric) {w : Vector String (Text.lines text).length}
    (hrun : SortsTo (o.has .stable) (sortOrder o.order (o.has .reverse)) (Text.lines text) w)
    (hslots : (Text.lines text).length < Heap.maxSlots)
    (hobjects : (Text.lines text).length + 1 ≤ limits.heap.maxObjects)
    (helements : (Text.lines text).length ≤ limits.arrays.maxElements) :
    ∃ s, sortLines o text (.ofLimits limits) = .ok (String.intercalate o.between w.toList) s := by
  obtain ⟨array, refs, s, hload, hs⟩ := loadLines_ok hslots hobjects helements
  exact sortLines_of_loaded ho hrun hload hs

/-- What a sort gives if it ends well, without a look at the room there is. -/
theorem sortLines_eq_ok (ho : o.order ≠ .numeric) {output : String} {s : Space}
    (hok : sortLines o text (.ofLimits limits) = .ok output s) :
    ∃ sorted, Sorted o (Text.lines text) sorted ∧ output = String.intercalate o.between sorted := by
  obtain ⟨w, hrun, hsorted⟩ := exists_sorted ho (Text.lines text)
  obtain ⟨array, t, hload, _⟩ := bind_eq_ok_state hok
  obtain ⟨refs, ht⟩ := loadLines_loaded hload
  obtain ⟨u, hu⟩ := sortLines_of_loaded ho hrun hload ht
  rw [hu] at hok
  exact ⟨w.toList, hsorted, (EStateM.Result.ok.inj hok).1.symm⟩

theorem sortLines_error (hslots : (Text.lines text).length < Heap.maxSlots)
    (hfull : ¬ ((Text.lines text).length + 1 ≤ limits.heap.maxObjects ∧
      (Text.lines text).length ≤ limits.arrays.maxElements)) :
    ∃ e s, sortLines o text (.ofLimits limits) = .error e s := by
  obtain ⟨e, s, hload⟩ := loadLines_error hslots hfull
  exact ⟨e, s, by rw [sortLines, bind_of_error hload]⟩

end

/-- A text has one sorted form, which depends on the options only. Sorting gives it if there is room for
the array and the lines among the objects, and for the lines in the array, and fails otherwise. Neither
the size of the nursery nor the time of a collection plays a part. -/
theorem sortLines_sorted {o : Options} (ho : o.order ≠ .numeric) {text : String}
    (hn : (Text.lines text).length < 2 ^ 32 - 1) :
    ∃ sorted, Sorted o (Text.lines text) sorted ∧ ∀ limits : SpaceLimits,
      ((∃ output s, sortLines o text (.ofLimits limits) = .ok output s) ↔
        (Text.lines text).length + 1 ≤ limits.heap.maxObjects ∧
          (Text.lines text).length ≤ limits.arrays.maxElements) ∧
      ∀ output s, sortLines o text (.ofLimits limits) = .ok output s →
        output = String.intercalate o.between sorted := by
  have hslots : (Text.lines text).length < Heap.maxSlots := Nat.lt_of_lt_of_le hn (Nat.sub_le _ _)
  obtain ⟨w, hrun, hsorted⟩ := exists_sorted ho (Text.lines text)
  refine ⟨w.toList, hsorted, fun limits => ?_⟩
  by_cases hroom : (Text.lines text).length + 1 ≤ limits.heap.maxObjects ∧
      (Text.lines text).length ≤ limits.arrays.maxElements
  · obtain ⟨t, hok⟩ := sortLines_ok ho hrun hslots hroom.1 hroom.2
    refine ⟨⟨fun _ => hroom, fun _ => ⟨_, t, hok⟩⟩, fun output s h => ?_⟩
    rw [hok] at h
    exact (EStateM.Result.ok.inj h).1.symm
  · obtain ⟨e, t, herror⟩ := sortLines_error (o := o) hslots hroom
    have hfails : ∀ output s, sortLines o text (.ofLimits limits) ≠ .ok output s := by
      intro output s h
      rw [herror] at h
      cases h
    refine ⟨⟨fun h => ?_, fun h => absurd h hroom⟩, fun output s h => absurd h (hfails output s)⟩
    obtain ⟨output, s, h⟩ := h
    exact absurd h (hfails output s)

/-- Four lines need room for five objects. That there is a collection after each line is no hindrance. -/
theorem sortLines_sorted_caseless :
    let o : Options := { flags := [.stable, .reverse, .caseless] }
    let roomFor (objects : Nat) : Space :=
      .ofLimits { heap := { maxObjects := objects, nurseryBudget := 1 }, arrays := { maxElements := 4 } }
    o.order ≠ .numeric ∧ (Text.lines "b\na\nB\nA\n").length < 2 ^ 32 - 1 ∧
      (∃ output s, sortLines o "b\na\nB\nA\n" (roomFor 5) = .ok output s) ∧
      ¬ ∃ output s, sortLines o "b\na\nB\nA\n" (roomFor 4) = .ok output s := by
  intro o roomFor
  have ho : o.order ≠ .numeric := by decide
  have hlength : (Text.lines "b\na\nB\nA\n").length = 4 := by decide
  have hn : (Text.lines "b\na\nB\nA\n").length < 2 ^ 32 - 1 := by
    rw [hlength]
    decide
  obtain ⟨_, _, hsort⟩ := sortLines_sorted ho hn
  rw [hlength] at hsort
  exact ⟨ho, hn, (hsort _).1.mpr (by decide), fun h => absurd ((hsort _).1.mp h) (by decide)⟩

end Managed.LineSort
