import Mathlib.Order.Bounds.Basic
import Managed.Proofs.SlotArray.Entries

/-!
# Going from item to item

From any position the next item and the one before it are found: they are the nearest occupied
positions on either side (`nearest_next?`, `nearest_previous?`). The search up ends at the last item,
the search down starts at the end of the array, so both rely on what the array keeps of itself.

Whoever goes on from the first item to the next passes all items in order, and whoever goes back from
the last one passes them in the opposite order (`navigation_enumerates_items`).
-/

namespace Managed.SlotArray

variable {α : Type} {a : SlotArray α} {before : Nat → Nat → Prop} {P : Nat → Prop}

/-! ## The nearest of several numbers -/

/-- The number that no other with the property `P` comes before, if any number has it. -/
def Nearest (before : Nat → Nat → Prop) (P : Nat → Prop) : Option Nat → Prop
  | none => ∀ k, ¬P k
  | some q => P q ∧ ∀ k, P k → ¬before k q

theorem Nearest.congr {Q : Nat → Prop} {o : Option Nat} (h : Nearest before P o)
    (hPQ : ∀ k, P k ↔ Q k) : Nearest before Q o := by
  obtain rfl : P = Q := funext fun k => propext (hPQ k)
  exact h

theorem Nearest.eq_none_iff {o : Option Nat} (h : Nearest before P o) : o = none ↔ ∀ k, ¬P k := by
  cases o with
  | none => exact ⟨fun _ => h, fun _ => rfl⟩
  | some q =>
    constructor
    · intro hnone
      cases hnone
    · intro hempty
      exact absurd h.1 (hempty q)

theorem Nearest.eq_some_iff {o : Option Nat} (h : Nearest before P o)
    (htotal : ∀ p q, ¬before p q → ¬before q p → p = q) (q : Nat) :
    o = some q ↔ P q ∧ ∀ k, P k → ¬before k q := by
  constructor
  · rintro rfl
    exact h
  · rintro ⟨hq, hfirst⟩
    cases o with
    | none => exact absurd hq (h q)
    | some p => rw [htotal p q (hfirst p h.1) (h.2 q hq)]

theorem Nearest.eq_some_iff_isLeast {o : Option Nat} (h : Nearest (· < ·) P o) (q : Nat) :
    o = some q ↔ IsLeast {k | P k} q := by
  rw [h.eq_some_iff fun p q hpq hqp => by omega]
  exact and_congr_right fun _ => forall₂_congr fun _ _ => Nat.not_lt

theorem Nearest.eq_some_iff_isGreatest {o : Option Nat} (h : Nearest (· > ·) P o) (q : Nat) :
    o = some q ↔ IsGreatest {k | P k} q := by
  rw [h.eq_some_iff fun p q hpq hqp => by omega]
  exact and_congr_right fun _ => forall₂_congr fun _ _ => Nat.not_lt

/-! ## Walks -/

/-- Going on by `step`, from `start` until there is nothing to go on to, passes the listed numbers one
after the other. -/
inductive Visits (step : Nat → Option Nat) : (start : Option Nat) → List Nat → Prop where
  | done : Visits step none []
  | visit {p : Nat} {rest : List Nat} : Visits step (step p) rest → Visits step (some p) (p :: rest)

/-- If each step leads to the nearest number with a property, all numbers that have it are passed. -/
theorem visits_of_nearest [IsTrans Nat before] [Std.Irrefl before] {step : Nat → Option Nat}
    (hstep : ∀ p, Nearest before (fun k => before p k ∧ P k) (step p)) {p : Nat} {numbers : List Nat}
    (hsorted : numbers.Pairwise before) (hmem : ∀ k, k ∈ numbers ↔ before p k ∧ P k) :
    Visits step (step p) numbers := by
  induction numbers generalizing p with
  | nil =>
    rw [(hstep p).eq_none_iff.mpr fun k hk => List.not_mem_nil ((hmem k).mpr hk)]
    exact .done
  | cons q rest ih =>
    obtain ⟨hfirst, hrest⟩ := List.pairwise_cons.mp hsorted
    obtain ⟨hpq, hq⟩ := (hmem q).mp List.mem_cons_self
    have hnext : step p = some q := by
      have hnearest := hstep p
      cases hp : step p with
      | none =>
        rw [hp] at hnearest
        exact absurd ⟨hpq, hq⟩ (hnearest q)
      | some k =>
        rw [hp] at hnearest
        rcases List.mem_cons.mp ((hmem k).mpr hnearest.1) with rfl | hk
        · rfl
        · exact absurd (hfirst k hk) (hnearest.2 q ⟨hpq, hq⟩)
    rw [hnext]
    refine .visit (ih hrest fun k => ?_)
    constructor
    · intro hk
      exact ⟨hfirst k hk, ((hmem k).mp (List.mem_cons_of_mem q hk)).2⟩
    · rintro ⟨hqk, hk⟩
      rcases List.mem_cons.mp ((hmem k).mpr ⟨IsTrans.trans _ _ _ hpq hqk, hk⟩) with rfl | hk
      · exact absurd hqk (Std.Irrefl.irrefl k)
      · exact hk

/-! ## Searching a block -/

theorem nearest_firstOccupied (block : Array (Option α)) (stop p : Nat) :
    Nearest (· < ·) (fun k => p ≤ k ∧ k ≤ stop ∧ occupied block k = true)
      (firstOccupied block stop p) := by
  fun_induction firstOccupied block stop p with
  | case1 p hle hheld => exact ⟨⟨Nat.le_refl p, hle, hheld⟩, fun k hk => Nat.not_lt.mpr hk.1⟩
  | case2 p hle hhole ih =>
    refine ih.congr fun k => and_congr_left fun ⟨_, hk⟩ => ?_
    have hne : k ≠ p := by
      rintro rfl
      exact hhole hk
    omega
  | case3 p hlt => exact fun k hk => hlt (Nat.le_trans hk.1 hk.2.1)

theorem nearest_lastOccupied (block : Array (Option α)) (n : Nat) :
    Nearest (· > ·) (fun k => 1 ≤ k ∧ k ≤ n ∧ occupied block k = true) (lastOccupied block n) := by
  fun_induction lastOccupied block n with
  | case1 => exact fun k hk => by omega
  | case2 p hheld => exact ⟨⟨by omega, Nat.le_refl _, hheld⟩, fun k hk => Nat.not_lt.mpr hk.2.1⟩
  | case3 p hhole ih =>
    refine ih.congr fun k => and_congr_right fun _ => and_congr_left fun hk => ?_
    have hne : k ≠ p + 1 := by
      rintro rfl
      exact hhole hk
    omega

/-! ## Items -/

theorem isSome_get?_iff (ha : a.Padded) {p : Nat} :
    (a.get? p).isSome = true ↔ 1 ≤ p ∧ occupied a.storage p = true := by
  constructor
  · intro h
    obtain ⟨x, hx⟩ := Option.isSome_iff_exists.mp h
    obtain ⟨hpos, _, hslot⟩ := get?_eq_some.mp hx
    exact ⟨hpos, Option.isSome_iff_exists.mpr ⟨x, hslot⟩⟩
  · rintro ⟨hpos, hheld⟩
    have hlt := ha.lt_size hheld
    rw [get?_eq a hpos (by omega)]
    exact hheld

theorem Counted.le_last (hc : a.Counted) {p : Nat} (h : occupied a.storage p = true) :
    p ≤ a.last := by
  have hlt := hc.lt_last (p - 1) h
  omega

theorem nearest_next? (ha : a.Padded) (hc : a.Counted) (p : Nat) :
    Nearest (· < ·) (fun k => p < k ∧ (a.get? k).isSome = true) (a.next? p) := by
  refine (nearest_firstOccupied a.storage a.last (p + 1)).congr fun k => and_congr_right fun hk => ?_
  rw [isSome_get?_iff ha]
  exact ⟨fun h => ⟨by omega, h.2⟩, fun h => ⟨hc.le_last h.2, h.2⟩⟩

theorem nearest_previous? (ha : a.Padded) (p : Nat) :
    Nearest (· > ·) (fun k => p > k ∧ (a.get? k).isSome = true) (a.previous? p) := by
  refine (nearest_lastOccupied a.storage (min p (a.size + 1) - 1)).congr fun k => ?_
  rw [isSome_get?_iff ha]
  constructor
  · rintro ⟨hpos, hle, hheld⟩
    exact ⟨by omega, hpos, hheld⟩
  · rintro ⟨hlt, hpos, hheld⟩
    have hin := ha.lt_size hheld
    exact ⟨hpos, by omega, hheld⟩

/-- The last item is the one before the end of the array. -/
theorem last?_eq_previous? (ha : a.Padded) (hc : a.Counted) : a.last? = a.previous? (a.size + 1) := by
  have hnearest := nearest_previous? ha (a.size + 1)
  unfold last?
  split
  · next hzero =>
    refine (hnearest.eq_none_iff.mpr fun k hk => ?_).symm
    obtain ⟨hpos, hheld⟩ := (isSome_get?_iff ha).mp hk.2
    have hle := hc.le_last hheld
    omega
  · next hne =>
    have hheld := hc.last_held hne
    have hlt := ha.lt_size hheld
    symm
    rw [hnearest.eq_some_iff_isGreatest]
    refine ⟨⟨by omega, (isSome_get?_iff ha).mpr ⟨by omega, hheld⟩⟩, fun k hk => ?_⟩
    exact hc.le_last ((isSome_get?_iff ha).mp hk.2).2

/-- Its items can be gone through in both directions, from one to the next and from any position. -/
structure Navigable (a : SlotArray α) : Prop where
  next?_eq_some : ∀ p q, a.next? p = some q ↔ IsLeast {k | p < k ∧ (a.get? k).isSome = true} q
  next?_eq_none : ∀ p, a.next? p = none ↔ ∀ k, p < k → a.get? k = none
  previous?_eq_some : ∀ p q,
    a.previous? p = some q ↔ IsGreatest {k | k < p ∧ (a.get? k).isSome = true} q
  previous?_eq_none : ∀ p, a.previous? p = none ↔ ∀ k, k < p → a.get? k = none
  /-- The positions of all items, in ascending order. -/
  mem_allIndexes : ∀ p, p ∈ a.allIndexes ↔ (a.get? p).isSome = true
  ascending : a.allIndexes.Pairwise (· < ·)
  forwards : Visits a.next? a.first? a.allIndexes
  backwards : Visits a.previous? a.last? a.allIndexes.reverse

theorem no_item_iff {Q : Nat → Prop} :
    (∀ k, ¬(Q k ∧ (a.get? k).isSome = true)) ↔ ∀ k, Q k → a.get? k = none := by
  refine forall_congr' fun k => not_and.trans (imp_congr_right fun _ => ?_)
  rw [Bool.not_eq_true, Option.isSome_eq_false_iff, Option.isNone_iff_eq_none]

theorem visits_next? (ha : a.Padded) (hc : a.Counted) : Visits a.next? a.first? a.allIndexes := by
  refine visits_of_nearest (nearest_next? ha hc) (pairwise_allIndexes a) fun k => ?_
  rw [mem_allIndexes, iff_and_self]
  intro hk
  exact ((isSome_get?_iff ha).mp hk).1

theorem visits_previous? (ha : a.Padded) (hc : a.Counted) :
    Visits a.previous? a.last? a.allIndexes.reverse := by
  rw [last?_eq_previous? ha hc]
  refine visits_of_nearest (nearest_previous? ha)
    (List.pairwise_reverse.mpr (pairwise_allIndexes a)) fun k => ?_
  rw [List.mem_reverse, mem_allIndexes, iff_and_self]
  intro hk
  have hlt := ha.lt_size ((isSome_get?_iff ha).mp hk).2
  omega

/-- The next item and the one before are the nearest ones from every position, and to go from one to
the next passes all of them in order. It is so for every array whose parts agree, whatever has
happened to it. -/
theorem navigation_enumerates_items {allowed : ArrayLimits → Prop}
    (hallowed : ∀ limits, allowed limits → limits.maxElements < Word.max)
    (ha : a.Coherent ∨ Built allowed a) : a.Navigable := by
  have hcoherent : a.Coherent := by
    rcases ha with ha | hbuilt
    · exact ha
    · have hmax : Word.max - 1 < Word.max := by decide
      have hvalid : a.Valid (Word.max - 1) :=
        valid_of_built hmax (fun limits hl => Nat.le_sub_one_of_lt (hallowed limits hl)) hbuilt
      exact hvalid.coherent
  obtain ⟨hpad, hcount, _⟩ := hcoherent
  exact {
    next?_eq_some := fun p => (nearest_next? hpad hcount p).eq_some_iff_isLeast
    next?_eq_none := fun p => (nearest_next? hpad hcount p).eq_none_iff.trans no_item_iff
    previous?_eq_some := fun p => (nearest_previous? hpad p).eq_some_iff_isGreatest
    previous?_eq_none := fun p => (nearest_previous? hpad p).eq_none_iff.trans no_item_iff
    mem_allIndexes := fun _ => mem_allIndexes
    ascending := pairwise_allIndexes a
    forwards := visits_next? hpad hcount
    backwards := visits_previous? hpad hcount }

/-- An array with holes, after a shrink, an insertion and a deletion. -/
theorem navigation_enumerates_items_holes :
    let limits : ArrayLimits := { maxElements := 9 }
    let grown : SlotArray Nat := Change.applyTo {} (.extend 6 limits)
    let filled : SlotArray Nat := Change.applyTo (Change.applyTo (Change.applyTo grown
      (.put 2 (some 5))) (.put 4 (some 7))) (.put 6 (some 8))
    let inserted : SlotArray Nat := Change.applyTo (Change.applyTo filled (.shrink 1))
      (.insert (some 9) .first limits)
    let a : SlotArray Nat := Change.applyTo inserted (.delete 2)
    (∀ l, l = limits → l.maxElements < Word.max) ∧ Built (· = limits) a ∧
      IsLeast {k | 2 < k ∧ (a.get? k).isSome = true} 4 ∧ (∀ k, 4 < k → a.get? k = none) ∧
      IsGreatest {k | k < 100 ∧ (a.get? k).isSome = true} 4 ∧
      Visits a.next? (some 1) [1, 2, 4] ∧ Visits a.previous? (some 4) [4, 2, 1] := by
  intro limits grown filled inserted a
  have hallowed : ∀ l, l = limits → l.maxElements < Word.max := by
    rintro _ rfl
    decide
  have hlimits : ∀ l ∈ some limits, l = limits := by
    rintro _ ⟨⟩
    rfl
  have hfree : ∀ l ∈ (none : Option ArrayLimits), l = limits := by
    rintro _ ⟨⟩
  have hgrown : Built (· = limits) grown := .change _ .empty trivial hlimits
  have hfilled : Built (· = limits) filled := by
    refine .change _ (.change _ (.change _ hgrown ?_ hfree) ?_ hfree) ?_ hfree
    · exact ⟨by decide, by decide +kernel⟩
    · exact ⟨by decide, by decide +kernel⟩
    · exact ⟨by decide, by decide +kernel⟩
  have hinserted : Built (· = limits) inserted :=
    .change _ (.change _ hfilled trivial hfree) trivial hlimits
  have hbuilt : Built (· = limits) a := .change _ hinserted trivial hfree
  have hnav := navigation_enumerates_items hallowed (.inr hbuilt)
  have hindexes : a.allIndexes = [1, 2, 4] := by decide +kernel
  have hfirst : a.first? = some 1 := by decide +kernel
  have hlast : a.last? = some 4 := by decide +kernel
  have hforwards := hnav.forwards
  have hbackwards := hnav.backwards
  rw [hindexes, hfirst] at hforwards
  rw [hindexes, hlast] at hbackwards
  refine ⟨hallowed, hbuilt, (hnav.next?_eq_some 2 4).mp ?_, (hnav.next?_eq_none 4).mp ?_,
    (hnav.previous?_eq_some 100 4).mp ?_, hforwards, hbackwards⟩
  · decide +kernel
  · decide +kernel
  · decide +kernel

end Managed.SlotArray
