import Mathlib.Algebra.Order.BigOperators.GroupWithZero.List
import Mathlib.Algebra.Order.Ring.Nat
import Managed.Proofs.SlotArray.Covering

/-!
# The limit on elements

An operation that makes an array of a certain number of slots first checks the number against the
limit on elements. Numbers of slots are words: a product or sum that is none is taken for the largest
word (`count?_getD`). So it is refused by every limit but the largest word itself, which is the one
case in which an array comes out smaller than it should be (`element_limit_exact_iff`,
`overflow_passes_largest_limit`). Two arrays that are joined are measured once more when their slots
are together, so for them the limit is exact.
-/

namespace Managed

/-! ## Saturated products -/

/-- A product of positive numbers is found if it is a word: it is not less than any product on the
way. -/
theorem Shape.foldlM_mul?_of_pos {sizes : List Nat} (hpos : ∀ n ∈ sizes, 1 ≤ n) {acc : Nat}
    (hacc : acc < Word.card) :
    sizes.foldlM Word.mul? acc =
      if acc * sizes.prod < Word.card then some (acc * sizes.prod) else none := by
  induction sizes generalizing acc with
  | nil =>
    rw [List.prod_nil, Nat.mul_one, if_pos hacc]
    rfl
  | cons size rest ih =>
    rw [List.forall_mem_cons] at hpos
    rw [List.foldlM_cons, List.prod_cons, ← Nat.mul_assoc, Word.mul?]
    by_cases hword : acc * size < Word.card
    · rw [if_pos hword]
      exact ih hpos.2 hword
    · have hle : acc * size ≤ acc * size * rest.prod :=
        Nat.le_mul_of_pos_right _ (List.prod_pos hpos.2)
      rw [if_neg hword, if_neg (by omega)]
      rfl

theorem Shape.count?_getD {sizes : List Nat} (hpos : ∀ n ∈ sizes, 1 ≤ n) :
    (⟨sizes⟩ : Shape).count?.getD Word.max = min sizes.prod Word.max := by
  have hcard : Word.card = Word.max + 1 := by decide
  have hone : 1 < Word.card := by decide
  rw [count?, foldlM_mul?_of_pos hpos hone, Nat.one_mul]
  split
  · rw [Option.getD_some]
    omega
  · rw [Option.getD_none]
    omega

namespace SlotArray

variable {α : Type} {limits : ArrayLimits}

/-! ## Measured arrays -/

/-- An operation that makes an array of `n` slots keeps to the limit: it is refused if the limit is
less than `n` and makes an array of `n` slots otherwise. -/
structure Measured (limits : ArrayLimits) (n : Nat) (result : Except Fault (SlotArray α)) : Prop where
  refused_iff : (∃ requested, result = .error (.capacityExceeded requested limits.maxElements)) ↔
    limits.maxElements < n
  granted : n ≤ limits.maxElements → ∃ b, result = .ok b ∧ b.size = n

theorem measured_check {n : Nat} {b : SlotArray α} (hb : b.size = n) :
    Measured limits n (limits.check n >>= fun _ => .ok b) := by
  by_cases hlt : limits.maxElements < n
  · rw [ArrayLimits.check, if_pos hlt]
    exact ⟨⟨fun _ => hlt, fun _ => ⟨n, rfl⟩⟩, fun hle => by omega⟩
  · rw [ArrayLimits.check, if_neg hlt]
    refine ⟨⟨?_, fun h => absurd h hlt⟩, fun _ => ⟨b, rfl, hb⟩⟩
    rintro ⟨requested, h⟩
    cases h

/-- A number that is taken for the largest word is measured right unless this is the limit. -/
theorem Measured.saturated_iff {n : Nat} {result : Except Fault (SlotArray α)}
    (h : Measured limits (min n Word.max) result) (hmax : limits.maxElements ≤ Word.max) :
    Measured limits n result ↔ limits.maxElements < Word.max ∨ n ≤ Word.max := by
  constructor
  · intro hn
    by_contra hover
    have hrefused := h.refused_iff.mp (hn.refused_iff.mpr (by omega))
    omega
  · intro hcase
    refine ⟨h.refused_iff.trans ?_, fun hle => ?_⟩
    · omega
    · rw [Nat.min_eq_left (by omega : n ≤ Word.max)] at h
      exact h.granted hle

/-! ## Operations -/

theorem measured_ofDimensions {sizes : List Nat} (hrank : 2 ≤ sizes.length)
    (hpos : ∀ n ∈ sizes, 1 ≤ n) :
    Measured limits (min sizes.prod Word.max)
      (ofDimensions sizes limits : Except Fault (SlotArray α)) := by
  rw [← Shape.count?_getD hpos]
  match sizes with
  | size :: size' :: rest => exact measured_check rfl

theorem measured_extend {a : SlotArray α} (hlinear : a.shape = none) (extension : Nat) :
    Measured limits (min (a.size + extension) Word.max) (a.extend extension limits) := by
  have hextend : a.extend extension limits = limits.check (Word.addSat a.size extension) >>= fun _ =>
      .ok { a.withRoom (Word.addSat a.size extension) limits with
        size := Word.addSat a.size extension } := by
    rw [extend_eq, requireLinear, hlinear]
    rfl
  rw [hextend]
  exact measured_check rfl

theorem coverSizes_pos {a : SlotArray α} {subs : List Nat} (hpos : ∀ n ∈ subs, 1 ≤ n) :
    ∀ n ∈ a.coverSizes subs, 1 ≤ n := by
  intro n hn
  rw [coverSizes] at hn
  obtain ⟨i, hi, rfl⟩ := List.mem_iff_getElem.mp hn
  rw [List.getElem_zipWith]
  exact Nat.le_trans (hpos _ (List.getElem_mem _)) (Nat.le_max_right _ _)

theorem measured_cover {a : SlotArray α} {subs : List Nat}
    (hlen : a.growingSizes.length ≤ subs.length) (hpos : ∀ n ∈ subs, 1 ≤ n)
    (hne : a.coverSizes subs ≠ a.growingSizes) :
    Measured limits (min (a.coverSizes subs).prod Word.max) (a.cover subs limits) := by
  rw [← Shape.count?_getD (coverSizes_pos hpos), cover_eq_moveTo, if_neg (Nat.not_lt.mpr hlen),
    if_neg hne]
  exact measured_check rfl

/-- The slots of two arrays are counted when they are together. -/
theorem measured_join {a b : SlotArray α} (ha : a.Padded) (hb : b.Padded) :
    Measured limits (a.size + b.size) (a.join b limits) := by
  by_cases hlt : limits.maxElements < Word.addSat a.size b.size
  · have hjoin : a.join b limits =
        .error (.capacityExceeded (Word.addSat a.size b.size) limits.maxElements) := by
      rw [join, ArrayLimits.check, if_pos hlt]
      rfl
    have hsum : limits.maxElements < a.size + b.size := Nat.lt_of_lt_of_le hlt (Nat.min_le_left _ _)
    exact ⟨⟨fun _ => hsum, fun _ => ⟨_, hjoin⟩⟩, fun hle => absurd hsum (Nat.not_lt.mpr hle)⟩
  · have hsize : (a.slots ++ b.slots).size = a.size + b.size := by
      rw [Array.size_append, ← Array.length_toList, ← Array.length_toList, length_slots ha,
        length_slots hb]
    have hjoin : a.join b limits = ofSlots (a.slots ++ b.slots) limits := by
      rw [join, ArrayLimits.check, if_neg hlt]
      rfl
    rw [hjoin, ← hsize]
    exact measured_check rfl

/-- The limit on elements is exact, for any number of slots that an array is made or grown to, unless
the number is no word and the limit is the largest word. An array that is refused more slots stays as
it is. -/
theorem element_limit_exact_iff (α : Type) (hmax : limits.maxElements ≤ Word.max) :
    (∀ sizes : List Nat, 2 ≤ sizes.length → (∀ n ∈ sizes, 1 ≤ n) →
      (Measured limits sizes.prod (ofDimensions sizes limits : Except Fault (SlotArray α)) ↔
        limits.maxElements < Word.max ∨ sizes.prod ≤ Word.max)) ∧
    (∀ (a : SlotArray α) (subs : List Nat), a.growingSizes.length ≤ subs.length →
      (∀ n ∈ subs, 1 ≤ n) → a.coverSizes subs ≠ a.growingSizes →
      (Measured limits (a.coverSizes subs).prod (Change.result a (.cover subs limits)) ↔
        limits.maxElements < Word.max ∨ (a.coverSizes subs).prod ≤ Word.max)) ∧
    (∀ (a : SlotArray α) (extension : Nat), a.shape = none →
      (Measured limits (a.size + extension) (Change.result a (.extend extension limits)) ↔
        limits.maxElements < Word.max ∨ a.size + extension ≤ Word.max)) ∧
    (∀ a b : SlotArray α, a.Padded → b.Padded →
      Measured limits (a.size + b.size) (a.join b limits)) ∧
    ∀ (a : SlotArray α) (c : Change α) (e : Fault), c.result a = .error e → c.applyTo a = a := by
  refine ⟨fun sizes hrank hpos => ?_, fun a subs hlen hpos hne => ?_, fun a extension hlinear => ?_,
    fun a b ha hb => measured_join ha hb, fun a c e h => Change.applyTo_of_error h⟩
  · exact (measured_ofDimensions hrank hpos).saturated_iff hmax
  · exact (measured_cover hlen hpos hne).saturated_iff hmax
  · exact (measured_extend hlinear extension).saturated_iff hmax

/-- A limit of six lets two rows of three through and refuses three of them, seven slots in a row and
what is no word. -/
theorem element_limit_exact_iff_six :
    let limits : ArrayLimits := { maxElements := 6 }
    limits.maxElements ≤ Word.max ∧
      (∃ a : SlotArray Ref, ofDimensions [2, 3] limits = .ok a ∧ a.size = 6) ∧
      (∃ requested,
        ({} : SlotArray Ref).cover [3, 3] limits = .error (.capacityExceeded requested 6)) ∧
      (∃ requested, ({} : SlotArray Ref).extend 7 limits = .error (.capacityExceeded requested 6)) ∧
      ∃ requested, (ofDimensions [4294967296, 4294967296] limits : Except Fault (SlotArray Ref)) =
        .error (.capacityExceeded requested 6) := by
  intro limits
  have hmax : limits.maxElements ≤ Word.max := by decide
  have hlt : limits.maxElements < Word.max := by decide
  obtain ⟨hdims, hcover, hextend, _⟩ := element_limit_exact_iff Ref hmax
  refine ⟨hmax, ?_, ?_, ?_, ?_⟩
  · exact ((hdims [2, 3] (by decide) (by decide)).mpr (Or.inl hlt)).granted (by decide)
  · have hmeasured := (hcover {} [3, 3] (by decide) (by decide) (by decide)).mpr (Or.inl hlt)
    exact hmeasured.refused_iff.mpr (by decide)
  · exact ((hextend {} 7 rfl).mpr (Or.inl hlt)).refused_iff.mpr (by decide)
  · have hmeasured := (hdims [4294967296, 4294967296] (by decide) (by decide)).mpr (Or.inl hlt)
    exact hmeasured.refused_iff.mpr (by decide)

/-- A product that is no word passes for the largest word, and that is within the largest limit. -/
theorem overflow_passes_largest_limit :
    ¬Measured { maxElements := Word.max } [4294967296, 4294967296].prod
      (ofDimensions [4294967296, 4294967296] { maxElements := Word.max } :
        Except Fault (SlotArray Ref)) := by
  have hmeasured : Measured { maxElements := Word.max } (min [4294967296, 4294967296].prod Word.max)
      (ofDimensions [4294967296, 4294967296] { maxElements := Word.max } :
        Except Fault (SlotArray Ref)) := measured_ofDimensions (by decide) (by decide)
  rw [hmeasured.saturated_iff (Nat.le_refl _)]
  decide

end SlotArray

end Managed
