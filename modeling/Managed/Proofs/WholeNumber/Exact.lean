import Mathlib.Algebra.Order.Field.Rat
import Mathlib.Tactic.FieldSimp
import Mathlib.Tactic.Positivity
import Managed.Proofs.Text.Numeral
import Managed.WholeNumber

/-!
# The exact value of whole numbers

Numerals denote rational numbers. A text is a whole number just if it is a numeral among white space
whose value is an integer of 63 bits and a sign and whose exponent is an integer of 32 bits (`Denotes`),
and that value is read (`parse?_eq_some_iff`). The value is found without fractions. If the scale is
negative, digits are cut off at the end, and these have to be zeros (`magnitude?_eq_some_iff`).
-/

namespace Managed

namespace Text

/-! ## Values -/

namespace Numeral

/-- The number that a numeral denotes. -/
def value (n : Numeral) : ℚ :=
  signFactor n.negative *
    ((Nat.ofDigits 10 (digitValues n.whole) : Nat) +
      (Nat.ofDigits 10 (digitValues n.fraction) : Nat) / 10 ^ n.fraction.length) * 10 ^ n.exponent

theorem value_eq (n : Numeral) :
    n.value = signFactor n.negative * ((decimal n.digits : ℚ) * 10 ^ n.scale) := by
  rw [value, digits, scale, decimal_append, zpow_sub₀ (by norm_num), zpow_natCast,
    ← decimal_eq_ofDigits, ← decimal_eq_ofDigits]
  push_cast
  field_simp

end Numeral

end Text

theorem natCast_eq_mul_zpow_iff {m d : Nat} {s : Int} :
    (m : ℚ) = d * 10 ^ s ↔ m * 10 ^ (-s).toNat = d * 10 ^ s.toNat := by
  rcases le_total 0 s with hs | hs
  · obtain ⟨k, rfl⟩ := Int.eq_ofNat_of_zero_le hs
    simp only [Int.toNat_neg_natCast, Int.toNat_natCast, zpow_natCast, pow_zero, mul_one]
    exact_mod_cast Iff.rfl
  · obtain ⟨k, hk⟩ := Int.eq_ofNat_of_zero_le (Int.neg_nonneg.mpr hs)
    obtain rfl : s = -k := by omega
    simp only [Int.toNat_neg_natCast, Int.neg_neg, Int.toNat_natCast, zpow_neg, zpow_natCast,
      pow_zero, mul_one, ← div_eq_mul_inv]
    rw [eq_div_iff (by positivity)]
    exact_mod_cast Iff.rfl

namespace WholeNumber

open Text

/-! ## Magnitudes -/

/-- What is left of the digits after the cut is scaled up. It is the magnitude if it is small enough. -/
theorem magnitude?_eq (n : Numeral) :
    magnitude? n =
      if (n.digits.drop (n.digits.length - (-n.scale).toNat)).all (· == '0') then
        let value := decimal (n.digits.take (n.digits.length - (-n.scale).toNat)) * 10 ^ n.scale.toNat
        if value ≤ maxMagnitude then some value else none
      else none := by
  unfold magnitude?
  simp only [List.splitAt_eq]
  generalize n.digits.length - (-n.scale).toNat = cut
  have hany : (n.digits.drop cut).any (· != '0') = !(n.digits.drop cut).all (· == '0') :=
    List.not_all_eq_any_not.symm
  by_cases hzero : (n.digits.drop cut).all (· == '0') = true
  · rw [hany, hzero, Bool.not_true, if_neg Bool.false_ne_true, if_pos rfl]
    by_cases hvalue : decimal (n.digits.take cut) = 0
    · simp [hvalue]
    · rw [if_neg hvalue]
      by_cases hscale : 18 < n.scale
      · -- The value is not zero and ten to the nineteenth exceeds the bound.
        have hpow : 10 ^ 19 ≤ 10 ^ n.scale.toNat := Nat.pow_le_pow_right (by decide) (by omega)
        have hle := Nat.le_mul_of_pos_left (10 ^ n.scale.toNat) (Nat.pos_of_ne_zero hvalue)
        have hmax : maxMagnitude < 10 ^ 19 := by decide
        rw [if_pos hscale, if_neg (by omega)]
      · rw [if_neg hscale]
        rfl
  · rw [hany, Bool.eq_false_iff.mpr hzero, Bool.not_false, if_pos rfl, if_neg Bool.false_ne_true]

/-- The magnitude of a numeral is the number that all its digits denote, scaled. -/
theorem magnitude?_eq_some_iff {n : Numeral} (h : ∀ c ∈ n.digits, c.isDigit = true) {m : Nat} :
    magnitude? n = some m ↔
      m * 10 ^ (-n.scale).toNat = decimal n.digits * 10 ^ n.scale.toNat ∧ m ≤ maxMagnitude := by
  rw [magnitude?_eq]
  by_cases hzero : (n.digits.drop (n.digits.length - (-n.scale).toNat)).all (· == '0') = true
  · have hdropped : decimal (n.digits.drop (n.digits.length - (-n.scale).toNat)) = 0 :=
      (decimal_eq_zero_iff fun c hc => h c (List.mem_of_mem_drop hc)).mpr (all_zero_iff.mp hzero)
    rw [if_pos hzero, ← decimal_take_mul hdropped, Nat.mul_right_comm,
      Nat.mul_left_inj (by positivity)]
    dsimp only
    split
    · next hle =>
      constructor
      · rintro ⟨⟩
        exact ⟨rfl, hle⟩
      · rintro ⟨rfl, _⟩
        rfl
    · next hle =>
      constructor
      · rintro ⟨⟩
      · rintro ⟨rfl, hm⟩
        exact absurd hm hle
  · -- A cut takes place, so that the scale is negative and a whole value would be a divisor.
    rw [if_neg hzero]
    constructor
    · rintro ⟨⟩
    · rintro ⟨heq, _⟩
      refine absurd (all_zero_iff.mpr ?_) hzero
      by_cases hscale : n.scale.toNat = 0
      · rw [hscale, Nat.pow_zero, Nat.mul_one] at heq
        exact (pow_dvd_decimal_iff h _).mp ⟨m, by rw [← heq, Nat.mul_comm]⟩
      · have hcut : (-n.scale).toNat = 0 := by omega
        rw [hcut, Nat.sub_zero, List.drop_length]
        simp

/-! ## Reading -/

section

variable {text : String}

theorem parse?_of_read?_eq_none (h : Numeral.read? (trim text.toList) = none) : parse? text = none := by
  rw [parse?, h]
  rfl

theorem parse?_of_read? {n : Numeral} (h : Numeral.read? (trim text.toList) = some n) :
    parse? text =
      if -2 ^ 31 ≤ n.exponent ∧ n.exponent < 2 ^ 31 then
        (magnitude? n).map fun m : Nat => signFactor n.negative * m
      else none := by
  have hbound : (exponentBound : Int) = 2 ^ 31 := rfl
  have hsign : ∀ m : Nat,
      (if n.negative then -(m : Int) else m) = signFactor n.negative * m := by
    intro m
    cases n.negative <;> simp [signFactor]
  rw [parse?, h, Option.bind_eq_bind, Option.bind_some]
  by_cases hexponent : -2 ^ 31 ≤ n.exponent ∧ n.exponent < 2 ^ 31
  · rw [if_pos hexponent, if_neg (by omega)]
    cases magnitude? n with
    | none => rfl
    | some m => exact congrArg some (hsign m)
  · rw [if_neg hexponent, if_pos (by omega)]

theorem parse?_eq_some {v : Int} :
    parse? text = some v ↔ ∃ n m, Numeral.read? (trim text.toList) = some n ∧
      (-2 ^ 31 ≤ n.exponent ∧ n.exponent < 2 ^ 31) ∧ magnitude? n = some m ∧
      signFactor n.negative * m = v := by
  cases hread : Numeral.read? (trim text.toList) with
  | none => simp [parse?_of_read?_eq_none hread]
  | some n =>
    rw [parse?_of_read? hread]
    constructor
    · intro h
      split at h
      · next hexponent =>
        obtain ⟨m, hm, hv⟩ := Option.map_eq_some_iff.mp h
        exact ⟨n, m, rfl, hexponent, hm, hv⟩
      · cases h
    · rintro ⟨_, m, ⟨⟩, hexponent, hm, hv⟩
      rw [if_pos hexponent, hm, Option.map_some, hv]

end

theorem exists_magnitude_iff {d : ℚ} (hd : 0 ≤ d) (negative : Bool) {v : Int} :
    (∃ m : Nat, (m : ℚ) = d ∧ m ≤ maxMagnitude ∧ signFactor negative * m = v) ↔
      signFactor negative * d = v ∧ v.natAbs ≤ maxMagnitude := by
  constructor
  · rintro ⟨m, rfl, hm, rfl⟩
    refine ⟨by push_cast; rfl, ?_⟩
    cases negative <;> simpa [signFactor] using hm
  · rintro ⟨hv, hbound⟩
    have habs : (v.natAbs : ℚ) = d := by
      rw [Nat.cast_natAbs, Int.cast_abs, ← hv, abs_mul, abs_of_nonneg hd]
      cases negative <;> simp [signFactor]
    refine ⟨v.natAbs, habs, hbound, ?_⟩
    apply Int.cast_injective (α := ℚ)
    rw [Int.cast_mul, Int.cast_natCast, habs, hv]

/-- Whole numbers are the numerals among white space with an integer value of 63 bits and a sign and with
an exponent that is an integer of 32 bits. -/
def Denotes (text : String) (v : Int) : Prop :=
  ∃ (core : List Char) (n : Numeral), InBlanks core text.toList ∧ n.Written core ∧
    (-2 ^ 31 ≤ n.exponent ∧ n.exponent < 2 ^ 31) ∧ n.value = v ∧ v.natAbs ≤ 2 ^ 63 - 1

theorem parse?_eq_some_iff {text : String} {v : Int} : parse? text = some v ↔ Denotes text v := by
  have hvalue : ∀ {core : List Char} {n : Numeral}, n.Written core →
      ((∃ m, magnitude? n = some m ∧ signFactor n.negative * m = v) ↔
        n.value = v ∧ v.natAbs ≤ maxMagnitude) := by
    intro core n hn
    have hnonneg : (0 : ℚ) ≤ decimal n.digits * 10 ^ n.scale :=
      mul_nonneg (Nat.cast_nonneg _) (zpow_nonneg (by norm_num) _)
    simp only [magnitude?_eq_some_iff hn.isDigit, ← natCast_eq_mul_zpow_iff, and_assoc]
    rw [exists_magnitude_iff hnonneg, Numeral.value_eq]
  rw [parse?_eq_some]
  constructor
  · rintro ⟨n, m, hread, hexponent, hm⟩
    obtain ⟨core, hblanks, hn⟩ := read?_trim_eq_some_iff.mp hread
    exact ⟨core, n, hblanks, hn, hexponent, (hvalue hn).mp ⟨m, hm⟩⟩
  · rintro ⟨core, n, hblanks, hn, hexponent, hv⟩
    obtain ⟨m, hm⟩ := (hvalue hn).mpr hv
    exact ⟨n, m, read?_trim_eq_some_iff.mpr ⟨core, hblanks, hn⟩, hexponent, hm⟩

end WholeNumber

end Managed
