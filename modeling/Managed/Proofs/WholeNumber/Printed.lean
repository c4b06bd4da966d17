import Managed.Proofs.WholeNumber.Exact
import Managed.Space.Sort

/-!
# Integers in print

The text of an integer is a numeral: a minus sign if the integer is negative, and the digits of its
magnitude (`written_toString`). It is read again if the magnitude has at most 63 bits, and otherwise
nothing is read (`parse?_toString_int`). So of all integers of 64 bits just one is lost, the least, whose
magnitude is larger by one than that of any other. Neither is it understood as the answer of a comparator
(`printed_words_read_back`).
-/

namespace Managed.WholeNumber

open Text

/-- The numeral as which an integer is printed. -/
def printed (n : Int) : Numeral :=
  { negative := decide (n < 0), whole := Nat.toDigits 10 n.natAbs, fraction := [], exponent := 0 }

theorem isDigit_of_mem_toDigits {m : Nat} : ∀ c ∈ Nat.toDigits 10 m, c.isDigit = true :=
  fun _ hc => Nat.isDigit_of_mem_toDigits (by decide) (by decide) hc

theorem decimal_toDigits (m : Nat) : decimal (Nat.toDigits 10 m) = m :=
  Nat.ofDigitChars_toDigits (by decide) (by decide)

theorem written_toString (n : Int) : (printed n).Written (toString n).toList := by
  have hmantissa : MantissaText (Nat.toDigits 10 n.natAbs) (Nat.toDigits 10 n.natAbs) [] :=
    .whole Nat.toDigits_ne_nil isDigit_of_mem_toDigits
  have hwritten : ∀ sign : List Char, SignText sign (decide (n < 0)) →
      (printed n).Written (sign ++ Nat.toDigits 10 n.natAbs) := by
    intro sign hsign
    rw [← List.append_nil (sign ++ _)]
    exact .mk hsign hmantissa .absent
  rw [Int.toString_eq_repr, Int.repr_eq_if]
  by_cases hn : 0 ≤ n
  · rw [if_pos hn, Nat.toList_repr, (by omega : n.toNat = n.natAbs)]
    apply hwritten []
    rw [decide_eq_false (by omega)]
    exact .absent
  · rw [if_neg hn, String.toList_append, Nat.toList_repr, (by omega : (-n).toNat = n.natAbs)]
    apply hwritten ['-']
    rw [decide_eq_true (by omega)]
    exact .minus

theorem magnitude?_printed (n : Int) :
    magnitude? (printed n) = if n.natAbs ≤ maxMagnitude then some n.natAbs else none := by
  have hscale : (printed n).scale = 0 := rfl
  have hdigits : (printed n).digits = Nat.toDigits 10 n.natAbs := List.append_nil _
  rw [magnitude?_eq, hscale, hdigits]
  simp [decimal_toDigits]

/-- An integer in print is read again if its magnitude is small enough. -/
theorem parse?_toString_int (n : Int) :
    parse? (toString n) = if n.natAbs ≤ maxMagnitude then some n else none := by
  have hblanks : InBlanks (toString n).toList ([] ++ (toString n).toList ++ []) :=
    .mk (by simp) (by simp)
  rw [List.append_nil, List.nil_append] at hblanks
  have hread := read?_trim_eq_some_iff.mpr ⟨_, hblanks, written_toString n⟩
  have hsign : signFactor (printed n).negative * (n.natAbs : Int) = n := by
    rcases Int.lt_or_le n 0 with hn | hn
    · rw [printed, decide_eq_true hn, signFactor, if_pos rfl]
      omega
    · rw [printed, decide_eq_false (by omega), signFactor, if_neg Bool.false_ne_true]
      omega
  have hexponent : -2 ^ 31 ≤ (printed n).exponent ∧ (printed n).exponent < 2 ^ 31 :=
    (by decide : -2 ^ 31 ≤ (0 : Int) ∧ (0 : Int) < 2 ^ 31)
  rw [parse?_of_read? hread, if_pos hexponent, magnitude?_printed]
  split
  · rw [Option.map_some, hsign]
  · rfl

theorem natAbs_toInt_le_iff (n : Int64) : n.toInt.natAbs ≤ maxMagnitude ↔ n ≠ Int64.minValue := by
  have hmax : maxMagnitude = 2 ^ 63 - 1 := rfl
  have hleast : n = Int64.minValue ↔ n.toInt = -2 ^ 63 := by
    rw [← Int64.toInt_inj, Int64.toInt_minValue]
  have hlow := n.le_toInt
  have hhigh := n.toInt_lt
  rw [ne_eq, hleast, hmax]
  omega

/-- Every integer of 64 bits but the least is read back from its text, and a comparator that answers with
the text is understood to mean its sign. The text of the least integer is not read, and a comparator that
answers with it is refused. -/
theorem printed_words_read_back (n : Int64) :
    parse? (toString n.toInt) = (if n = Int64.minValue then none else some n.toInt) ∧
      Space.verdict (some (.string (toString n.toInt))) =
        if n = Int64.minValue then .error (.comparatorNotNumeric (toString n.toInt))
        else .ok (compare n.toInt 0) := by
  have hparse : parse? (toString n.toInt) = if n = Int64.minValue then none else some n.toInt := by
    rw [parse?_toString_int]
    simp only [natAbs_toInt_le_iff, ne_eq, ite_not]
  refine ⟨hparse, ?_⟩
  rw [Space.verdict, Object.stringValue, hparse]
  by_cases hn : n = Int64.minValue
  · rw [if_pos hn, if_pos hn]
  · rw [if_neg hn, if_neg hn]

/-- The least integer is a negative answer, but it is not read. -/
theorem least_word_not_read :
    parse? (toString Int64.minValue.toInt) ≠ some Int64.minValue.toInt ∧
      Space.verdict (some (.string (toString Int64.minValue.toInt))) ≠ .ok .lt := by
  have hparse : parse? "-9223372036854775808" = none := by decide +kernel
  have htext : toString Int64.minValue.toInt = "-9223372036854775808" := by decide +kernel
  rw [htext, Space.verdict, Object.stringValue, hparse]
  constructor
  · rintro ⟨⟩
  · rintro ⟨⟩

end Managed.WholeNumber
