import Mathlib.Data.List.TakeDrop
import Mathlib.Data.Nat.Digits.Defs
import Managed.Proofs.Text.Blank
import Managed.Text.Numeral

/-!
# How numerals are written

The forms of a numeral and of its parts are given as relations between a text and what it stands for.
Reading a numeral accepts just the texts of that form (`read?_eq_some_iff`). Digits are read one after
the other, and denote the number of which they are the digits (`decimal_eq_ofDigits`).
-/

namespace Managed.Text

/-! ## Digits -/

/-- The values of digits, from the last one on. -/
def digitValues (digits : List Char) : List Nat :=
  (digits.map fun c => c.toNat - '0'.toNat).reverse

theorem length_digitValues (digits : List Char) : (digitValues digits).length = digits.length := by
  rw [digitValues, List.length_reverse, List.length_map]

theorem decimal_eq_ofDigits (digits : List Char) :
    decimal digits = Nat.ofDigits 10 (digitValues digits) := by
  rw [Nat.ofDigits_eq_foldr, digitValues, List.foldr_reverse, List.foldl_map]
  simp only [decimal, Nat.cast_id, Nat.add_comm]

theorem decimal_append (front rest : List Char) :
    decimal (front ++ rest) = decimal front * 10 ^ rest.length + decimal rest := by
  have hvalues : digitValues (front ++ rest) = digitValues rest ++ digitValues front := by
    simp only [digitValues, List.map_append, List.reverse_append]
  rw [decimal_eq_ofDigits, hvalues, Nat.ofDigits_append, length_digitValues, decimal_eq_ofDigits,
    decimal_eq_ofDigits, Nat.mul_comm, Nat.add_comm]

theorem toNat_of_isDigit {c : Char} (h : c.isDigit = true) : 48 ≤ c.toNat ∧ c.toNat ≤ 57 := by
  simp only [Char.isDigit, Bool.and_eq_true, decide_eq_true_eq] at h
  exact h

theorem decimal_lt {digits : List Char} (h : ∀ c ∈ digits, c.isDigit = true) :
    decimal digits < 10 ^ digits.length := by
  rw [decimal_eq_ofDigits, ← length_digitValues]
  refine Nat.ofDigits_lt_base_pow_length (by decide) fun d hd => ?_
  obtain ⟨c, hc, rfl⟩ := List.mem_map.mp (List.mem_reverse.mp hd)
  have hle := (toNat_of_isDigit (h c hc)).2
  have hzero : '0'.toNat = 48 := rfl
  omega

theorem isDigit_eq_zero_iff {c : Char} (h : c.isDigit = true) :
    c.toNat - '0'.toNat = 0 ↔ c = '0' := by
  have hzero : '0'.toNat = 48 := rfl
  have hle := (toNat_of_isDigit h).1
  constructor
  · intro heq
    exact Char.ext (UInt32.toNat_inj.mp (show c.toNat = '0'.toNat by omega))
  · rintro rfl
    rfl

theorem all_zero_iff {digits : List Char} :
    digits.all (· == '0') = true ↔ ∀ c ∈ digits, c = '0' := by
  simp

/-- Digits denote zero if all of them are zeros, and otherwise not. -/
theorem decimal_eq_zero_iff {digits : List Char} (h : ∀ c ∈ digits, c.isDigit = true) :
    decimal digits = 0 ↔ ∀ c ∈ digits, c = '0' := by
  induction digits with
  | nil => simp [decimal]
  | cons c rest ih =>
    have hfirst : decimal [c] = c.toNat - '0'.toNat := by simp [decimal]
    have hpow : 10 ^ rest.length ≠ 0 := by simp
    rw [← List.singleton_append, decimal_append, hfirst, Nat.add_eq_zero_iff, Nat.mul_eq_zero,
      or_iff_left hpow, isDigit_eq_zero_iff (h c List.mem_cons_self),
      ih fun x hx => h x (List.mem_cons_of_mem _ hx), List.singleton_append, List.forall_mem_cons]

theorem decimal_take_mul {digits : List Char} {k : Nat}
    (hzero : decimal (digits.drop (digits.length - k)) = 0) :
    decimal (digits.take (digits.length - k)) * 10 ^ k = decimal digits := by
  conv => rhs; rw [← List.take_append_drop (digits.length - k) digits, decimal_append, hzero]
  rw [Nat.add_zero, List.length_drop]
  by_cases hk : k ≤ digits.length
  · rw [Nat.sub_sub_self hk]
  · rw [Nat.sub_eq_zero_of_le (by omega), List.take_zero, decimal, List.foldl_nil, Nat.zero_mul,
      Nat.zero_mul]

/-- A power of ten divides what digits denote if as many of the last digits are zeros. Digits that are
not there count as zeros. -/
theorem pow_dvd_decimal_iff {digits : List Char} (h : ∀ c ∈ digits, c.isDigit = true) (k : Nat) :
    10 ^ k ∣ decimal digits ↔ ∀ c ∈ digits.drop (digits.length - k), c = '0' := by
  have hdropped : ∀ c ∈ digits.drop (digits.length - k), c.isDigit = true :=
    fun c hc => h c (List.mem_of_mem_drop hc)
  rw [← decimal_eq_zero_iff hdropped]
  constructor
  · intro hdvd
    have hlt := decimal_lt hdropped
    generalize hlen : (digits.drop (digits.length - k)).length = j at hlt
    have hle : j ≤ k := by
      rw [List.length_drop] at hlen
      omega
    have hdvd : 10 ^ j ∣ decimal digits := Nat.dvd_trans (Nat.pow_dvd_pow 10 hle) hdvd
    rw [← List.take_append_drop (digits.length - k) digits, decimal_append, hlen] at hdvd
    exact Nat.eq_zero_of_dvd_of_lt ((Nat.dvd_add_right (Nat.dvd_mul_left _ _)).mp hdvd) hlt
  · intro hzero
    rw [← decimal_take_mul hzero]
    exact Nat.dvd_mul_left _ _

/-! ## Forms -/

/-- A sign or nothing. The flag tells whether it is a minus. -/
inductive SignText : List Char → Bool → Prop where
  | absent : SignText [] false
  | plus : SignText ['+'] false
  | minus : SignText ['-'] true

/-- The factor that a sign stands for. -/
def signFactor (negative : Bool) : Int :=
  if negative then -1 else 1

/-- A whole number: an optional sign and at least one digit. -/
inductive IntegerText : List Char → Int → Prop where
  | mk {sign digits : List Char} {negative : Bool} :
    SignText sign negative → digits ≠ [] → (∀ c ∈ digits, c.isDigit = true) →
    IntegerText (sign ++ digits)
      (signFactor negative * (Nat.ofDigits 10 (digitValues digits) : Nat))

/-- The digits of a numeral before and after the point. There is at least one digit, and there need not
be a point. -/
inductive MantissaText : List Char → List Char → List Char → Prop where
  | whole {digits : List Char} :
    digits ≠ [] → (∀ c ∈ digits, c.isDigit = true) → MantissaText digits digits []
  | pointed {whole fraction : List Char} :
    whole ++ fraction ≠ [] → (∀ c ∈ whole ++ fraction, c.isDigit = true) →
    MantissaText (whole ++ '.' :: fraction) whole fraction

/-- An exponent, which is zero if it is left out. -/
inductive ExponentText : List Char → Int → Prop where
  | absent : ExponentText [] 0
  | given {c : Char} {text : List Char} {exponent : Int} :
    c = 'e' ∨ c = 'E' → IntegerText text exponent → ExponentText (c :: text) exponent

/-- How a numeral is written. -/
inductive Numeral.Written : List Char → Numeral → Prop where
  | mk {sign mantissa exponent : List Char} {n : Numeral} :
    SignText sign n.negative → MantissaText mantissa n.whole n.fraction →
    ExponentText exponent n.exponent → Written (sign ++ mantissa ++ exponent) n

/-! ## Reading the parts -/

theorem span_eq_iff {p : Char → Bool} {text front rest : List Char} :
    text.span p = (front, rest) ↔
      text = front ++ rest ∧ (∀ c ∈ front, p c = true) ∧ ∀ c ∈ rest.head?, p c = false := by
  rw [List.span_eq_takeWhile_dropWhile, Prod.mk.injEq]
  constructor
  · rintro ⟨rfl, rfl⟩
    refine ⟨List.takeWhile_append_dropWhile.symm, fun c hc => ?_, fun c hc => ?_⟩
    · exact List.all_eq_true.mp List.all_takeWhile c hc
    · have hhead := List.head?_dropWhile_not p text
      rwa [Option.mem_def.mp hc] at hhead
  · rintro ⟨rfl, hfront, hrest⟩
    rw [List.takeWhile_append_of_pos hfront, List.dropWhile_append_of_pos hfront]
    cases rest with
    | nil => simp
    | cons c rest => simp [hrest c rfl]

theorem exists_signText (text : List Char) :
    ∃ sign, SignText sign (splitSign text).1 ∧ text = sign ++ (splitSign text).2 := by
  unfold splitSign
  split
  · exact ⟨['-'], .minus, rfl⟩
  · exact ⟨['+'], .plus, rfl⟩
  · exact ⟨[], .absent, rfl⟩

theorem splitSign_append {sign : List Char} {negative : Bool} (h : SignText sign negative)
    {body : List Char} (hbody : ∀ c ∈ body.head?, c ≠ '-' ∧ c ≠ '+') :
    splitSign (sign ++ body) = (negative, body) := by
  cases h with
  | plus => rfl
  | minus => rfl
  | absent =>
    rw [List.nil_append]
    unfold splitSign
    split
    · exact absurd rfl (hbody '-' rfl).1
    · exact absurd rfl (hbody '+' rfl).2
    · rfl

theorem ne_of_isDigit {c d : Char} (hc : c.isDigit = true) (hd : d.isDigit = false) : c ≠ d := by
  rintro rfl
  rw [hc] at hd
  cases hd

theorem head?_ne_sign {digits : List Char} (h : ∀ c ∈ digits, c.isDigit = true) :
    ∀ c ∈ digits.head?, c ≠ '-' ∧ c ≠ '+' := by
  intro c hc
  have hdigit := h c (List.mem_of_mem_head? hc)
  exact ⟨ne_of_isDigit hdigit rfl, ne_of_isDigit hdigit rfl⟩

theorem signedInteger?_eq_some_iff {text : List Char} {value : Int} :
    signedInteger? text = some value ↔ IntegerText text value := by
  have hread : ∀ {negative digits}, digits ≠ [] → (∀ c ∈ digits, c.isDigit = true) →
      splitSign text = (negative, digits) → signedInteger? text =
        some (signFactor negative * (Nat.ofDigits 10 (digitValues digits) : Nat)) := by
    intro negative digits hne hdigits hsplit
    have hcheck : (digits.isEmpty || !digits.all Char.isDigit) = false := by
      simpa using ⟨hne, hdigits⟩
    rw [signedInteger?, hsplit, ← decimal_eq_ofDigits]
    simp only [hcheck]
    cases negative <;> simp [signFactor]
  constructor
  · intro h
    obtain ⟨sign, hsign, htext⟩ := exists_signText text
    by_cases hform : (splitSign text).2 ≠ [] ∧ ∀ c ∈ (splitSign text).2, c.isDigit = true
    · rw [hread hform.1 hform.2 rfl] at h
      rw [htext, ← Option.some.inj h]
      exact .mk hsign hform.1 hform.2
    · have hcheck : ((splitSign text).2.isEmpty || !(splitSign text).2.all Char.isDigit) = true := by
        simpa [Classical.or_iff_not_imp_left] using hform
      simp only [signedInteger?, hcheck] at h
      cases h
  · rintro ⟨hsign, hne, hdigits⟩
    exact hread hne hdigits (splitSign_append hsign (head?_ne_sign hdigits))

theorem mantissaText_iff {text whole fraction : List Char} :
    MantissaText text whole fraction ↔
      (text.span (· != '.')).1 = whole ∧ (text.span (· != '.')).2.drop 1 = fraction ∧
        whole ++ fraction ≠ [] ∧ ∀ c ∈ whole ++ fraction, c.isDigit = true := by
  have hpoint : ∀ {digits : List Char}, (∀ c ∈ digits, c.isDigit = true) →
      ∀ c ∈ digits, (c != '.') = true := by
    intro digits hdigits c hc
    exact bne_iff_ne.mpr (ne_of_isDigit (hdigits c hc) rfl)
  constructor
  · rintro (⟨hne, hdigits⟩ | ⟨hne, hdigits⟩)
    · have hspan : text.span (· != '.') = (text, []) :=
        span_eq_iff.mpr ⟨(List.append_nil text).symm, hpoint hdigits, by simp⟩
      rw [hspan, List.append_nil]
      exact ⟨rfl, rfl, hne, hdigits⟩
    · have hspan : (whole ++ '.' :: fraction).span (· != '.') = (whole, '.' :: fraction) :=
        span_eq_iff.mpr ⟨rfl, hpoint fun c hc => hdigits c (List.mem_append_left _ hc), by simp⟩
      rw [hspan]
      exact ⟨rfl, rfl, hne, hdigits⟩
  · rintro ⟨rfl, rfl, hne, hdigits⟩
    rcases hcut : text.span (· != '.') with ⟨whole, rest⟩
    rw [hcut] at hne hdigits
    obtain ⟨htext, _, hrest⟩ := span_eq_iff.mp hcut
    cases rest with
    | nil =>
      dsimp only at hne hdigits ⊢
      rw [List.drop_nil, List.append_nil] at hne hdigits
      rw [htext, List.append_nil]
      exact .whole hne hdigits
    | cons c fraction =>
      have hc : c = '.' := by simpa using hrest c rfl
      rw [htext, hc]
      exact .pointed hne hdigits

theorem MantissaText.chars {text whole fraction : List Char} (h : MantissaText text whole fraction) :
    text ≠ [] ∧ ∀ c ∈ text, c.isDigit = true ∨ c = '.' := by
  cases h with
  | whole hne hdigits => exact ⟨hne, fun c hc => Or.inl (hdigits c hc)⟩
  | pointed hne hdigits =>
    refine ⟨by simp, fun c hc => ?_⟩
    rcases List.mem_append.mp hc with hc | hc
    · exact Or.inl (hdigits c (List.mem_append_left _ hc))
    · rcases List.mem_cons.mp hc with rfl | hc
      · exact Or.inr rfl
      · exact Or.inl (hdigits c (List.mem_append_right _ hc))

namespace Numeral

theorem Written.isDigit {text : List Char} {n : Numeral} (h : Written text n) :
    ∀ c ∈ n.digits, c.isDigit = true := by
  obtain ⟨_, hmantissa, _⟩ := h
  exact (mantissaText_iff.mp hmantissa).2.2.2

/-- The exponent that follows a mantissa. -/
def exponentOf? : List Char → Option Int
  | [] => some 0
  | _ :: digits => signedInteger? digits

theorem exponentText_iff {text : List Char} {exponent : Int} :
    ExponentText text exponent ↔
      exponentOf? text = some exponent ∧ ∀ c ∈ text.head?, c = 'e' ∨ c = 'E' := by
  constructor
  · rintro (_ | ⟨hc, htext⟩)
    · exact ⟨rfl, by simp⟩
    · exact ⟨signedInteger?_eq_some_iff.mpr htext, by simpa using hc⟩
  · rintro ⟨hread, hhead⟩
    cases text with
    | nil =>
      cases hread
      exact .absent
    | cons c text => exact .given (hhead c rfl) (signedInteger?_eq_some_iff.mp hread)

/-! ## Reading numerals -/

section

variable {text body mantissa rest : List Char} {negative : Bool}
  (hsign : splitSign text = (negative, body))
  (hcut : body.span (fun c => c != 'e' && c != 'E') = (mantissa, rest))
include hsign hcut

/-- What is read from a text whose sign, mantissa and exponent are known. -/
theorem read?_of_cut {n : Numeral} :
    read? text = some n ↔ n.negative = negative ∧ MantissaText mantissa n.whole n.fraction ∧
      exponentOf? rest = some n.exponent := by
  have heq : read? text = (exponentOf? rest).bind fun exponent =>
      let whole := (mantissa.span (· != '.')).1
      let fraction := (mantissa.span (· != '.')).2.drop 1
      if whole.isEmpty && fraction.isEmpty then none
      else if !(whole ++ fraction).all Char.isDigit then none
      else some { negative, whole, fraction, exponent } := by
    unfold read?
    simp only [hsign, hcut]
    cases rest <;> rfl
  rw [heq, Option.bind_eq_some_iff, mantissaText_iff]
  constructor
  · rintro ⟨exponent, hexponent, h⟩
    dsimp only at h
    split at h
    · cases h
    · next hne =>
      split at h
      · cases h
      · next hdigits =>
        cases h
        refine ⟨rfl, ⟨rfl, rfl, ?_, ?_⟩, hexponent⟩
        · simpa using hne
        · simpa [or_imp, forall_and] using hdigits
  · rintro ⟨rfl, ⟨hwhole, hfraction, hne, hdigits⟩, hexponent⟩
    refine ⟨n.exponent, hexponent, ?_⟩
    dsimp only
    rw [hwhole, hfraction, if_neg (by simpa using hne),
      if_neg (by simpa [or_imp, forall_and] using hdigits)]

end

/-- Reading accepts the texts that are written as a numeral, and gives that numeral. -/
theorem read?_eq_some_iff {text : List Char} {n : Numeral} :
    read? text = some n ↔ Written text n := by
  constructor
  · intro h
    obtain ⟨sign, hsign, htext⟩ := exists_signText text
    rcases hsplit : splitSign text with ⟨negative, body⟩
    rw [hsplit] at hsign htext
    rcases hcut : body.span (fun c => c != 'e' && c != 'E') with ⟨mantissa, rest⟩
    obtain ⟨rfl, hmantissa, hexponent⟩ := (read?_of_cut hsplit hcut).mp h
    obtain ⟨rfl, _, hrest⟩ := span_eq_iff.mp hcut
    rw [htext, ← List.append_assoc]
    refine .mk hsign hmantissa (exponentText_iff.mpr ⟨hexponent, fun c hc => ?_⟩)
    have hc := hrest c hc
    simp only [Bool.and_eq_false_iff, bne_eq_false_iff_eq] at hc
    exact hc
  · rintro ⟨hsign, hmantissa, hexponent⟩
    rename_i sign mantissa exponent
    obtain ⟨hne, hchars⟩ := hmantissa.chars
    obtain ⟨hread, hhead⟩ := exponentText_iff.mp hexponent
    have hdiffer : ∀ c ∈ mantissa, ∀ d : Char, d.isDigit = false → d ≠ '.' → c ≠ d := by
      rintro c hc d hd hpoint rfl
      rcases hchars c hc with hdigit | hdot
      · rw [hdigit] at hd
        cases hd
      · exact hpoint hdot
    rw [List.append_assoc]
    refine (read?_of_cut (splitSign_append hsign fun c hc => ?_) (span_eq_iff.mpr ?_)).mpr
      ⟨rfl, hmantissa, hread⟩
    · have hc : c ∈ mantissa := by
        obtain ⟨d, digits, rfl⟩ := List.exists_cons_of_ne_nil hne
        cases hc
        exact List.mem_cons_self
      have hdiffer := hdiffer c hc
      exact ⟨hdiffer '-' rfl (by decide), hdiffer '+' rfl (by decide)⟩
    · refine ⟨rfl, fun c hc => ?_, fun c hc => ?_⟩
      · have hdiffer := hdiffer c hc
        simpa using ⟨hdiffer 'e' rfl (by decide), hdiffer 'E' rfl (by decide)⟩
      · rcases hhead c hc with rfl | rfl <;> rfl

end Numeral

/-! ## Numerals among white space -/

theorem isBlank_of_isDigit {c : Char} (h : c.isDigit = true) : isBlank c = false := by
  obtain ⟨hlow, hhigh⟩ := toNat_of_isDigit h
  simp only [isBlank, blankRanges, inRanges, Bool.and_eq_false_iff, Bool.or_eq_false_iff,
    decide_eq_false_iff_not]
  omega

theorem SignText.not_isBlank {text : List Char} {negative : Bool} (h : SignText text negative) :
    ∀ c ∈ text, isBlank c = false := by
  cases h with
  | absent => simp
  | plus => simpa using (by decide : isBlank '+' = false)
  | minus => simpa using (by decide : isBlank '-' = false)

theorem ExponentText.not_isBlank {text : List Char} {exponent : Int} (h : ExponentText text exponent) :
    ∀ c ∈ text, isBlank c = false := by
  cases h with
  | absent => simp
  | given hc htext =>
    obtain ⟨hsign, _, hdigits⟩ := htext
    rw [List.forall_mem_cons, List.forall_mem_append]
    refine ⟨?_, hsign.not_isBlank, fun d hd => isBlank_of_isDigit (hdigits d hd)⟩
    rcases hc with rfl | rfl <;> decide

/-- None of the characters of a numeral is white space. -/
theorem Numeral.Written.not_isBlank {text : List Char} {n : Numeral} (h : n.Written text) :
    ∀ c ∈ text, isBlank c = false := by
  obtain ⟨hsign, hmantissa, hexponent⟩ := h
  rw [List.forall_mem_append, List.forall_mem_append]
  refine ⟨⟨hsign.not_isBlank, fun c hc => ?_⟩, hexponent.not_isBlank⟩
  rcases hmantissa.chars.2 c hc with hdigit | rfl
  · exact isBlank_of_isDigit hdigit
  · decide

/-- Numerals among white space are found by dropping the white space. -/
theorem read?_trim_eq_some_iff {text : List Char} {n : Numeral} :
    Numeral.read? (trim text) = some n ↔ ∃ core, InBlanks core text ∧ n.Written core := by
  rw [Numeral.read?_eq_some_iff]
  constructor
  · exact fun h => ⟨trim text, inBlanks_trim text, h⟩
  · rintro ⟨core, hblanks, h⟩
    rwa [trim_of_inBlanks h.not_isBlank hblanks]

end Managed.Text
