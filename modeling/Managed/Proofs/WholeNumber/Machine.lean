import Mathlib.Tactic.Ring
import Managed.Proofs.WholeNumber.Exact
import Managed.Word

/-!
# Whole numbers by machine words

Whole numbers can be read in steps that use signed words of 64 bits and positions of bytes. Some of the
results are taken to fit in a word, and the positions to lie between two characters of the text. Where
that is wrong the computation slips, which is told apart from a text that is no whole number (`Stop`).

The steps never slip and give what is read with numbers of any size (`read_eq`). Only the scale could get
out of range, if a text had so many places after the point that they and a negative exponent exceed a word
together.
-/

namespace Managed.WholeNumber

open Text

namespace Machine

/-! ## Words and positions -/

/-- Why a computation ends without a value. -/
inductive Stop where
  /-- The text is no whole number. -/
  | unsuitable
  /-- A result does not fit in a word. -/
  | overflow
  /-- A position does not lie between two characters of a text. -/
  | outOfRange
deriving DecidableEq, Repr

/-- A result in a signed word, or the given end. -/
def bounded (stop : Stop) (n : Int) : Except Stop Int :=
  if -2 ^ 63 ≤ n ∧ n < 2 ^ 63 then .ok n else .error stop

/-- The number of bytes of a text. -/
def byteLength : List Char → Nat
  | [] => 0
  | c :: rest => c.utf8Size + byteLength rest

/-- The text before and after a position. -/
def splitAtByte : Nat → List Char → Except Stop (List Char × List Char)
  | 0, text => .ok ([], text)
  | _ + 1, [] => .error .outOfRange
  | position + 1, c :: rest =>
    if position + 1 < c.utf8Size then .error .outOfRange
    else do
      let (front, back) ← splitAtByte (position + 1 - c.utf8Size) rest
      return (c :: front, back)

/-- The position of the first character with a property. -/
def findByte (p : Char → Bool) : List Char → Option Nat
  | [] => none
  | c :: rest => if p c then some 0 else (findByte p rest).map (c.utf8Size + ·)

/-- The position after a character of one byte. -/
def nextPosition (position : Nat) : Except Stop Nat :=
  if position + 1 < Word.card then .ok (position + 1) else .error .overflow

/-! ## Steps -/

def takeSign : List Char → Except Stop (Bool × List Char)
  | [] => .error .unsuitable
  | '-' :: rest => do
    let (_, body) ← splitAtByte 1 ('-' :: rest)
    return (true, body)
  | '+' :: rest => do
    let (_, body) ← splitAtByte 1 ('+' :: rest)
    return (false, body)
  | text => .ok (false, text)

/-- The exponent, if it is an integer of 32 bits. -/
def exponentWord (digits : List Char) : Except Stop Int :=
  match signedInteger? digits with
  | none => .error .unsuitable
  | some exponent =>
    if -2 ^ 31 ≤ exponent ∧ exponent < 2 ^ 31 then .ok exponent else .error .unsuitable

def takeExponent (body : List Char) : Except Stop (List Char × Int) :=
  match findByte (fun c => c == 'e' || c == 'E') body with
  | none => .ok (body, 0)
  | some position => do
    let (mantissa, _) ← splitAtByte position body
    let next ← nextPosition position
    let (_, digits) ← splitAtByte next body
    let exponent ← exponentWord digits
    return (mantissa, exponent)

def takeDigits (mantissa : List Char) : Except Stop (List Char × List Char) :=
  let (whole, rest) := mantissa.span (· != '.')
  let fraction := rest.drop 1
  if whole.isEmpty && fraction.isEmpty then .error .unsuitable
  else if !(whole ++ fraction).all Char.isDigit then .error .unsuitable
  else .ok (whole, fraction)

/-- The power of ten that belongs to the number formed by all digits. -/
def scaleWord (exponent : Int) (fraction : List Char) : Except Stop Int := do
  let places ← bounded .overflow (byteLength fraction)
  bounded .overflow (exponent - places)

/-- Cuts off as many zeros as a negative scale tells. -/
def cutZeros (digits : List Char) (scale : Int) : Except Stop (List Char) :=
  if scale < 0 then
    if scale.natAbs ≤ byteLength digits then do
      let (kept, dropped) ← splitAtByte (byteLength digits - scale.natAbs) digits
      if dropped.all (· == '0') then return kept else .error .unsuitable
    else if digits.all (· == '0') then .ok []
    else .error .unsuitable
  else .ok digits

/-- The value of a digit, taken from its byte. -/
def digitWord (c : Char) : Except Stop Int :=
  if c.toNat < '0'.toNat then .error .overflow else .ok (c.toNat - '0'.toNat : Nat)

/-- Adds digits to the end of a value, one after the other. -/
def accumulate : Int → List Char → Except Stop Int
  | value, [] => .ok value
  | value, c :: rest => do
    let tens ← bounded .unsuitable (value * 10)
    let digit ← digitWord c
    let value ← bounded .unsuitable (tens + digit)
    accumulate value rest

/-- Multiplies by a positive power of ten, of which the exponent is an unsigned number of 32 bits. -/
def scaleUp (value scale : Int) : Except Stop Int :=
  if 0 < scale ∧ value ≠ 0 then
    if scale < 2 ^ 32 then do
      let factor ← bounded .unsuitable (10 ^ scale.toNat)
      bounded .unsuitable (value * factor)
    else .error .unsuitable
  else .ok value

def magnitudeWord (digits : List Char) (scale : Int) : Except Stop Int := do
  let kept ← cutZeros digits scale
  let value ← accumulate 0 kept
  scaleUp value scale

def signWord (negative : Bool) (value : Int) : Except Stop Int :=
  if negative then bounded .overflow (-value) else .ok value

def valueWord (negative : Bool) (mantissa : List Char) (exponent : Int) : Except Stop Int := do
  let (whole, fraction) ← takeDigits mantissa
  let scale ← scaleWord exponent fraction
  let value ← magnitudeWord (whole ++ fraction) scale
  signWord negative value

def read (text : String) : Except Stop Int := do
  let (negative, body) ← takeSign (trim text.toList)
  let (mantissa, exponent) ← takeExponent body
  valueWord negative mantissa exponent

/-! ## Positions -/

theorem ok_bind {α β : Type} (a : α) (next : α → Except Stop β) : (.ok a >>= next) = next a :=
  rfl

theorem error_bind {α β : Type} (stop : Stop) (next : α → Except Stop β) :
    (.error stop >>= next) = .error stop :=
  rfl

theorem bounded_of_le {stop : Stop} {n : Int} (hlow : -2 ^ 63 ≤ n) (hhigh : n < 2 ^ 63) :
    bounded stop n = .ok n :=
  if_pos ⟨hlow, hhigh⟩

theorem bounded_natCast (stop : Stop) (n : Nat) :
    bounded stop n = if n ≤ maxMagnitude then .ok (n : Int) else .error stop := by
  have hmax : maxMagnitude = 2 ^ 63 - 1 := rfl
  by_cases hn : n ≤ maxMagnitude
  · rw [if_pos hn, bounded_of_le (by omega) (by omega)]
  · rw [if_neg hn, bounded, if_neg (by omega)]

theorem byteLength_append (front rest : List Char) :
    byteLength (front ++ rest) = byteLength front + byteLength rest := by
  induction front with
  | nil => simp [byteLength]
  | cons c front ih => rw [List.cons_append, byteLength, byteLength, ih, Nat.add_assoc]

theorem byteLength_toList (text : String) : byteLength text.toList = text.utf8ByteSize := by
  have hsize : ∀ chars : List Char, byteLength chars = chars.utf8Encode.size := by
    intro chars
    induction chars with
    | nil => simp [byteLength, List.utf8Encode_nil]
    | cons c rest ih =>
      rw [byteLength, ih, List.utf8Encode_cons, ByteArray.size_append, List.utf8Encode_singleton]
      simp
  rw [hsize, String.utf8Encode_toList, String.size_toByteArray]

theorem byteLength_eq_length {text : List Char} (h : ∀ c ∈ text, c.isDigit = true) :
    byteLength text = text.length := by
  induction text with
  | nil => rfl
  | cons c rest ih =>
    rw [List.forall_mem_cons] at h
    have hsize : c.utf8Size = 1 := by
      have hle := (toNat_of_isDigit h.1).2
      exact Char.utf8Size_eq_one_iff.mpr (UInt32.le_iff_toNat_le.mpr (Nat.le_trans hle (by decide)))
    rw [byteLength, ih h.2, hsize, List.length_cons, Nat.add_comm]

/-- The position where a text begins that is appended to another one. -/
theorem splitAtByte_append (front back : List Char) :
    splitAtByte (byteLength front) (front ++ back) = .ok (front, back) := by
  induction front with
  | nil => simp [byteLength, splitAtByte]
  | cons c front ih =>
    obtain ⟨size, hsize⟩ := Nat.exists_eq_add_of_lt c.utf8Size_pos
    have hlen : byteLength (c :: front) = (size + byteLength front) + 1 := by
      rw [byteLength]
      omega
    have hrest : size + byteLength front + 1 - c.utf8Size = byteLength front := by omega
    rw [hlen, List.cons_append, splitAtByte, if_neg (by omega), hrest, ih]
    rfl

theorem findByte_of_span {p q : Char → Bool} (hq : ∀ c, q c = !p c) {text front rest : List Char}
    (h : text.span p = (front, rest)) :
    findByte q text = if rest = [] then none else some (byteLength front) := by
  obtain ⟨rfl, hfront, hrest⟩ := span_eq_iff.mp h
  clear h
  induction front with
  | nil =>
    cases rest with
    | nil => rfl
    | cons c rest => simp [findByte, hq, hrest c rfl, byteLength]
  | cons c front ih =>
    rw [List.forall_mem_cons] at hfront
    rw [List.cons_append, findByte, hq, hfront.1, Bool.not_true, if_neg Bool.false_ne_true,
      ih hfront.2]
    by_cases hend : rest = []
    · rw [if_pos hend, if_pos hend]
      rfl
    · rw [if_neg hend, if_neg hend]
      rfl

/-! ## What the steps do -/

theorem takeSign_eq {text : List Char} (h : text ≠ []) : takeSign text = .ok (splitSign text) := by
  have hcut : ∀ c : Char, c.utf8Size = 1 → ∀ rest : List Char,
      splitAtByte 1 (c :: rest) = .ok ([c], rest) := by
    intro c hc rest
    have hsplit := splitAtByte_append [c] rest
    rwa [byteLength, byteLength, hc] at hsplit
  unfold takeSign splitSign
  split
  · exact absurd rfl h
  · rw [hcut _ rfl]
    rfl
  · rw [hcut _ rfl]
    rfl
  · split
    · next hne _ => exact absurd rfl (hne _)
    · next hne => exact absurd rfl (hne _)
    · rfl

/-- The exponent after a mantissa, if it is an integer of 32 bits. -/
theorem takeExponent_eq {body mantissa rest : List Char} (hsize : byteLength body < Word.card)
    (hcut : body.span (fun c => c != 'e' && c != 'E') = (mantissa, rest)) :
    takeExponent body = (Numeral.exponentOf? rest).elim (.error .unsuitable) fun exponent =>
      if -2 ^ 31 ≤ exponent ∧ exponent < 2 ^ 31 then .ok (mantissa, exponent)
      else .error .unsuitable := by
  have hfind : findByte (fun c => c == 'e' || c == 'E') body = _ :=
    findByte_of_span (fun c => by simp [bne]) hcut
  obtain ⟨rfl, _, hrest⟩ := span_eq_iff.mp hcut
  unfold takeExponent
  rw [hfind]
  cases rest with
  | nil => simp [Numeral.exponentOf?]
  | cons c digits =>
    have hc : c.utf8Size = 1 := by
      have hc : c = 'e' ∨ c = 'E' := by simpa [Classical.or_iff_not_imp_left] using hrest c rfl
      rcases hc with rfl | rfl <;> rfl
    have hnext : byteLength (mantissa ++ [c]) = byteLength mantissa + 1 := by
      rw [byteLength_append, byteLength, byteLength, hc]
    have hword : byteLength mantissa + 1 < Word.card := by
      rw [byteLength_append, byteLength, hc] at hsize
      omega
    have hsplit := splitAtByte_append (mantissa ++ [c]) digits
    rw [hnext, List.append_assoc, List.singleton_append] at hsplit
    simp only [List.cons_ne_nil, if_false, bind, Except.bind, splitAtByte_append, nextPosition,
      if_pos hword, hsplit, exponentWord, Numeral.exponentOf?]
    cases signedInteger? digits with
    | none => rfl
    | some exponent =>
      by_cases hbound : -2 ^ 31 ≤ exponent ∧ exponent < 2 ^ 31
      · simp only [if_pos hbound, Option.elim_some]
        rfl
      · simp only [if_neg hbound, Option.elim_some]

theorem takeDigits_of_mantissaText {mantissa whole fraction : List Char}
    (h : MantissaText mantissa whole fraction) : takeDigits mantissa = .ok (whole, fraction) := by
  obtain ⟨hwhole, hfraction, hne, hdigits⟩ := mantissaText_iff.mp h
  unfold takeDigits
  dsimp only
  rw [hwhole, hfraction, if_neg (by simpa using hne),
    if_neg (by simpa [or_imp, forall_and] using hdigits)]

theorem takeDigits_of_not_mantissaText {mantissa : List Char}
    (h : ∀ whole fraction, ¬ MantissaText mantissa whole fraction) :
    takeDigits mantissa = .error .unsuitable := by
  unfold takeDigits
  dsimp only
  split
  · rfl
  · next hne =>
    split
    · rfl
    · next hdigits =>
      refine absurd (mantissaText_iff.mpr ⟨rfl, rfl, ?_, ?_⟩) (h _ _)
      · simpa using hne
      · simpa [or_imp, forall_and] using hdigits

/-- The scale fits in a word unless there are too many places after the point. -/
theorem scaleWord_eq {exponent : Int} {fraction : List Char}
    (hdigits : ∀ c ∈ fraction, c.isDigit = true) (hexponent : -2 ^ 31 ≤ exponent ∧ exponent < 2 ^ 31)
    (hsize : byteLength fraction ≤ 2 ^ 63 - 2 ^ 31) :
    scaleWord exponent fraction = .ok (exponent - fraction.length) := by
  rw [byteLength_eq_length hdigits] at hsize
  rw [scaleWord, byteLength_eq_length hdigits, bounded_of_le (by omega) (by omega)]
  exact bounded_of_le (by omega) (by omega)

/-- Only zeros are cut off. Where more digits are to be cut off than there are, all of them are. -/
theorem cutZeros_eq {digits : List Char} (hdigits : ∀ c ∈ digits, c.isDigit = true) (scale : Int) :
    cutZeros digits scale =
      if (digits.drop (digits.length - (-scale).toNat)).all (· == '0') then
        .ok (digits.take (digits.length - (-scale).toNat))
      else .error .unsuitable := by
  unfold cutZeros
  rw [byteLength_eq_length hdigits]
  by_cases hscale : scale < 0
  · have habs : (-scale).toNat = scale.natAbs := by omega
    rw [if_pos hscale, habs]
    by_cases hle : scale.natAbs ≤ digits.length
    · have hsplit := splitAtByte_append (digits.take (digits.length - scale.natAbs))
        (digits.drop (digits.length - scale.natAbs))
      rw [List.take_append_drop, byteLength_eq_length fun c hc => hdigits c (List.mem_of_mem_take hc),
        List.length_take, Nat.min_eq_left (Nat.sub_le _ _)] at hsplit
      rw [if_pos hle, hsplit, ok_bind]
      rfl
    · rw [if_neg hle, Nat.sub_eq_zero_of_le (by omega), List.drop_zero, List.take_zero]
  · have habs : (-scale).toNat = 0 := by omega
    rw [if_neg hscale, habs, Nat.sub_zero, List.drop_length, List.take_length]
    rfl

theorem digitWord_eq {c : Char} (h : c.isDigit = true) :
    digitWord c = .ok (decimal [c] : Nat) := by
  have hzero : '0'.toNat = 48 := rfl
  have hle := (toNat_of_isDigit h).1
  rw [digitWord, if_neg (by omega), decimal, List.foldl_cons, List.foldl_nil, Nat.mul_zero,
    Nat.zero_add]

/-- Digits are added as long as the value stays small enough. -/
theorem accumulate_eq {digits : List Char} (hdigits : ∀ c ∈ digits, c.isDigit = true) {value : Nat}
    (hvalue : value ≤ maxMagnitude) :
    accumulate value digits =
      if value * 10 ^ digits.length + decimal digits ≤ maxMagnitude then
        .ok (value * 10 ^ digits.length + decimal digits : Nat)
      else .error .unsuitable := by
  induction digits generalizing value with
  | nil =>
    have htotal : value * 10 ^ ([] : List Char).length + decimal [] = value := by simp [decimal]
    rw [htotal, if_pos hvalue, accumulate]
  | cons c rest ih =>
    rw [List.forall_mem_cons] at hdigits
    have htotal : value * 10 ^ (c :: rest).length + decimal (c :: rest) =
        (value * 10 + decimal [c]) * 10 ^ rest.length + decimal rest := by
      rw [← List.singleton_append, decimal_append, List.singleton_append, List.length_cons,
        Nat.pow_succ']
      ring
    have hgrows : value * 10 + decimal [c] ≤
        (value * 10 + decimal [c]) * 10 ^ rest.length + decimal rest :=
      Nat.le_add_right_of_le (Nat.le_mul_of_pos_right _ (Nat.pow_pos (by decide)))
    have htens : (value : Int) * 10 = (value * 10 : Nat) := by push_cast; rfl
    rw [htotal, accumulate, htens, bounded_natCast, digitWord_eq hdigits.1]
    by_cases hten : value * 10 ≤ maxMagnitude
    · have hsum : ((value * 10 : Nat) : Int) + (decimal [c] : Nat) = (value * 10 + decimal [c] : Nat) := by
        push_cast
        rfl
      rw [if_pos hten, ok_bind, ok_bind, hsum, bounded_natCast]
      by_cases hnext : value * 10 + decimal [c] ≤ maxMagnitude
      · rw [if_pos hnext, ok_bind]
        exact ih hdigits.2 hnext
      · rw [if_neg hnext, error_bind, if_neg (by omega)]
    · rw [if_neg hten, error_bind, if_neg (by omega)]

theorem scaleUp_eq {value : Nat} (hvalue : value ≤ maxMagnitude) (scale : Int) :
    scaleUp value scale =
      if value * 10 ^ scale.toNat ≤ maxMagnitude then .ok (value * 10 ^ scale.toNat : Nat)
      else .error .unsuitable := by
  by_cases hcase : 0 < scale ∧ (value : Int) ≠ 0
  · have hpos : 0 < value := by omega
    have hgrows : 10 ^ scale.toNat ≤ value * 10 ^ scale.toNat := Nat.le_mul_of_pos_left _ hpos
    rw [scaleUp, if_pos hcase]
    by_cases hscale : scale < 2 ^ 32
    · have hfactor : (10 : Int) ^ scale.toNat = (10 ^ scale.toNat : Nat) := by push_cast; rfl
      rw [if_pos hscale, hfactor, bounded_natCast]
      by_cases hpow : 10 ^ scale.toNat ≤ maxMagnitude
      · rw [if_pos hpow, ok_bind, ← Int.natCast_mul, bounded_natCast]
      · rw [if_neg hpow, error_bind, if_neg (by omega)]
    · have hpow : 10 ^ 19 ≤ 10 ^ scale.toNat := Nat.pow_le_pow_right (by decide) (by omega)
      have hmax : maxMagnitude < 10 ^ 19 := by decide
      rw [if_neg hscale, if_neg (by omega)]
  · have hsame : value * 10 ^ scale.toNat = value := by
      by_cases hzero : value = 0
      · rw [hzero, Nat.zero_mul]
      · have hscale : scale.toNat = 0 := by omega
        rw [hscale, Nat.pow_zero, Nat.mul_one]
    rw [scaleUp, if_neg hcase, hsame, if_pos hvalue]

theorem magnitudeWord_eq {n : Numeral} (hdigits : ∀ c ∈ n.digits, c.isDigit = true) :
    magnitudeWord n.digits n.scale =
      (magnitude? n).elim (.error .unsuitable) fun m => .ok (m : Int) := by
  rw [magnitudeWord, cutZeros_eq hdigits, magnitude?_eq]
  by_cases hzero : (n.digits.drop (n.digits.length - (-n.scale).toNat)).all (· == '0') = true
  · generalize hkept : n.digits.take (n.digits.length - (-n.scale).toNat) = kept
    have hkeptDigits : ∀ c ∈ kept, c.isDigit = true := by
      intro c hc
      rw [← hkept] at hc
      exact hdigits c (List.mem_of_mem_take hc)
    have hvalue := accumulate_eq hkeptDigits (Nat.zero_le maxMagnitude)
    rw [Nat.zero_mul, Nat.zero_add, Int.ofNat_zero] at hvalue
    rw [if_pos hzero, if_pos hzero, ok_bind, hvalue]
    dsimp only
    by_cases hle : decimal kept ≤ maxMagnitude
    · rw [if_pos hle, ok_bind, scaleUp_eq hle]
      split <;> rfl
    · -- Scaling does not make the value any smaller.
      have hgrows : decimal kept ≤ decimal kept * 10 ^ n.scale.toNat :=
        Nat.le_mul_of_pos_right _ (Nat.pow_pos (by decide))
      rw [if_neg hle, error_bind, if_neg (by omega)]
      rfl
  · rw [if_neg hzero, if_neg hzero, error_bind]
    rfl

theorem signWord_eq {m : Nat} (hm : m ≤ maxMagnitude) (negative : Bool) :
    signWord negative m = .ok (signFactor negative * m) := by
  have hmax : maxMagnitude = 2 ^ 63 - 1 := rfl
  cases negative with
  | false => simp [signWord, signFactor]
  | true =>
    rw [signWord, if_pos rfl, bounded_of_le (by omega) (by omega)]
    simp [signFactor]

theorem byteLength_fraction_le {mantissa whole fraction : List Char}
    (h : MantissaText mantissa whole fraction) : byteLength fraction ≤ byteLength mantissa := by
  cases h with
  | whole => exact Nat.zero_le _
  | pointed =>
    rw [byteLength_append, byteLength]
    omega

theorem valueWord_eq {n : Numeral} {mantissa : List Char}
    (hmantissa : MantissaText mantissa n.whole n.fraction)
    (hexponent : -2 ^ 31 ≤ n.exponent ∧ n.exponent < 2 ^ 31)
    (hsize : byteLength mantissa ≤ 2 ^ 63 - 2 ^ 31) :
    valueWord n.negative mantissa n.exponent =
      ((magnitude? n).map fun m : Nat => signFactor n.negative * m).elim (.error .unsuitable) .ok := by
  have hdigits : ∀ c ∈ n.digits, c.isDigit = true := (mantissaText_iff.mp hmantissa).2.2.2
  have hscale : scaleWord n.exponent n.fraction = .ok n.scale :=
    scaleWord_eq (fun c hc => hdigits c (List.mem_append_right _ hc)) hexponent
      (Nat.le_trans (byteLength_fraction_le hmantissa) hsize)
  have hmagnitude : magnitudeWord (n.whole ++ n.fraction) n.scale = _ := magnitudeWord_eq hdigits
  rw [valueWord, takeDigits_of_mantissaText hmantissa, ok_bind]
  dsimp only
  rw [hscale, ok_bind, hmagnitude]
  cases hm : magnitude? n with
  | none => rfl
  | some m =>
    rw [Option.elim_some, ok_bind, signWord_eq ((magnitude?_eq_some_iff hdigits).mp hm).2]
    rfl

theorem valueWord_of_not_mantissaText {mantissa : List Char}
    (h : ∀ whole fraction, ¬ MantissaText mantissa whole fraction) (negative : Bool) (exponent : Int) :
    valueWord negative mantissa exponent = .error .unsuitable := by
  rw [valueWord, takeDigits_of_not_mantissaText h, error_bind]

/-! ## Reading -/

theorem byteLength_trim_le (text : List Char) : byteLength (trim text) ≤ byteLength text := by
  have hle : ∀ {core text : List Char}, InBlanks core text → byteLength core ≤ byteLength text := by
    rintro core _ ⟨_, _⟩
    rw [byteLength_append, byteLength_append]
    omega
  exact hle (inBlanks_trim text)

theorem byteLength_splitSign_le (text : List Char) :
    byteLength (splitSign text).2 ≤ byteLength text := by
  obtain ⟨sign, _, htext⟩ := exists_signText text
  have hsum := byteLength_append sign (splitSign text).2
  rw [← htext] at hsum
  omega

section

variable {text : String} {body mantissa rest : List Char} {negative : Bool}
  (hne : trim text.toList ≠ []) (hsign : splitSign (trim text.toList) = (negative, body))
  (hcut : body.span (fun c => c != 'e' && c != 'E') = (mantissa, rest))

include hne hsign hcut in
theorem read_of_cut (hsize : byteLength body < Word.card) :
    read text = (Numeral.exponentOf? rest).elim (.error .unsuitable) fun exponent =>
      if -2 ^ 31 ≤ exponent ∧ exponent < 2 ^ 31 then valueWord negative mantissa exponent
      else .error .unsuitable := by
  rw [read, takeSign_eq hne, hsign, ok_bind]
  dsimp only
  rw [takeExponent_eq hsize hcut]
  cases Numeral.exponentOf? rest with
  | none => rfl
  | some exponent =>
    rw [Option.elim_some, Option.elim_some]
    by_cases hexponent : -2 ^ 31 ≤ exponent ∧ exponent < 2 ^ 31
    · rw [if_pos hexponent, if_pos hexponent, ok_bind]
    · rw [if_neg hexponent, if_neg hexponent, error_bind]

include hsign hcut in
theorem not_mantissaText_of_read?_eq_none {exponent : Int}
    (hexponent : Numeral.exponentOf? rest = some exponent)
    (hread : Numeral.read? (trim text.toList) = none) (whole fraction : List Char) :
    ¬ MantissaText mantissa whole fraction := by
  intro hmantissa
  have hsome := (Numeral.read?_of_cut hsign hcut
    (n := { negative, whole, fraction, exponent })).mpr ⟨rfl, hmantissa, hexponent⟩
  rw [hread] at hsome
  cases hsome

end

/-- The steps never slip, and they read the same value as reading with numbers of any size. -/
theorem read_eq {text : String} (hsize : byteLength text.toList ≤ 2 ^ 63 - 2 ^ 31) :
    read text = (parse? text).elim (.error .unsuitable) .ok := by
  by_cases hne : trim text.toList = []
  · rw [parse?_of_read?_eq_none (by rw [hne]; rfl), read, hne, takeSign, error_bind]
    rfl
  have htrim := byteLength_trim_le text.toList
  have hbody := byteLength_splitSign_le (trim text.toList)
  rcases hsign : splitSign (trim text.toList) with ⟨negative, body⟩
  rcases hcut : body.span (fun c => c != 'e' && c != 'E') with ⟨mantissa, rest⟩
  rw [hsign] at hbody
  dsimp only at hbody
  have hmantissaSize : byteLength mantissa ≤ byteLength body := by
    rw [(span_eq_iff.mp hcut).1, byteLength_append]
    exact Nat.le_add_right _ _
  have hcard : Word.card = 2 ^ 64 := rfl
  rw [read_of_cut hne hsign hcut (by omega)]
  cases hread : Numeral.read? (trim text.toList) with
  | some n =>
    obtain ⟨rfl, hmantissa, hexponent⟩ := (Numeral.read?_of_cut hsign hcut).mp hread
    rw [parse?_of_read? hread, hexponent, Option.elim_some]
    by_cases hrange : -2 ^ 31 ≤ n.exponent ∧ n.exponent < 2 ^ 31
    · rw [if_pos hrange, if_pos hrange, valueWord_eq hmantissa hrange (by omega)]
    · rw [if_neg hrange, if_neg hrange]
      rfl
  | none =>
    -- The text is no numeral. The exponent is at fault, or else the mantissa.
    rw [parse?_of_read?_eq_none hread]
    cases hexponent : Numeral.exponentOf? rest with
    | none => rfl
    | some exponent =>
      have hmantissa := not_mantissaText_of_read?_eq_none hsign hcut hexponent hread
      rw [Option.elim_some, valueWord_of_not_mantissaText hmantissa, ite_self]
      rfl

end Machine

/-- Reading gives the exact value of each text that denotes a whole number and nothing for other texts.
Neither the words nor the positions of its steps get out of range. -/
theorem parse?_exact (text : String) :
    (∀ v, parse? text = some v ↔ Denotes text v) ∧
      (parse? text = none ↔ ∀ v, ¬ Denotes text v) ∧
      (text.utf8ByteSize ≤ 2 ^ 63 - 2 ^ 31 →
        Machine.read text = (parse? text).elim (.error .unsuitable) .ok) := by
  refine ⟨fun v => parse?_eq_some_iff, ?_, fun hsize => Machine.read_eq ?_⟩
  · rw [Option.eq_none_iff_forall_ne_some]
    exact forall_congr' fun v => not_congr parse?_eq_some_iff
  · rwa [Machine.byteLength_toList]

/-- Here digits are cut off and the sign and the scale are applied. -/
theorem parse?_exact_signed_scaled :
    " -.002500E+5\t".utf8ByteSize ≤ 2 ^ 63 - 2 ^ 31 ∧ Denotes " -.002500E+5\t" (-250) ∧
      Machine.read " -.002500E+5\t" = .ok (-250) := by
  have hparse : parse? " -.002500E+5\t" = some (-250) := by decide +kernel
  have hsize : " -.002500E+5\t".utf8ByteSize ≤ 2 ^ 63 - 2 ^ 31 := by decide +kernel
  obtain ⟨hsome, _, hread⟩ := parse?_exact " -.002500E+5\t"
  refine ⟨hsize, (hsome _).mp hparse, ?_⟩
  rw [hread hsize, hparse]
  rfl

end Managed.WholeNumber
