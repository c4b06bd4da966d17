import Managed.Proofs.SlotArray.Table

/-!
# Lookups that would grow the array

An access says what becomes of subscripts outside the array: it grows, they are an error, or nothing is
found. A lookup does not change the array, so growing should have no part in it. But whether the array
would grow is asked before whether there is an error. A lookup with an access that grows the array
therefore never reports subscripts outside it, whatever else the access asks for
(`positionOf_extend_iff`).

What a lookup comes to is told by the number of subscripts and the first of them that is beyond its
dimension (`positionOf_eq`), for arrays of one and of more dimensions alike.
-/

namespace Managed

/-- What a lookup answers if there is no position. -/
def IndexAccess.missed (access : IndexAccess) (raise : Bool) (fault : Fault) :
    Except Fault (Option Nat) :=
  if access.extend then .ok none else if raise then .error fault else .ok none

theorem IndexAccess.missed_eq_iff (access : IndexAccess) (raise : Bool) (fault : Fault) :
    access.missed raise fault = ({ access with extend := false } : IndexAccess).missed raise fault ↔
      (access.extend = true → raise = false) := by
  unfold missed
  cases access.extend <;> cases raise <;> simp

/-- The answer that a place stands for. -/
def Location.answer : Location → Option Nat
  | position p => some p
  | _ => none

namespace SlotArray

variable {α : Type}

/-- The position of subscripts that are within the dimensions. -/
def placeOf (a : SlotArray α) (whole : List Nat) : Nat :=
  match a.shape with
  | some s => Word.add (s.offset whole) 1
  | none => whole.headD 0

/-- What a lookup of positive subscripts comes to. -/
def answerFor (a : SlotArray α) (access : IndexAccess) (whole : List Nat) :
    Except Fault (Option Nat) :=
  if whole.length < a.dimensionCount then .error (.tooFewSubscripts a.dimensionCount)
  else if a.dimensionCount < whole.length then
    access.missed access.raiseTooMany (.tooManySubscripts a.dimensionCount)
  else
    match (⟨a.dimensionSizes⟩ : Shape).firstBeyond? whole with
    | none => .ok (some (a.placeOf whole))
    | some i =>
      access.missed access.raiseOutOfRange
        (.subscriptOutOfRange (i + 1) (whole.getD i 0) (a.dimensionSizes.getD i 0))

section

variable {a : SlotArray α} {whole : List Nat} (access : IndexAccess)

theorem answerFor_of_lt (h : whole.length < a.dimensionCount) :
    a.answerFor access whole = .error (.tooFewSubscripts a.dimensionCount) :=
  if_pos h

theorem answerFor_of_gt (h : a.dimensionCount < whole.length) :
    a.answerFor access whole =
      access.missed access.raiseTooMany (.tooManySubscripts a.dimensionCount) := by
  rw [answerFor, if_neg (Nat.lt_asymm h), if_pos h]

theorem answerFor_within (hlen : whole.length = a.dimensionCount)
    (h : (⟨a.dimensionSizes⟩ : Shape).firstBeyond? whole = none) :
    a.answerFor access whole = .ok (some (a.placeOf whole)) := by
  simp only [answerFor, hlen, Nat.lt_irrefl, if_false, h]

theorem answerFor_beyond (hlen : whole.length = a.dimensionCount) {i : Nat}
    (h : (⟨a.dimensionSizes⟩ : Shape).firstBeyond? whole = some i) :
    a.answerFor access whole = access.missed access.raiseOutOfRange
      (.subscriptOutOfRange (i + 1) (whole.getD i 0) (a.dimensionSizes.getD i 0)) := by
  simp only [answerFor, hlen, Nat.lt_irrefl, if_false, h]

end

/-! ## Places and answers -/

theorem positionOf_eq_map (a : SlotArray α) (subs : List Subscript) (access : IndexAccess) :
    a.positionOf subs access = Location.answer <$> a.locate subs access := by
  unfold positionOf
  cases a.locate subs access with
  | error e => rfl
  | ok place => cases place <;> rfl

theorem answer_locateSurplus (whole : List Nat) (rank : Nat) (access : IndexAccess) :
    Location.answer <$> locateSurplus whole rank access =
      access.missed access.raiseTooMany (.tooManySubscripts rank) := by
  unfold locateSurplus IndexAccess.missed
  cases access.extend <;> cases access.raiseTooMany <;> rfl

theorem answer_locateLinear {a : SlotArray α} (hlinear : a.shape = none) (p : Nat)
    (access : IndexAccess) : Location.answer <$> a.locateLinear p access = a.answerFor access [p] := by
  have hlen : [p].length = a.dimensionCount := by rw [dimensionCount, hlinear]; rfl
  have hsizes : a.dimensionSizes = [a.size] := dimensionSizes_of_linear hlinear
  unfold locateLinear
  by_cases hle : p ≤ a.size
  · have hin : (⟨a.dimensionSizes⟩ : Shape).firstBeyond? [p] = none := by
      simp [hsizes, Shape.firstBeyond?, hle]
    rw [if_pos hle, answerFor_within access hlen hin, placeOf, hlinear]
    rfl
  · have hbeyond : (⟨a.dimensionSizes⟩ : Shape).firstBeyond? [p] = some 0 := by
      simp [hsizes, Shape.firstBeyond?, List.findIdx?_cons, Nat.lt_of_not_le hle]
    rw [if_neg hle, answerFor_beyond access hlen hbeyond, hsizes]
    unfold IndexAccess.missed
    cases access.extend <;> cases access.raiseOutOfRange <;> rfl

theorem answer_locateShaped {a : SlotArray α} {s : Shape} (hshape : a.shape = some s)
    {whole : List Nat} (hlen : whole.length = a.dimensionCount) (access : IndexAccess) :
    Location.answer <$> locateShaped s whole access = a.answerFor access whole := by
  have hsizes : a.dimensionSizes = s.sizes := dimensionSizes_of_shape hshape
  unfold locateShaped
  cases hfirst : s.firstBeyond? whole with
  | none =>
    have hin : (⟨a.dimensionSizes⟩ : Shape).firstBeyond? whole = none := by rwa [hsizes]
    rw [answerFor_within access hlen hin, placeOf, hshape]
    rfl
  | some i =>
    have hbeyond : (⟨a.dimensionSizes⟩ : Shape).firstBeyond? whole = some i := by rwa [hsizes]
    rw [answerFor_beyond access hlen hbeyond, hsizes]
    unfold IndexAccess.missed
    cases access.extend <;> cases access.raiseOutOfRange <;> rfl

/-- What a lookup comes to. -/
theorem positionOf_eq (a : SlotArray α) (subs : List Subscript) (access : IndexAccess) :
    a.positionOf subs access = wholeSubscripts subs >>= a.answerFor access := by
  rw [positionOf_eq_map, locate]
  cases hw : wholeSubscripts subs with
  | error e => rfl
  | ok whole =>
    have hne := (wholeSubscripts_eq_ok hw).2.1
    cases hshape : a.shape with
    | none =>
      have hcount : a.dimensionCount = 1 := by rw [dimensionCount, hshape]
      rcases whole with _ | ⟨p, _ | ⟨q, rest⟩⟩
      · exact absurd rfl hne
      · exact answer_locateLinear hshape p access
      · have hgt : a.dimensionCount < (p :: q :: rest).length := by simp [hcount]
        exact (answer_locateSurplus _ 1 access).trans (hcount ▸ (answerFor_of_gt access hgt).symm)
    | some s =>
      have hcount : a.dimensionCount = s.rank := by rw [dimensionCount, hshape]
      change Location.answer <$> (if s.rank < whole.length then _ else _) = a.answerFor access whole
      rw [← hcount]
      split
      · next hgt => exact (answer_locateSurplus _ _ access).trans (answerFor_of_gt access hgt).symm
      · split
        · next hlt => exact (answerFor_of_lt access hlt).symm
        · exact answer_locateShaped hshape (by omega) access

/-! ## Hidden errors -/

/-- The access asks for an error that the subscripts give reason for: there are more of them than
dimensions, or one of them exceeds its dimension. -/
def Reported (a : SlotArray α) (access : IndexAccess) (whole : List Nat) : Prop :=
  access.raiseTooMany = true ∧ a.dimensionCount < whole.length ∨
    access.raiseOutOfRange = true ∧ whole.length = a.dimensionCount ∧
      (⟨a.dimensionSizes⟩ : Shape).firstBeyond? whole ≠ none

theorem answerFor_eq_iff (a : SlotArray α) (access : IndexAccess) (whole : List Nat) :
    a.answerFor access whole = a.answerFor { access with extend := false } whole ↔
      (access.extend = true → ¬a.Reported access whole) := by
  unfold Reported
  rcases Nat.lt_trichotomy whole.length a.dimensionCount with hlt | heq | hgt
  · simp [answerFor_of_lt, hlt, Nat.lt_asymm hlt, Nat.ne_of_lt hlt]
  · cases hfirst : (⟨a.dimensionSizes⟩ : Shape).firstBeyond? whole with
    | none => simp [answerFor_within, heq, hfirst]
    | some i =>
      rw [answerFor_beyond access heq hfirst, answerFor_beyond _ heq hfirst]
      exact (access.missed_eq_iff _ _).trans (by simp [heq])
  · rw [answerFor_of_gt access hgt, answerFor_of_gt _ hgt]
    exact (access.missed_eq_iff _ _).trans (by simp [hgt, Nat.ne_of_gt hgt])

theorem answerFor_extend (a : SlotArray α) (access : IndexAccess) (whole : List Nat) :
    a.answerFor { access with extend := true } whole = a.answerFor .lookup whole := by
  rcases Nat.lt_trichotomy whole.length a.dimensionCount with hlt | heq | hgt
  · rw [answerFor_of_lt _ hlt, answerFor_of_lt _ hlt]
  · cases hfirst : (⟨a.dimensionSizes⟩ : Shape).firstBeyond? whole with
    | none => rw [answerFor_within _ heq hfirst, answerFor_within _ heq hfirst]
    | some i =>
      rw [answerFor_beyond _ heq hfirst, answerFor_beyond _ heq hfirst]
      rfl
  · rw [answerFor_of_gt _ hgt, answerFor_of_gt _ hgt]
    rfl

/-- An access that grows the array hides the errors that the same access reports without growing, and
these are all that it changes in a lookup: nothing is found then, as with an access that asks for no
error. -/
theorem positionOf_extend_iff (a : SlotArray α) (subs : List Subscript) (access : IndexAccess) :
    (a.positionOf subs access = a.positionOf subs { access with extend := false } ↔
      (access.extend = true → ∀ whole, wholeSubscripts subs = .ok whole →
        ¬a.Reported access whole)) ∧
    a.positionOf subs { access with extend := true } = a.positionOf subs .lookup := by
  simp only [positionOf_eq]
  cases wholeSubscripts subs with
  | error e =>
    refine ⟨⟨fun _ _ whole h => ?_, fun _ => rfl⟩, rfl⟩
    cases h
  | ok whole =>
    refine ⟨(a.answerFor_eq_iff access whole).trans ?_, a.answerFor_extend access whole⟩
    refine ⟨fun h hextend other hother => ?_, fun h hextend => h hextend whole rfl⟩
    cases hother
    exact h hextend

/-- A position beyond the end of an array of two slots is not reported by an access that would also
grow the array for it. -/
theorem growing_access_hides_error :
    let a : SlotArray Ref := { size := 2, storage := #[none, none] }
    let access : IndexAccess := { extend := true, raiseOutOfRange := true }
    ofSize 2 {} = .ok a ∧ a.positionOf [some 3] access = .ok none ∧
      a.positionOf [some 3] { access with extend := false } =
        .error (.subscriptOutOfRange 1 3 2) ∧
      a.positionOf [some 3] access ≠ a.positionOf [some 3] { access with extend := false } := by
  intro a access
  have hhidden : a.positionOf [some 3] access = .ok none := rfl
  have hreported : a.positionOf [some 3] { access with extend := false } =
      .error (.subscriptOutOfRange 1 3 2) := rfl
  refine ⟨rfl, hhidden, hreported, ?_⟩
  rw [hhidden, hreported]
  intro h
  cases h

end SlotArray

end Managed
