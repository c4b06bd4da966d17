import Managed.Proofs.Shape
import Managed.Proofs.SlotArray.Changes

/-!
# Where subscripts lead

What a lookup can answer is told once (`Located`, `located_of_locate`). Subscripts that are found to
name a position name one within the array, also when the array first had to grow for them
(`validateIndex_position`). What the growing does to the slots is told as for the other changes of an
array.
-/

namespace Managed.SlotArray

variable {α : Type}

theorem wholeFrom_pos {subscripts : List Subscript} {i : Nat} {whole : List Nat}
    (h : wholeFrom i subscripts = .ok whole) : ∀ sub ∈ whole, 1 ≤ sub := by
  induction subscripts generalizing i whole with
  | nil =>
    cases h
    simp
  | cons sub rest ih =>
    cases sub with
    | none => cases h
    | some value =>
      simp only [wholeFrom] at h
      split at h
      · cases h
      · obtain ⟨tail, htail, h⟩ := bind_eq_ok h
        cases h
        intro sub hsub
        rcases List.mem_cons.mp hsub with rfl | hsub
        · omega
        · exact ih htail sub hsub

theorem wholeSubscripts_pos {subscripts : List Subscript} {whole : List Nat}
    (h : wholeSubscripts subscripts = .ok whole) : whole ≠ [] ∧ ∀ sub ∈ whole, 1 ≤ sub := by
  unfold wholeSubscripts at h
  split at h
  · cases h
  · next hne =>
    refine ⟨?_, wholeFrom_pos h⟩
    rintro rfl
    match subscripts with
    | [] => exact hne rfl
    | none :: _ => cases h
    | some value :: rest =>
      simp only [wholeFrom] at h
      split at h
      · cases h
      · obtain ⟨_, _, h⟩ := bind_eq_ok h
        cases h

/-! ## The answers of a lookup -/

theorem length_dimensionSizes (a : SlotArray α) : a.dimensionSizes.length = a.dimensionCount := by
  unfold dimensionSizes dimensionCount
  split <;> rfl

theorem dimensionCount_of_linear {a : SlotArray α} (h : a.shape = none) : a.dimensionCount = 1 := by
  rw [dimensionCount, h]

theorem dimensionCount_of_shape {a : SlotArray α} {s : Shape} (h : a.shape = some s) :
    a.dimensionCount = s.rank := by
  rw [dimensionCount, h]

theorem length_of_within {a : SlotArray α} {u : List Nat} (h : Shape.Within u a.dimensionSizes) :
    u.length = a.dimensionCount := by
  rw [h.length_eq, length_dimensionSizes]

theorem dimensionSizes_of_linear {a : SlotArray α} (h : a.shape = none) :
    a.dimensionSizes = [a.size] := by
  rw [dimensionSizes, h]

theorem dimensionSizes_of_shape {a : SlotArray α} {s : Shape} (h : a.shape = some s) :
    a.dimensionSizes = s.sizes := by
  rw [dimensionSizes, h]

/-- What a lookup can answer, one case for each kind of answer. -/
inductive Located (a : SlotArray α) (access : IndexAccess) (whole : List Nat) : Location → Prop where
  | linear {p : Nat} : a.shape = none → whole = [p] → p ≤ a.size →
    Located a access whole (.position p)
  | shaped {s : Shape} : a.shape = some s → Shape.Within whole s.sizes →
    Located a access whole (.position (Word.add (s.offset whole) 1))
  | beyond {p : Nat} : access.extend = true → a.shape = none → whole = [p] → a.size < p →
    Located a access whole (.beyond p)
  | outside : access.extend = true → a.dimensionCount ≤ whole.length →
    (a.shape = none → 2 ≤ whole.length) → Located a access whole (.outside whole)
  | nowhere : access.extend = false → ¬Shape.Within whole a.dimensionSizes →
    (access.raiseTooMany = true → whole.length = a.dimensionCount) →
    Located a access whole .nowhere

section

variable {a : SlotArray α} {access : IndexAccess} {whole : List Nat} {place : Location}

theorem located_linear (hshape : a.shape = none) {p : Nat}
    (h : a.locateLinear p access = .ok place) : a.Located access [p] place := by
  unfold locateLinear at h
  split at h
  · next hle =>
    cases h
    exact .linear hshape rfl hle
  · next hle =>
    split at h
    · next hextend =>
      cases h
      exact .beyond hextend hshape rfl (Nat.lt_of_not_le hle)
    · next hextend =>
      split at h
      · cases h
      · cases h
        refine .nowhere (Bool.eq_false_iff.mpr hextend) (fun hw => ?_)
          fun _ => (dimensionCount_of_linear hshape).symm
        rw [dimensionSizes_of_linear hshape] at hw
        exact hle hw.2.1

theorem located_surplus (hmany : a.dimensionCount < whole.length) {rank : Nat}
    (h : locateSurplus whole rank access = .ok place) : a.Located access whole place := by
  unfold locateSurplus at h
  split at h
  · next hextend =>
    cases h
    refine .outside hextend (Nat.le_of_lt hmany) fun hshape => ?_
    rwa [dimensionCount_of_linear hshape] at hmany
  · next hextend =>
    split at h
    · cases h
    · next hraise =>
      cases h
      refine .nowhere (Bool.eq_false_iff.mpr hextend) (fun hw => ?_)
        fun hraise' => absurd hraise' hraise
      exact Nat.ne_of_gt hmany (length_of_within hw)

theorem located_shaped {s : Shape} (hshape : a.shape = some s) (hlen : whole.length = s.rank)
    (hpos : ∀ sub ∈ whole, 1 ≤ sub) (h : locateShaped s whole access = .ok place) :
    a.Located access whole place := by
  have hcount : whole.length = a.dimensionCount := hlen.trans (dimensionCount_of_shape hshape).symm
  unfold locateShaped at h
  split at h
  · next hin =>
    cases h
    exact .shaped hshape (Shape.within_of_firstBeyond? hlen hpos hin)
  · next i hbeyond =>
    split at h
    · next hextend =>
      cases h
      refine .outside hextend (Nat.le_of_eq hcount.symm) fun hnone => ?_
      rw [hshape] at hnone
      cases hnone
    · next hextend =>
      split at h
      · cases h
      · cases h
        refine .nowhere (Bool.eq_false_iff.mpr hextend) (fun hw => ?_) fun _ => hcount
        rw [dimensionSizes_of_shape hshape] at hw
        rw [Shape.firstBeyond?_of_within hw] at hbeyond
        cases hbeyond

theorem located_of_locate {subscripts : List Subscript} (h : a.locate subscripts access = .ok place) :
    ∃ whole, wholeSubscripts subscripts = .ok whole ∧ a.Located access whole place := by
  obtain ⟨whole, hw, h⟩ := bind_eq_ok h
  obtain ⟨hne, hpos⟩ := wholeSubscripts_pos hw
  have hlong : a.shape = none → (∀ p, whole ≠ [p]) → a.dimensionCount < whole.length := by
    intro hshape hmany
    have hlen := List.length_pos_iff.mpr hne
    have hone : whole.length ≠ 1 := fun hone => by
      obtain ⟨p, hp⟩ := List.length_eq_one_iff.mp hone
      exact hmany p hp
    rw [dimensionCount_of_linear hshape]
    omega
  refine ⟨whole, hw, ?_⟩
  split at h
  · next hshape => exact located_linear hshape h
  · next hshape hmany => exact located_surplus (hlong hshape hmany) h
  · next s hshape =>
    split at h
    · next hmany => exact located_surplus (by rwa [dimensionCount_of_shape hshape]) h
    · split at h
      · cases h
      · exact located_shaped hshape (by omega) hpos h

end

/-- Subscripts that name a position name one of the array. -/
theorem locate_position {a : SlotArray α} (ha : a.Shaped) {subscripts : List Subscript}
    {access : IndexAccess} {p : Nat} (h : a.locate subscripts access = .ok (.position p)) :
    p - 1 < a.size := by
  obtain ⟨whole, hw, hat⟩ := located_of_locate h
  cases hat with
  | linear _ hwhole hle =>
    have hpos := (wholeSubscripts_pos hw).2 p (by rw [hwhole]; exact List.mem_cons_self)
    omega
  | @shaped s hs hin =>
    rw [(ha s hs).2]
    exact Shape.position_sub_one_lt hin

/-- Positions start at one, unless the array has too many slots to be counted. -/
theorem locate_pos {a : SlotArray α} (ha : a.Shaped) (hsize : a.size < Word.max)
    {subscripts : List Subscript} {access : IndexAccess} {p : Nat}
    (h : a.locate subscripts access = .ok (.position p)) : 1 ≤ p := by
  obtain ⟨whole, hw, hat⟩ := located_of_locate h
  cases hat with
  | linear _ hwhole _ => exact (wholeSubscripts_pos hw).2 p (by rw [hwhole]; exact List.mem_cons_self)
  | @shaped s hs hin =>
    have hcount := (ha s hs).2
    cases hc : s.count? with
    | none =>
      rw [hc, Option.getD_none] at hcount
      omega
    | some n =>
      obtain ⟨heq, _⟩ := Shape.position_of_count? hc hin
      omega

theorem lt_of_locate_beyond {a : SlotArray α} {subscripts : List Subscript} {access : IndexAccess}
    {p : Nat} (h : a.locate subscripts access = .ok (.beyond p)) : a.size < p := by
  obtain ⟨_, _, hat⟩ := located_of_locate h
  cases hat with
  | beyond _ _ _ hlt => exact hlt

theorem positionOf_eq_some {a : SlotArray α} {subscripts : List Subscript} {access : IndexAccess}
    {p : Nat} (h : a.positionOf subscripts access = .ok (some p)) :
    a.locate subscripts access = .ok (.position p) := by
  obtain ⟨found, hf, h⟩ := bind_eq_ok h
  split at h
  · cases h
    exact hf
  · cases h

/-- Looking for subscripts leaves the array alone, extends it or grows its dimensions. -/
theorem validateIndex_eq_ok {a b : SlotArray α} {subscripts : List Subscript} {access : IndexAccess}
    {limits : ArrayLimits} {found : Option Nat}
    (h : a.validateIndex subscripts access limits = .ok (found, b)) :
    (b = a ∧ ∀ p, found = some p → a.locate subscripts access = .ok (.position p)) ∨
      (∃ p, a.size < p ∧ found = some p ∧ a.extend (p - a.size) limits = .ok b) ∨
      (∃ whole, a.cover whole limits = .ok b) ∧
        ∀ p, found = some p → b.locate subscripts access = .ok (.position p) := by
  rw [validateIndex_eq] at h
  obtain ⟨place, hplace, h⟩ := bind_eq_ok h
  split at h
  · cases h
    refine Or.inl ⟨rfl, fun p hp => ?_⟩
    cases hp
    exact hplace
  · next p =>
    obtain ⟨e, he, h⟩ := bind_eq_ok h
    cases h
    exact Or.inr (Or.inl ⟨p, lt_of_locate_beyond hplace, rfl, he⟩)
  · next whole =>
    obtain ⟨e, he, h⟩ := bind_eq_ok h
    obtain ⟨q, hq, h⟩ := bind_eq_ok h
    cases h
    refine Or.inr (Or.inr ⟨⟨whole, he⟩, fun p hp => ?_⟩)
    cases hp
    exact positionOf_eq_some hq
  · cases h
    exact Or.inl ⟨rfl, fun p hp => nomatch hp⟩

section

variable {a b : SlotArray α} (ha : a.Padded) {subscripts : List Subscript} {access : IndexAccess}
  {limits : ArrayLimits} {found : Option Nat}
  (h : a.validateIndex subscripts access limits = .ok (found, b))
include ha h

theorem padded_validateIndex (hroom : b.capacity < Word.max) : b.Padded := by
  rcases validateIndex_eq_ok h with ⟨rfl, _⟩ | ⟨p, _, _, he⟩ | ⟨⟨whole, hc⟩, _⟩
  · exact ha
  · exact padded_extend ha he hroom
  · rcases cover_eq_ok hc with rfl | ⟨s, t, _, rfl⟩
    · exact ha
    · exact padded_moveTo a s t _

omit ha in
theorem shaped_validateIndex (hs : a.Shaped) : b.Shaped := by
  rcases validateIndex_eq_ok h with ⟨rfl, _⟩ | ⟨p, _, _, he⟩ | ⟨⟨whole, hc⟩, _⟩
  · exact hs
  · exact shaped_extend he
  · exact shaped_cover hs hc

theorem slotAt_validateIndex {i : Nat} {x : α} (hx : b.slotAt i = some x) : x ∈ a.allItems := by
  have hkept : ∀ j, a.slotAt j = some x → x ∈ a.allItems := fun j hj =>
    mem_allItems.mpr ⟨j, ha.lt_size (by rw [hj]; rfl), hj⟩
  rcases validateIndex_eq_ok h with ⟨rfl, _⟩ | ⟨p, _, _, he⟩ | ⟨⟨whole, hc⟩, _⟩
  · exact hkept i hx
  · exact hkept i (by rwa [slotAt_extend ha he] at hx)
  · rcases cover_eq_ok hc with rfl | ⟨s, t, _, rfl⟩
    · exact hkept i hx
    · exact slotAt_moveTo hx

theorem capacity_validateIndex_le {bound : Nat} (hbound : a.capacity ≤ bound)
    (hmax : limits.maxElements ≤ bound) : b.capacity ≤ bound := by
  rcases validateIndex_eq_ok h with ⟨rfl, _⟩ | ⟨p, _, _, he⟩ | ⟨⟨whole, hc⟩, _⟩
  · exact hbound
  · exact capacity_extend_le ha he hbound hmax
  · rcases cover_eq_ok hc with rfl | ⟨s, t, hle, rfl⟩
    · exact hbound
    · rw [← size_eq_capacity_moveTo]
      exact Nat.le_trans hle hmax

/-- The position that is found lies within the array. -/
theorem validateIndex_position (hs : a.Shaped) (hroom : b.capacity < Word.max) {p : Nat}
    (hp : found = some p) : p - 1 < b.size := by
  have hb := shaped_validateIndex h hs
  rcases validateIndex_eq_ok h with ⟨rfl, hat⟩ | ⟨q, hlt, hq, he⟩ | ⟨_, hat⟩
  · exact locate_position hs (hat p hp)
  · rw [hp] at hq
    cases hq
    have hsize := size_extend ha he hroom
    omega
  · exact locate_position hb (hat p hp)

theorem validateIndex_pos (hs : a.Shaped) (hroom : b.capacity < Word.max) {p : Nat}
    (hp : found = some p) : 1 ≤ p := by
  have hb := shaped_validateIndex h hs
  have hsize : b.size < Word.max :=
    Nat.lt_of_le_of_lt (padded_validateIndex ha h hroom).size_le hroom
  rcases validateIndex_eq_ok h with ⟨rfl, hat⟩ | ⟨q, hlt, hq, _⟩ | ⟨_, hat⟩
  · exact locate_pos hs hsize (hat p hp)
  · rw [hp] at hq
    cases hq
    omega
  · exact locate_pos hb hsize (hat p hp)

end

/-! ## The second lookup -/

/-- Subscripts lie outside the dimensions only if the array may grow and they are not too few. -/
theorem locate_eq_outside {a : SlotArray α} {subscripts : List Subscript} {access : IndexAccess}
    {whole : List Nat} (h : a.locate subscripts access = .ok (.outside whole)) :
    wholeSubscripts subscripts = .ok whole ∧ access.extend = true ∧
      a.dimensionCount ≤ whole.length ∧ (a.shape = none → 2 ≤ whole.length) := by
  obtain ⟨_, hw, hat⟩ := located_of_locate h
  cases hat with
  | outside hextend hcount hlinear => exact ⟨hw, hextend, hcount, hlinear⟩

/-- If the array may grow, subscripts that are not too few lead somewhere. -/
theorem exists_positionOf {a : SlotArray α} {subscripts : List Subscript} {access : IndexAccess}
    {whole : List Nat} (hw : wholeSubscripts subscripts = .ok whole) (hextend : access.extend = true)
    (hrank : a.dimensionCount ≤ whole.length) :
    ∃ found, a.positionOf subscripts access = .ok found := by
  obtain ⟨place, hplace⟩ : ∃ place, a.locate subscripts access = .ok place := by
    rw [locate, hw]
    cases hshape : a.shape with
    | none =>
      match whole with
      | [] => exact ⟨_, if_pos hextend⟩
      | [position] =>
        by_cases hle : position ≤ a.size
        · exact ⟨_, if_pos hle⟩
        · exact ⟨_, (if_neg hle).trans (if_pos hextend)⟩
      | _ :: _ :: _ => exact ⟨_, if_pos hextend⟩
    | some s =>
      change ∃ place, (if s.rank < whole.length then _ else _) = Except.ok place
      by_cases hlt : s.rank < whole.length
      · exact ⟨_, (if_pos hlt).trans (if_pos hextend)⟩
      · rw [dimensionCount_of_shape hshape] at hrank
        rw [if_neg hlt, if_neg (by omega), locateShaped]
        split
        · exact ⟨_, rfl⟩
        · exact ⟨_, if_pos hextend⟩
  rw [positionOf, hplace]
  cases place <;> exact ⟨_, rfl⟩

/-- An array whose dimensions have grown for subscripts has no more of them. -/
theorem dimensionCount_cover_le {a b : SlotArray α} {whole : List Nat} {limits : ArrayLimits}
    (hne : whole ≠ []) (hcount : a.dimensionCount ≤ whole.length) (h : a.cover whole limits = .ok b) :
    b.dimensionCount ≤ whole.length := by
  rw [cover_eq] at h
  dsimp only at h
  split at h
  · cases h
  · split at h
    · cases h
      exact hcount
    · obtain ⟨_, _, h⟩ := bind_eq_ok h
      cases h
      simp only [dimensionCount, moveTo, recount]
      split
      · next s hs =>
        split at hs
        · cases hs
          rw [Shape.rank, List.length_zipWith]
          exact Nat.min_le_right _ _
        · cases hs
      · exact List.length_pos_iff.mpr hne

theorem two_le_of_outside {a : SlotArray α} (ha : a.Shaped) {subscripts : List Subscript}
    {access : IndexAccess} {whole : List Nat}
    (h : a.locate subscripts access = .ok (.outside whole)) : 2 ≤ whole.length := by
  obtain ⟨_, _, hcount, hlinear⟩ := locate_eq_outside h
  cases hshape : a.shape with
  | none => exact hlinear hshape
  | some s =>
    rw [dimensionCount_of_shape hshape] at hcount
    exact Nat.le_trans (ha s hshape).1 hcount

/-- An array holds the subscripts for which its dimensions have grown. -/
theorem within_cover {a b : SlotArray α} {whole : List Nat} {limits : ArrayLimits}
    (hpos : ∀ sub ∈ whole, 1 ≤ sub) (htwo : 2 ≤ whole.length) (h : a.cover whole limits = .ok b) :
    ∃ s, b.shape = some s ∧ Shape.Within whole s.sizes := by
  rw [cover_eq] at h
  dsimp only at h
  split at h
  · cases h
  · next hfew =>
    have hlen : (List.replicate (whole.length - a.growingSizes.length) 1 ++ a.growingSizes).length =
        whole.length := by
      rw [List.length_append, List.length_replicate]
      omega
    have hin := Shape.within_zipWith_max hlen hpos
    split at h
    · next hkeep =>
      cases h
      obtain ⟨hsizes, hadded⟩ := hkeep
      rw [hsizes, hadded] at hin
      unfold growingSizes at hin hadded
      cases hshape : a.shape with
      | some s =>
        rw [hshape] at hin
        exact ⟨s, rfl, hin⟩
      | none =>
        rw [hshape] at hadded
        dsimp only at hadded
        split at hadded
        · rw [List.length_nil] at hadded
          omega
        · rw [List.length_singleton] at hadded
          omega
    · obtain ⟨_, _, h⟩ := bind_eq_ok h
      cases h
      refine ⟨_, ?_, hin⟩
      simp only [moveTo, recount]
      rw [if_pos]
      rw [Shape.rank, List.length_zipWith, hlen]
      omega

/-- Subscripts within the dimensions lead to a position. -/
theorem positionOf_of_within {a : SlotArray α} {s : Shape} (hshape : a.shape = some s)
    {subscripts : List Subscript} {whole : List Nat} (hw : wholeSubscripts subscripts = .ok whole)
    (hin : Shape.Within whole s.sizes) (access : IndexAccess) :
    a.positionOf subscripts access = .ok (some (Word.add (s.offset whole) 1)) := by
  have hrank : whole.length = s.rank := hin.length_eq
  have hlocate : a.locate subscripts access = .ok (.position (Word.add (s.offset whole) 1)) := by
    rw [locate, hw, hshape]
    change (if s.rank < whole.length then _ else _) = _
    rw [if_neg (by omega), if_neg (by omega), locateShaped, Shape.firstBeyond?_of_within hin]
  rw [positionOf, hlocate]
  rfl

theorem locate_ne_nowhere {a : SlotArray α} {subscripts : List Subscript} {access : IndexAccess}
    (hextend : access.extend = true) : a.locate subscripts access ≠ .ok .nowhere := by
  intro h
  obtain ⟨_, _, hat⟩ := located_of_locate h
  cases hat with
  | nowhere hfixed =>
    rw [hextend] at hfixed
    cases hfixed

/-- An array that may grow is found to have the position, if it is not refused. -/
theorem exists_of_validateIndex {a b : SlotArray α} (ha : a.Shaped) {subscripts : List Subscript}
    {access : IndexAccess} (hextend : access.extend = true) {limits : ArrayLimits}
    {found : Option Nat} (h : a.validateIndex subscripts access limits = .ok (found, b)) :
    ∃ p, found = some p := by
  rw [validateIndex_eq] at h
  obtain ⟨place, hplace, h⟩ := bind_eq_ok h
  cases place with
  | position p =>
    cases h
    exact ⟨p, rfl⟩
  | beyond p =>
    obtain ⟨_, _, h⟩ := bind_eq_ok h
    cases h
    exact ⟨p, rfl⟩
  | outside whole =>
    obtain ⟨e, he, h⟩ := bind_eq_ok h
    obtain ⟨q, hq, h⟩ := bind_eq_ok h
    cases h
    have hw := (locate_eq_outside hplace).1
    obtain ⟨s, hshape, hin⟩ := within_cover (wholeSubscripts_pos hw).2 (two_le_of_outside ha hplace) he
    rw [positionOf_of_within hshape hw hin] at hq
    exact ⟨_, (Except.ok.inj hq).symm⟩
  | nowhere => exact absurd hplace (locate_ne_nowhere hextend)

end Managed.SlotArray

namespace Managed.ArrayM

open SlotArray

/-- Looking for subscripts looks a second time after the array has grown, but then it does not fail
any more. -/
theorem restores_validateIndex {α : Type} (subscripts : List Subscript) (access : IndexAccess)
    (limits : ArrayLimits) :
    (validateIndex subscripts access limits : ArrayM α (Option Nat)).Restores := by
  intro a e c h
  rw [validateIndex, bind_apply, ask] at h
  cases hplace : a.locate subscripts access with
  | error e' =>
    rw [hplace] at h
    cases h
    rfl
  | ok place =>
    rw [hplace] at h
    cases place with
    | position p => cases h
    | nowhere => cases h
    | beyond p =>
      have hextend : (extend (p - a.size) limits >>= fun _ => pure (some p) : ArrayM α _).Restores :=
        (restores_extend _ limits).bind fun _ => succeeds_pure _
      exact hextend a e c h
    | outside whole =>
      obtain ⟨hw, hextend, hcount, _⟩ := locate_eq_outside hplace
      dsimp only at h
      rw [bind_apply] at h
      cases hcover : cover whole limits a with
      | error e' d =>
        rw [hcover] at h
        cases h
        exact restores_cover whole limits a _ _ hcover
      | ok u b =>
        rw [hcover] at h
        have hb : a.cover whole limits = .ok b := by
          rw [SlotArray.cover, outcome, hcover]
          rfl
        have hgrown := dimensionCount_cover_le (wholeSubscripts_pos hw).1 hcount hb
        obtain ⟨found, hfound⟩ := exists_positionOf hw hextend hgrown
        dsimp only at h
        rw [ask, hfound] at h
        cases h

theorem restores_remove {α : Type} (subscripts : List Subscript) :
    (remove subscripts : ArrayM α (Option α)).Restores :=
  (looks_ask _).bind fun found => by
    cases found with
    | none => exact (succeeds_pure none).restores
    | some p => exact (succeeds_clear p).restores

/-- A store is refused and leaves the array as it was, or puts the item at the position that has been
found. Only in an array whose dimensions do not tell its size may the position be missing. -/
theorem store_cases {α : Type} (subscripts : List Subscript) (value : α) (limits : ArrayLimits)
    (a : SlotArray α) :
    (∃ e, store subscripts value limits a = .error e a) ∨
      (∃ p b, a.validateIndex subscripts .write limits = .ok (some p, b) ∧
        store subscripts value limits a = .ok () (b.put p (some value))) ∨
      ∃ e b, ¬a.Shaped ∧ a.validateIndex subscripts .write limits = .ok (none, b) ∧
        store subscripts value limits a = .error e b := by
  have happly := (restores_validateIndex subscripts .write limits).apply_eq a
  rw [store, bind_apply, happly]
  cases hfound : (validateIndex subscripts .write limits).outcome a with
  | error e => exact Or.inl ⟨e, rfl⟩
  | ok q =>
    obtain ⟨_ | p, b⟩ := q
    · refine Or.inr (Or.inr ⟨_, b, fun ha => ?_, hfound, rfl⟩)
      obtain ⟨p, hp⟩ := exists_of_validateIndex ha rfl hfound
      cases hp
    · exact Or.inr (Or.inl ⟨p, b, hfound, rfl⟩)

section

variable {α : Type} {subscripts : List Subscript} {a c : SlotArray α}

theorem store_eq_ok {value : α} {limits : ArrayLimits} {u : Unit}
    (h : store subscripts value limits a = .ok u c) :
    ∃ p b, a.validateIndex subscripts .write limits = .ok (some p, b) ∧ c = b.put p (some value) := by
  rcases store_cases subscripts value limits a with
    ⟨e, herr⟩ | ⟨p, b, hb, hok⟩ | ⟨e, b, _, _, herr⟩
  · rw [herr] at h
    cases h
  · rw [hok] at h
    cases h
    exact ⟨p, b, hb, rfl⟩
  · rw [herr] at h
    cases h

theorem store_error {value : α} {limits : ArrayLimits} {e : Fault} (ha : a.Shaped)
    (h : store subscripts value limits a = .error e c) : c = a := by
  rcases store_cases subscripts value limits a with
    ⟨e', herr⟩ | ⟨p, b, hb, hok⟩ | ⟨e', b, hnot, _⟩
  · rw [herr] at h
    cases h
    rfl
  · rw [hok] at h
    cases h
  · exact absurd ha hnot

theorem remove_eq_ok {found : Option α} (h : remove subscripts a = .ok found c) :
    (∃ p, a.positionOf subscripts .read = .ok (some p) ∧ found = (a.clear p).1 ∧
      c = (a.clear p).2) ∨
      a.positionOf subscripts .read = .ok none ∧ found = none ∧ c = a := by
  rw [remove, bind_apply, ask] at h
  cases hp : a.positionOf subscripts .read with
  | error e =>
    rw [hp] at h
    cases h
  | ok position =>
    rw [hp] at h
    cases position with
    | none =>
      cases h
      exact Or.inr ⟨rfl, rfl, rfl⟩
    | some p =>
      cases h
      exact Or.inl ⟨p, rfl, rfl, rfl⟩

end

end Managed.ArrayM
