import Managed.Proofs.SlotArray.Covering

/-!
# Looking up subscripts and growing for them

A store looks for its subscripts, makes the array grow if it does not hold them, and then looks for them
once more. The second lookup finds what the array has grown for, so an array never grows in vain: either
the subscripts lead to their row-major position in the array as it is then, whatever the access, or the
array is as it was (`validateIndex_sound_complete`).

An array is changed in place, so what matters is the array that is left and not only the one that is
answered. `validateInPlace` keeps both.
-/

namespace Managed

open Shape

namespace SlotArray

variable {α : Type} {a b : SlotArray α}

/-! ## Subscripts within the dimensions -/

theorem Represented.sized (ha : a.Represented) : a.Sized :=
  ⟨ha.dimensions, ha.word⟩

/-- Subscripts within the dimensions lead to their place in row-major order, whatever the access. -/
theorem locate_of_within (ha : a.Sized) {u : List Nat} (hu : Within u a.dimensionSizes)
    (access : IndexAccess) :
    a.locate (Subscript.ofTuple u) access = .ok (.position (rowMajor a.dimensionSizes u + 1)) := by
  have hrank := ha.dimensionCount_pos
  have hlen := length_of_within hu
  have hne : u ≠ [] := List.ne_nil_of_length_pos (by omega)
  rw [locate, wholeSubscripts_ofTuple hne hu.pos]
  cases hshape : a.shape with
  | none =>
    rw [dimensionSizes_of_linear hshape] at hu ⊢
    obtain ⟨p, rfl, hpos, hle⟩ := within_singleton.mp hu
    rw [rowMajor_singleton, Nat.sub_add_cancel hpos]
    exact if_pos hle
  | some s =>
    have hsizes : a.dimensionSizes = s.sizes := dimensionSizes_of_shape hshape
    rw [hsizes] at hu ⊢
    rw [dimensionCount_of_shape hshape] at hlen
    change (if s.rank < u.length then _ else _) = _
    rw [if_neg (by omega), if_neg (by omega), locateShaped, firstBeyond?_of_within hu]
    exact congrArg (Except.ok ∘ Location.position) (ha.position_eq hshape hu)

/-- The subscripts are all given and within the dimensions, and `p` is their position in row-major
order. -/
def Addressed (a : SlotArray α) (subs : List Subscript) (p : Nat) : Prop :=
  ∃ u, subs = Subscript.ofTuple u ∧ Within u a.dimensionSizes ∧ p = rowMajor a.dimensionSizes u + 1

section

variable {subs : List Subscript} {p : Nat} (h : a.Addressed subs p) (ha : a.Sized)
include h

theorem Addressed.pos : 1 ≤ p := by
  obtain ⟨u, _, _, rfl⟩ := h
  exact Nat.le_add_left 1 _

include ha

theorem Addressed.le_size : p ≤ a.size := by
  obtain ⟨u, _, hu, rfl⟩ := h
  exact ha.position_le hu

theorem Addressed.positionOf_eq (access : IndexAccess) : a.positionOf subs access = .ok (some p) := by
  obtain ⟨u, rfl, hu, rfl⟩ := h
  rw [positionOf, locate_of_within ha hu]
  rfl

end

/-! ## Growing for subscripts -/

theorem check_eq_error {limits : ArrayLimits} {size : Nat} {e : Fault}
    (h : limits.check size = .error e) :
    limits.maxElements < size ∧ e = .capacityExceeded size limits.maxElements := by
  unfold ArrayLimits.check at h
  split at h
  · next hlt => exact ⟨hlt, (Except.error.inj h).symm⟩
  · cases h

theorem bind_eq_error {ε β γ : Type} {act : Except ε β} {next : β → Except ε γ} {e : ε}
    (h : act >>= next = .error e) : act = .error e ∨ ∃ b, act = .ok b ∧ next b = .error e := by
  cases act with
  | error e' =>
    cases h
    exact Or.inl rfl
  | ok b => exact Or.inr ⟨b, rfl, h⟩

theorem extend_of_linear (hlinear : a.shape = none) (extension : Nat) (limits : ArrayLimits) :
    a.extend extension limits = do
      limits.check (Word.addSat a.size extension)
      return { a.withRoom (Word.addSat a.size extension) limits with
        size := Word.addSat a.size extension } := by
  have hrequire : a.requireLinear .extend = .ok () := by
    rw [requireLinear, hlinear]
    rfl
  rw [extend_eq, hrequire]
  rfl

theorem extend_eq_error (hlinear : a.shape = none) {extension : Nat} {limits : ArrayLimits} {e : Fault}
    (h : a.extend extension limits = .error e) :
    ∃ requested, limits.maxElements < requested ∧
      e = .capacityExceeded requested limits.maxElements := by
  rw [extend_of_linear hlinear] at h
  rcases bind_eq_error h with hcheck | ⟨_, _, h⟩
  · exact ⟨_, check_eq_error hcheck⟩
  · cases h

theorem cover_eq_error {subs : List Nat} (hlen : a.growingSizes.length ≤ subs.length)
    {limits : ArrayLimits} {e : Fault} (h : a.cover subs limits = .error e) :
    ∃ requested, limits.maxElements < requested ∧
      e = .capacityExceeded requested limits.maxElements := by
  rw [cover_eq_moveTo, if_neg (Nat.not_lt.mpr hlen)] at h
  split at h
  · cases h
  · rcases bind_eq_error h with hcheck | ⟨_, _, h⟩
    · exact ⟨_, check_eq_error hcheck⟩
    · cases h

theorem length_growingSizes_le (a : SlotArray α) : a.growingSizes.length ≤ a.dimensionCount := by
  cases hshape : a.shape with
  | some s => simp only [growingSizes, dimensionCount, hshape, Shape.rank, Nat.le_refl]
  | none =>
    simp only [growingSizes, dimensionCount, hshape]
    split <;> simp

theorem dimensionSizes_eq_growingSizes (h : 2 ≤ a.growingSizes.length) :
    a.dimensionSizes = a.growingSizes := by
  cases hshape : a.shape with
  | some s => rw [dimensionSizes, growingSizes, hshape]
  | none =>
    have hle := a.length_growingSizes_le
    rw [dimensionCount_of_linear hshape] at hle
    omega

/-- An array of one dimension holds the position to which it has been extended. -/
theorem addressed_extend {limits : ArrayLimits} (hmax : limits.maxElements < Word.max) {p : Nat}
    (hbeyond : a.size < p) (h : a.extend (p - a.size) limits = .ok b) :
    b.Addressed [some (p : Int)] p ∧ b.Sized := by
  have hlinear := linear_extend h
  have hsize : b.size = p := by
    rw [size_extend_of_lt h hmax]
    omega
  have hsizes := dimensionSizes_of_linear hlinear
  refine ⟨⟨[p], rfl, ?_, ?_⟩, fun s hs => ?_, ?_⟩
  · rw [hsizes, hsize]
    exact within_singleton.mpr ⟨p, rfl, by omega, Nat.le_refl p⟩
  · rw [hsizes, rowMajor_singleton]
    omega
  · rw [hlinear] at hs
    cases hs
  · obtain ⟨_, hle, rfl⟩ := extend_eq_ok h
    exact Nat.lt_of_le_of_lt hle (Nat.lt_of_lt_of_le hmax (Nat.sub_le _ _))

/-- An array holds the subscripts for which its dimensions have grown. -/
theorem addressed_cover (ha : a.Represented) {limits : ArrayLimits}
    (hmax : limits.maxElements < Word.max) {u : List Nat} (hpos : ∀ x ∈ u, 1 ≤ x)
    (hlen : 2 ≤ u.length) (hrank : a.dimensionCount ≤ u.length) (h : a.cover u limits = .ok b) :
    b.Addressed (Subscript.ofTuple u) (rowMajor b.dimensionSizes u + 1) ∧ b.Sized := by
  have hgrowing : a.growingSizes.length ≤ u.length := Nat.le_trans a.length_growingSizes_le hrank
  obtain ⟨hb, hsizes, _, _⟩ := relocated_cover ha hmax h
  have hcover : b.dimensionSizes = a.coverSizes u := by
    rw [← hsizes]
    refine dimensionSizes_eq_growingSizes ?_
    rwa [hsizes, length_coverSizes hgrowing]
  refine ⟨⟨u, rfl, ?_, rfl⟩, hb.sized⟩
  rw [hcover]
  exact within_zipWith_max (length_framedSizes hgrowing) hpos

/-! ## Lookups in place -/

/-- What a lookup answers, and the array that it leaves. An array that has grown stays so, whatever the
second lookup says. -/
def validateInPlace (a : SlotArray α) (subs : List Subscript) (access : IndexAccess)
    (limits : ArrayLimits) : Except Fault (Option Nat) × SlotArray α :=
  match ArrayM.validateIndex subs access limits a with
  | .ok found b => (.ok found, b)
  | .error e b => (.error e, b)

theorem validateIndex_eq_inPlace (a : SlotArray α) (subs : List Subscript) (access : IndexAccess)
    (limits : ArrayLimits) :
    a.validateIndex subs access limits =
      (a.validateInPlace subs access limits).1.map
        fun found => (found, (a.validateInPlace subs access limits).2) := by
  rw [validateIndex, ArrayM.outcome, validateInPlace]
  cases ArrayM.validateIndex subs access limits a <;> rfl

theorem validateInPlace_eq (a : SlotArray α) (subs : List Subscript) (access : IndexAccess)
    (limits : ArrayLimits) :
    a.validateInPlace subs access limits =
      match a.locate subs access with
      | .error e => (.error e, a)
      | .ok (.position p) => (.ok (some p), a)
      | .ok (.beyond p) =>
        match a.extend (p - a.size) limits with
        | .ok b => (.ok (some p), b)
        | .error e => (.error e, a)
      | .ok (.outside whole) =>
        match a.cover whole limits with
        | .ok b => (b.positionOf subs access, b)
        | .error e => (.error e, a)
      | .ok .nowhere => (.ok none, a) := by
  rw [validateInPlace, ArrayM.validateIndex, ArrayM.bind_apply, ArrayM.ask]
  cases a.locate subs access with
  | error e => rfl
  | ok place =>
    cases place with
    | position p => rfl
    | nowhere => rfl
    | beyond p =>
      have hextend : ArrayM.extend (p - a.size) limits a = match a.extend (p - a.size) limits with
          | .ok b => .ok () b
          | .error e => .error e a :=
        (ArrayM.restores_extend (p - a.size) limits).apply_unit a
      change (match (ArrayM.extend (p - a.size) limits >>= fun _ => pure (some p) : ArrayM α _) a with
        | .ok found b => _ | .error e b => _) = _
      rw [ArrayM.bind_apply, hextend]
      dsimp only
      cases a.extend (p - a.size) limits <;> rfl
    | outside whole =>
      have hcover : ArrayM.cover whole limits a = match a.cover whole limits with
          | .ok b => .ok () b
          | .error e => .error e a :=
        (ArrayM.restores_cover whole limits).apply_unit a
      dsimp only
      rw [ArrayM.bind_apply, hcover]
      cases a.cover whole limits with
      | error e => rfl
      | ok b =>
        dsimp only
        rw [ArrayM.ask]
        cases b.positionOf subs access <;> rfl

/-- What a lookup in place comes to. -/
inductive Looked (a : SlotArray α) (subs : List Subscript) (access : IndexAccess)
    (limits : ArrayLimits) : Except Fault (Option Nat) → SlotArray α → Prop where
  | refused {e : Fault} : a.locate subs access = .error e → Looked a subs access limits (.error e) a
  | found {p : Nat} : a.Addressed subs p → Looked a subs access limits (.ok (some p)) a
  | missed : access.extend = false → Looked a subs access limits (.ok none) a
  | grown {p : Nat} {b : SlotArray α} : access.extend = true → b.Addressed subs p → b.Sized →
    Looked a subs access limits (.ok (some p)) b
  | full {requested : Nat} : limits.maxElements < requested →
    Looked a subs access limits (.error (.capacityExceeded requested limits.maxElements)) a

theorem looked_validateInPlace (ha : a.Represented) (subs : List Subscript) (access : IndexAccess)
    {limits : ArrayLimits} (hmax : limits.maxElements < Word.max) :
    Looked a subs access limits (a.validateInPlace subs access limits).1
      (a.validateInPlace subs access limits).2 := by
  rw [validateInPlace_eq]
  cases hlocate : a.locate subs access with
  | error e => exact .refused hlocate
  | ok place =>
    obtain ⟨u, rfl, hpos, hleads⟩ := locate_eq_ok ha.sized hlocate
    cases hleads with
    | inside hu => exact .found ⟨u, rfl, hu, rfl⟩
    | nowhere _ hextend => exact .missed hextend
    | @beyond p hextend hlinear hu hbeyond =>
      subst hu
      dsimp only
      cases hb : a.extend (p - a.size) limits with
      | error e =>
        obtain ⟨requested, hlt, rfl⟩ := extend_eq_error hlinear hb
        exact .full hlt
      | ok b =>
        obtain ⟨haddressed, hsized⟩ := addressed_extend hmax hbeyond hb
        exact .grown hextend haddressed hsized
    | outside hextend hlen hrank =>
      dsimp only
      cases hb : a.cover u limits with
      | error e =>
        obtain ⟨requested, hlt, rfl⟩ :=
          cover_eq_error (Nat.le_trans a.length_growingSizes_le hrank) hb
        exact .full hlt
      | ok b =>
        obtain ⟨haddressed, hsized⟩ := addressed_cover ha hmax hpos hlen hrank hb
        -- so the second lookup does not fail, and the array has not grown in vain
        dsimp only
        rw [haddressed.positionOf_eq hsized]
        exact .grown hextend haddressed hsized

theorem exists_ofTuple {subs : List Subscript}
    (h : ∀ sub ∈ subs, ∃ value : Int, sub = some value ∧ 0 < value) :
    ∃ u : List Nat, subs = Subscript.ofTuple u ∧ ∀ x ∈ u, 1 ≤ x := by
  induction subs with
  | nil => exact ⟨[], rfl, by simp⟩
  | cons sub subs ih =>
    obtain ⟨value, rfl, hpos⟩ := h sub List.mem_cons_self
    obtain ⟨u, rfl, hu⟩ := ih fun x hx => h x (List.mem_cons_of_mem _ hx)
    refine ⟨value.toNat :: u, ?_, fun x hx => ?_⟩
    · have hvalue : ((value.toNat : Nat) : Int) = value := Int.toNat_of_nonneg (Int.le_of_lt hpos)
      simp only [Subscript.ofTuple, List.map_cons, hvalue]
    · rcases List.mem_cons.mp hx with rfl | hx
      · omega
      · exact hu x hx

/-- A lookup that finds a position finds that of the subscripts in the array it leaves, where every later
lookup finds it as well. One that fails leaves the array alone, and so does one that may not grow it. If
it may, positive subscripts that are not too few are found, unless the limit stands against it. -/
theorem validateIndex_sound_complete (ha : a.Represented) {limits : ArrayLimits}
    (hmax : limits.maxElements < Word.max) (subs : List Subscript) (access : IndexAccess) :
    let after := a.validateInPlace subs access limits
    a.validateIndex subs access limits = after.1.map (fun found => (found, after.2)) ∧
    (∀ p, after.1 = .ok (some p) →
      1 ≤ p ∧ p ≤ after.2.size ∧
      (∃ u, subs = Subscript.ofTuple u ∧ Within u after.2.dimensionSizes ∧
        p = rowMajor after.2.dimensionSizes u + 1) ∧
      ∀ access', after.2.positionOf subs access' = .ok (some p)) ∧
    ((∃ e, after.1 = .error e) ∨ access.extend = false → after.2 = a) ∧
    (access.extend = true → (∀ sub ∈ subs, ∃ value : Int, sub = some value ∧ 0 < value) →
      a.dimensionCount ≤ subs.length →
      (∃ p, after.1 = .ok (some p)) ∨
        ∃ requested, limits.maxElements < requested ∧
          after.1 = .error (.capacityExceeded requested limits.maxElements)) := by
  intro after
  refine ⟨validateIndex_eq_inPlace a subs access limits, ?_⟩
  have hlooked : Looked a subs access limits after.1 after.2 :=
    looked_validateInPlace ha subs access hmax
  generalize after.1 = outcome, after.2 = b at hlooked
  refine ⟨fun p hp => ?_, fun hsame => ?_, fun hextend hpos hlen => ?_⟩
  · obtain ⟨haddressed, hsized⟩ : b.Addressed subs p ∧ b.Sized := by
      cases hlooked with
      | found haddressed =>
        cases hp
        exact ⟨haddressed, ha.sized⟩
      | grown _ haddressed hsized =>
        cases hp
        exact ⟨haddressed, hsized⟩
      | refused _ => cases hp
      | missed _ => cases hp
      | full _ => cases hp
    exact ⟨haddressed.pos, haddressed.le_size hsized, haddressed, haddressed.positionOf_eq hsized⟩
  · cases hlooked with
    | grown hextend _ _ =>
      rcases hsame with ⟨e, he⟩ | hno
      · cases he
      · rw [hextend] at hno
        cases hno
    | refused _ => rfl
    | found _ => rfl
    | missed _ => rfl
    | full _ => rfl
  · cases hlooked with
    | refused hlocate =>
      obtain ⟨u, rfl, hu⟩ := exists_ofTuple hpos
      rw [Subscript.length_ofTuple] at hlen
      obtain ⟨place, hplace⟩ := exists_locate ha.sized hu hlen (Or.inl hextend)
      rw [hplace] at hlocate
      cases hlocate
    | found _ => exact Or.inl ⟨_, rfl⟩
    | missed hno =>
      rw [hextend] at hno
      cases hno
    | grown _ _ _ => exact Or.inl ⟨_, rfl⟩
    | full hlt => exact Or.inr ⟨_, hlt, rfl⟩

/-- A list gets a second dimension, in which its item moves to the subscripts `1, 2`. One row more would
be too many. -/
theorem validateIndex_sound_complete_new_dimension :
    let limits : ArrayLimits := { maxElements := 8 }
    let a : SlotArray Nat := { storage := #[none, some 7], size := 2, items := 1, last := 2 }
    a.Represented ∧ limits.maxElements < Word.max ∧
      (∀ access, (a.validateInPlace [some 2, some 3] .write limits).2.positionOf [some 2, some 3] access =
        .ok (some 6)) ∧
      (a.validateInPlace [some 3, some 3] .write limits).1 = .error (.capacityExceeded 9 8) ∧
      (a.validateInPlace [some 3, some 3] .write limits).2 = a := by
  intro limits a
  have hmax : limits.maxElements < Word.max := by decide
  have hrep : a.Represented := by
    have hnew : ofSize 2 limits = .ok ({ storage := #[none, none], size := 2 } : SlotArray Nat) := rfl
    have hempty : Built (· = limits) ({ storage := #[none, none], size := 2 } : SlotArray Nat) :=
      .ofSize rfl hnew
    have hbuilt : Built (· = limits) a := by
      refine .change (.put 2 (some 7)) hempty ⟨by decide, by decide⟩ fun l hl => ?_
      cases hl
    refine (valid_of_built hmax (fun l hl => ?_) hbuilt).represented hmax
    rw [hl]
  have hfound : (a.validateInPlace [some 2, some 3] .write limits).1 = .ok (some 6) := rfl
  have hfull : (a.validateInPlace [some 3, some 3] .write limits).1 =
      .error (.capacityExceeded 9 8) := rfl
  obtain ⟨_, hsound, _⟩ := validateIndex_sound_complete hrep hmax [some 2, some 3] .write
  obtain ⟨_, _, hsame, _⟩ := validateIndex_sound_complete hrep hmax [some 3, some 3] .write
  exact ⟨hrep, hmax, (hsound 6 hfound).2.2.2, hfull, hsame (Or.inl ⟨_, hfull⟩)⟩

end SlotArray

end Managed
