import Mathlib.Data.List.Induction
import Mathlib.Data.List.Nodup
import Managed.Proofs.SlotArray.Growing

/-!
# Arrays as tables of items

Updates put items at subscripts and remove them. After any number of them that succeed an array stands
for the table of what was put last at each tuple of subscripts, a tuple that is too short for the
dimensions being continued with ones in front (`latest`, `reflects_result`). The array counts the
tuples of the table (`items_of_tabled`).
-/

namespace Managed

open Shape

/-- The subscripts of a tuple of numbers. -/
def Subscript.ofTuple (u : List Nat) : List Subscript :=
  u.map fun (n : Nat) => some (n : Int)

theorem Subscript.ofTuple_inj {u w : List Nat} (h : ofTuple u = ofTuple w) : u = w := by
  refine List.map_injective_iff.mpr (fun m n hmn => ?_) h
  exact Int.ofNat_inj.mp (Option.some.inj hmn)

theorem Subscript.length_ofTuple (u : List Nat) : (ofTuple u).length = u.length :=
  List.length_map _

namespace SlotArray

variable {α : Type}

/-! ## Where subscripts lead -/

theorem wholeFrom_eq_ok {subs : List Subscript} {i : Nat} {u : List Nat}
    (h : wholeFrom i subs = .ok u) : subs = Subscript.ofTuple u := by
  induction subs generalizing i u with
  | nil =>
    cases h
    rfl
  | cons sub rest ih =>
    cases sub with
    | none => cases h
    | some value =>
      simp only [wholeFrom] at h
      split at h
      · cases h
      · next hpos =>
        obtain ⟨tail, htail, h⟩ := bind_eq_ok h
        cases h
        rw [ih htail]
        simp only [Subscript.ofTuple, List.map_cons, List.cons.injEq, Option.some.injEq, and_true]
        omega

theorem wholeFrom_ofTuple {u : List Nat} (hpos : ∀ x ∈ u, 1 ≤ x) (i : Nat) :
    wholeFrom i (Subscript.ofTuple u) = .ok u := by
  induction u generalizing i with
  | nil => rfl
  | cons x u ih =>
    have hx := hpos x List.mem_cons_self
    have hrest := ih (fun y hy => hpos y (List.mem_cons_of_mem _ hy)) (i + 1)
    simp only [Subscript.ofTuple, List.map_cons, wholeFrom]
    rw [if_neg (by omega)]
    simp only [Subscript.ofTuple] at hrest
    rw [hrest]
    rfl

theorem wholeSubscripts_ofTuple {u : List Nat} (hne : u ≠ []) (hpos : ∀ x ∈ u, 1 ≤ x) :
    wholeSubscripts (Subscript.ofTuple u) = .ok u := by
  rw [wholeSubscripts, if_neg, wholeFrom_ofTuple hpos]
  cases u with
  | nil => exact absurd rfl hne
  | cons x u => exact Bool.false_ne_true

theorem wholeSubscripts_eq_ok {subs : List Subscript} {u : List Nat}
    (h : wholeSubscripts subs = .ok u) :
    subs = Subscript.ofTuple u ∧ u ≠ [] ∧ ∀ x ∈ u, 1 ≤ x := by
  unfold wholeSubscripts at h
  split at h
  · cases h
  · next hne =>
    have heq := wholeFrom_eq_ok h
    refine ⟨heq, ?_, wholeFrom_pos h⟩
    rintro rfl
    exact hne (by rw [heq]; rfl)

/-- Where a tuple of subscripts leads in an array. -/
inductive Leads (a : SlotArray α) (access : IndexAccess) (u : List Nat) : Location → Prop where
  | inside : Within u a.dimensionSizes →
    Leads a access u (.position (rowMajor a.dimensionSizes u + 1))
  | nowhere : ¬Within u a.dimensionSizes → access.extend = false →
    (access.raiseTooMany = true → u.length = a.dimensionCount) → Leads a access u .nowhere
  | beyond {p : Nat} : access.extend = true → a.shape = none → u = [p] → a.size < p →
    Leads a access u (.beyond p)
  | outside : access.extend = true → 2 ≤ u.length → a.dimensionCount ≤ u.length →
    Leads a access u (.outside u)

/-- The position of subscripts within the sizes is computed without wrapping around. -/
theorem Sized.position_eq {a : SlotArray α} (ha : a.Sized) {s : Shape} (hshape : a.shape = some s)
    {u : List Nat} (hu : Within u s.sizes) : Word.add (s.offset u) 1 = rowMajor s.sizes u + 1 := by
  have hlt := rowMajor_lt hu
  have hprod := (ha.dimensions s hshape).2
  have hword := ha.word
  rw [offset_eq_rowMajor hu (by omega), Word.add, Nat.mod_eq_of_lt (by omega)]

theorem Located.leads {a : SlotArray α} (ha : a.Sized) {access : IndexAccess} {u : List Nat}
    {place : Location} (hpos : ∀ x ∈ u, 1 ≤ x) (h : a.Located access u place) :
    a.Leads access u place := by
  cases h with
  | @linear p hshape hu hle =>
    subst hu
    have hone := hpos p (List.mem_singleton.mpr rfl)
    have hin : a.Leads access [p] (.position (rowMajor a.dimensionSizes [p] + 1)) := by
      refine .inside ?_
      rw [dimensionSizes_of_linear hshape]
      exact within_singleton.mpr ⟨p, rfl, hone, hle⟩
    rwa [dimensionSizes_of_linear hshape, rowMajor_singleton, Nat.sub_add_cancel hone] at hin
  | @shaped s hshape hw =>
    rw [ha.position_eq hshape hw, ← dimensionSizes_of_shape hshape]
    refine .inside ?_
    rwa [dimensionSizes_of_shape hshape]
  | beyond hextend hshape hu hlt => exact .beyond hextend hshape hu hlt
  | outside hextend hcount hlinear =>
    refine .outside hextend ?_ hcount
    cases hshape : a.shape with
    | none => exact hlinear hshape
    | some s =>
      rw [dimensionCount_of_shape hshape] at hcount
      exact Nat.le_trans (ha.dimensions s hshape).1 hcount
  | nowhere hfixed hout hmany => exact .nowhere hout hfixed hmany

theorem locate_eq_ok {a : SlotArray α} (ha : a.Sized) {subs : List Subscript} {access : IndexAccess}
    {place : Location} (h : a.locate subs access = .ok place) :
    ∃ u, subs = Subscript.ofTuple u ∧ (∀ x ∈ u, 1 ≤ x) ∧ a.Leads access u place := by
  obtain ⟨u, hu, hat⟩ := located_of_locate h
  obtain ⟨heq, _, hpos⟩ := wholeSubscripts_eq_ok hu
  exact ⟨u, heq, hpos, hat.leads ha hpos⟩

theorem Sized.dimensionCount_pos {a : SlotArray α} (ha : a.Sized) : 1 ≤ a.dimensionCount := by
  cases hshape : a.shape with
  | none => exact Nat.le_of_eq (dimensionCount_of_linear hshape).symm
  | some s =>
    have hrank := (ha.dimensions s hshape).1
    rw [dimensionCount_of_shape hshape]
    omega

/-- Positive subscripts, one for each dimension at least, lead somewhere if the array may grow for
them, or if they are not too many and none that exceeds its dimension is an error. -/
theorem exists_locate {a : SlotArray α} (ha : a.Sized) {access : IndexAccess} {u : List Nat}
    (hpos : ∀ x ∈ u, 1 ≤ x) (hlen : a.dimensionCount ≤ u.length)
    (haccess : access.extend = true ∨
      u.length = a.dimensionCount ∧ access.raiseOutOfRange = false) :
    ∃ place, a.locate (Subscript.ofTuple u) access = .ok place := by
  have hrank := ha.dimensionCount_pos
  have hne : u ≠ [] := List.ne_nil_of_length_pos (by omega)
  have hsurplus : ∀ rank, a.dimensionCount < u.length →
      ∃ place, locateSurplus u rank access = .ok place := by
    intro rank hmany
    rcases haccess with hextend | ⟨heq, _⟩
    · exact ⟨_, if_pos hextend⟩
    · omega
  have hmissed : ∀ (x : Location) (e : Fault), ∃ place,
      (if access.extend then .ok x
        else if access.raiseOutOfRange then .error e else .ok .nowhere : Except Fault Location) =
          .ok place := by
    intro x e
    rcases haccess with hextend | ⟨_, hraise⟩
    · exact ⟨_, if_pos hextend⟩
    · rw [hraise]
      split <;> exact ⟨_, rfl⟩
  rw [locate, wholeSubscripts_ofTuple hne hpos]
  cases hshape : a.shape with
  | none =>
    rw [dimensionCount_of_linear hshape] at hsurplus
    cases u with
    | nil => exact absurd rfl hne
    | cons p rest =>
      cases rest with
      | nil =>
        by_cases hle : p ≤ a.size
        · exact ⟨_, if_pos hle⟩
        · obtain ⟨place, hplace⟩ := hmissed (.beyond p) (.subscriptOutOfRange 1 p a.size)
          exact ⟨place, (if_neg hle).trans hplace⟩
      | cons y rest => exact hsurplus 1 (by simp)
  | some s =>
    rw [dimensionCount_of_shape hshape] at hlen hsurplus
    change ∃ place, (if s.rank < u.length then _ else _) = Except.ok place
    by_cases hmany : s.rank < u.length
    · rw [if_pos hmany]
      exact hsurplus s.rank hmany
    · rw [if_neg hmany, if_neg (by omega), locateShaped]
      cases s.firstBeyond? u with
      | none => exact ⟨_, rfl⟩
      | some i => exact hmissed _ _

section

variable {a b : SlotArray α} {bound : Nat} {table : List Nat → Option α}

/-- The position of a tuple within the dimensions. -/
theorem Sized.position_le (ha : a.Sized) {u : List Nat} (hu : Within u a.dimensionSizes) :
    rowMajor a.dimensionSizes u + 1 ≤ a.size := by
  rw [← ha.prod_dimensionSizes]
  exact rowMajor_lt hu

/-- Reading gives what the table has. -/
theorem read_of_tabled (ha : a.Valid bound) (hbound : bound < Word.max) (ht : a.Tabled table)
    {u : List Nat} (hlen : u.length = a.dimensionCount) (hpos : ∀ x ∈ u, 1 ≤ x) :
    ∃ found, a.positionOf (Subscript.ofTuple u) .read = .ok found ∧ found.bind a.get? = table u := by
  have hsized := ha.sized hbound
  obtain ⟨place, hplace⟩ : ∃ place, a.locate (Subscript.ofTuple u) .read = .ok place :=
    exists_locate hsized hpos (Nat.le_of_eq hlen.symm) (Or.inr ⟨hlen, rfl⟩)
  obtain ⟨w, hw, _, hleads⟩ := locate_eq_ok hsized hplace
  cases Subscript.ofTuple_inj hw
  rw [positionOf, hplace]
  cases hleads with
  | inside hin =>
    refine ⟨_, rfl, ?_⟩
    rw [Option.bind_some, get?_eq a (Nat.le_add_left 1 _) (hsized.position_le hin),
      Nat.add_sub_cancel]
    exact ht.inside u hin
  | nowhere hout _ _ =>
    refine ⟨_, rfl, ?_⟩
    by_contra hne
    exact hout (ht.outside u (Ne.symm hne))
  | beyond hextend => cases hextend
  | outside hextend => cases hextend

/-! ## Writing -/

/-- One slot of a table changed. -/
def entered (table : List Nat → Option α) (u : List Nat) (x : Option α) (w : List Nat) : Option α :=
  if w = u then x else table w

/-- An array of the same dimensions in which one slot has changed. -/
theorem tabled_of_slotAt (ht : a.Tabled table) {u : List Nat} (hu : Within u a.dimensionSizes)
    {x : Option α} (hsizes : b.dimensionSizes = a.dimensionSizes)
    (hslot : ∀ i, b.slotAt i = if i = rowMajor a.dimensionSizes u then x else a.slotAt i) :
    b.Tabled (entered table u x) := by
  refine ⟨fun w hw => ?_, fun w hw => ?_⟩
  · rw [hsizes] at hw ⊢
    rw [hslot, entered]
    by_cases hwu : w = u
    · rw [if_pos (by rw [hwu]), if_pos hwu]
    · rw [if_neg fun heq => hwu (rowMajor_inj hw hu heq), if_neg hwu]
      exact ht.inside w hw
  · rw [hsizes]
    unfold entered at hw
    split at hw
    · next hwu => rwa [hwu]
    · exact ht.outside w hw

theorem tabled_put (ha : a.Valid bound) (hbound : bound < Word.max) (ht : a.Tabled table)
    {u : List Nat} (hu : Within u a.dimensionSizes) (x : Option α) :
    (a.put (rowMajor a.dimensionSizes u + 1) x).Tabled (entered table u x) := by
  refine tabled_of_slotAt ht hu rfl fun i => ?_
  rw [slotAt_put_of_le ha.padded x (Nat.le_add_left 1 _) ((ha.sized hbound).position_le hu),
    Nat.add_sub_cancel]

theorem dimensionSizes_clear (a : SlotArray α) (position : Nat) :
    (a.clear position).2.dimensionSizes = a.dimensionSizes := by
  rcases clear_cases a position with ⟨_, _, heq⟩ | ⟨_, heq⟩
  · rw [heq]
    rfl
  · rw [heq]

theorem tabled_clear (ha : a.Valid bound) (hbound : bound < Word.max) (ht : a.Tabled table)
    {u : List Nat} (hu : Within u a.dimensionSizes) :
    (a.clear (rowMajor a.dimensionSizes u + 1)).2.Tabled (entered table u none) := by
  refine tabled_of_slotAt ht hu (dimensionSizes_clear a _) fun i => ?_
  rw [slotAt_clear ha.padded (Nat.le_add_left 1 _) ((ha.sized hbound).position_le hu), Nat.add_sub_cancel]

/-- An array that has grown for some subscripts holds them, and what was in it is still at its own. -/
theorem validateIndex_write (ha : a.Valid bound) (hbound : bound < Word.max) {limits : ArrayLimits}
    (hmax : limits.maxElements ≤ bound) {subs : List Subscript} {p : Nat}
    (h : a.validateIndex subs .write limits = .ok (some p, b)) :
    ∃ u, subs = Subscript.ofTuple u ∧ Within u b.dimensionSizes ∧ a.dimensionCount ≤ u.length ∧
      p = rowMajor b.dimensionSizes u + 1 ∧
      ∀ table, a.Tabled table → b.Tabled (continued (u.length - a.dimensionCount) table) := by
  rw [validateIndex_eq] at h
  obtain ⟨place, hplace, h⟩ := bind_eq_ok h
  obtain ⟨u, hu, hpos, hleads⟩ := locate_eq_ok (ha.sized hbound) hplace
  refine ⟨u, hu, ?_⟩
  cases hleads with
  | inside hin =>
    cases h
    have hlen := length_of_within hin
    refine ⟨hin, Nat.le_of_eq hlen.symm, rfl, fun table ht => ?_⟩
    rwa [hlen, Nat.sub_self, continued_zero]
  | nowhere _ hextend => cases hextend
  | beyond _ hshape hsingle hbeyond =>
    subst hsingle
    obtain ⟨e, he, h⟩ := bind_eq_ok h
    cases h
    have hmax' := Nat.lt_of_le_of_lt hmax hbound
    have hsize := size_extend_of_lt he hmax'
    have hsizes := dimensionSizes_of_linear (linear_extend he)
    have hcount := dimensionCount_of_linear hshape
    rw [hsizes, rowMajor_singleton, hcount]
    have hone : 1 ≤ p := by omega
    refine ⟨within_singleton.mpr ⟨p, rfl, hone, by omega⟩, Nat.le_refl 1, by omega, fun table ht => ?_⟩
    rw [List.length_singleton, Nat.sub_self, continued_zero]
    exact tabled_extend ha.padded he hmax' ht
  | outside _ hlen hrank =>
    obtain ⟨e, he, h⟩ := bind_eq_ok h
    obtain ⟨q, hq, h⟩ := bind_eq_ok h
    cases h
    have hlocate := positionOf_eq_some hq
    obtain ⟨hgrowing, ⟨rfl, _⟩ | ⟨_, hprod, hb⟩⟩ := cover_cases he (Nat.lt_of_le_of_lt hmax hbound)
    · -- an array that has not grown would not hold the subscripts now either
      rw [hplace] at hlocate
      cases hlocate
    · have hvalid : b.Valid bound := by
        refine valid_result (c := .cover u limits) hbound ha trivial ?_ he
        rintro _ ⟨⟩
        exact hmax
      obtain ⟨w, hw, _, hleads⟩ := locate_eq_ok (hvalid.sized hbound) hlocate
      cases Subscript.ofTuple_inj (hu.symm.trans hw)
      cases hleads with
      | inside hin =>
        refine ⟨hin, hrank, rfl, fun table ht => ?_⟩
        have hcard : Word.max < Word.card := by decide
        exact tabled_moveTo ha hbound (forall₂_coverSizes hgrowing) (length_coverSizes hgrowing) hlen
          (by omega) hb ht

end

end SlotArray

/-! ## Updates -/

/-- A change of a table. -/
inductive Update (α : Type) where
  | put (item : α) (subscripts : List Subscript)
  | remove (subscripts : List Subscript)

namespace Update

variable {α : Type}

def subscripts : Update α → List Subscript
  | put _ subscripts | remove subscripts => subscripts

/-- What is at the subscripts afterwards. -/
def item? : Update α → Option α
  | put item _ => some item
  | remove _ => none

/-- What an update makes of an array. -/
def result (limits : ArrayLimits) (a : SlotArray α) : Update α → Except Fault (SlotArray α)
  | put item subscripts => do
    match ← a.validateIndex subscripts .write limits with
    | (some p, a) => return a.put p (some item)
    | (none, a) => throw (.tooManySubscripts a.dimensionCount)
  | remove subscripts => do
    match ← a.positionOf subscripts .read with
    | some p => return (a.clear p).2
    | none => return a

/-- Subscripts continued with ones in front for an array of `rank` dimensions. -/
def padded (rank : Nat) (subscripts : List Subscript) : List Subscript :=
  List.replicate (rank - subscripts.length) (some 1) ++ subscripts

/-- What the last update at a tuple of subscripts has left there, in an array of `rank` dimensions. -/
def latest (rank : Nat) (updates : List (Update α)) (u : List Nat) : Option α :=
  updates.foldl
    (fun found x => if padded rank x.subscripts = Subscript.ofTuple u then x.item? else found) none

theorem latest_append (rank : Nat) (updates : List (Update α)) (x : Update α) (u : List Nat) :
    latest rank (updates ++ [x]) u =
      if padded rank x.subscripts = Subscript.ofTuple u then x.item? else latest rank updates u := by
  rw [latest, List.foldl_append]
  rfl

theorem padded_ofTuple {rank : Nat} {u : List Nat} (hu : u.length = rank) :
    padded rank (Subscript.ofTuple u) = Subscript.ofTuple u := by
  rw [padded, Subscript.length_ofTuple, hu, Nat.sub_self]
  rfl

theorem padded_add {rank : Nat} {subs : List Subscript} (h : subs.length ≤ rank) (k : Nat) :
    padded (rank + k) subs = List.replicate k (some 1) ++ padded rank subs := by
  rw [padded, padded, ← List.append_assoc, List.replicate_append_replicate]
  congr 2
  omega

theorem ones_append_eq_ofTuple {k : Nat} {subs : List Subscript} {u : List Nat} :
    List.replicate k (some 1) ++ subs = Subscript.ofTuple u ↔
      u.take k = List.replicate k 1 ∧ subs = Subscript.ofTuple (u.drop k) := by
  induction k generalizing u with
  | zero => simp
  | succ k ih =>
    cases u with
    | nil => simp [Subscript.ofTuple, List.replicate_succ]
    | cons x u =>
      have hhead : some (1 : Int) = some (x : Int) ↔ x = 1 := by
        rw [Option.some.injEq]
        omega
      rw [List.take_succ_cons, List.drop_succ_cons, List.replicate_succ, List.replicate_succ,
        List.cons_append, List.cons.injEq, and_assoc, ← ih, ← hhead]
      exact List.cons_eq_cons

/-- In an array that gets more dimensions the old subscripts are continued with ones. -/
theorem latest_add {rank : Nat} {updates : List (Update α)}
    (h : ∀ x ∈ updates, x.subscripts.length ≤ rank) (k : Nat) :
    latest (rank + k) updates = SlotArray.continued k (latest rank updates) := by
  funext u
  induction updates using List.reverseRecOn with
  | nil => simp [latest, SlotArray.continued]
  | append_singleton updates x ih =>
    have hx := h x (List.mem_append_right _ List.mem_cons_self)
    have hrest := ih fun y hy => h y (List.mem_append_left _ hy)
    rw [latest_append, hrest, padded_add hx, SlotArray.continued, SlotArray.continued, latest_append]
    by_cases hones : u.take k = List.replicate k 1
    · rw [if_pos hones, if_pos hones]
      simp only [ones_append_eq_ofTuple, hones, true_and]
    · rw [if_neg hones, if_neg hones, if_neg fun heq => hones (ones_append_eq_ofTuple.mp heq).1]

end Update

/-! ## Runs of updates -/

namespace SlotArray

variable {α : Type} {a b : SlotArray α} {bound : Nat}

/-- An array stands for what a list of updates has left. -/
structure Reflects (bound : Nat) (updates : List (Update α)) (a : SlotArray α) : Prop where
  valid : a.Valid bound
  tabled : a.Tabled (Update.latest a.dimensionCount updates)
  short : ∀ x ∈ updates, x.subscripts.length ≤ a.dimensionCount

/-- An update at subscripts within the dimensions, when these have come to be `u.length` in number. -/
theorem entered_latest {updates : List (Update α)} {rank : Nat} {u : List Nat}
    (hshort : ∀ x ∈ updates, x.subscripts.length ≤ rank) (hrank : rank ≤ u.length) {x : Update α}
    (hx : x.subscripts = Subscript.ofTuple u) :
    entered (continued (u.length - rank) (Update.latest rank updates)) u x.item? =
      Update.latest u.length (updates ++ [x]) := by
  funext w
  have hadd : rank + (u.length - rank) = u.length := by omega
  rw [Update.latest_append, hx, Update.padded_ofTuple rfl, ← Update.latest_add hshort, hadd, entered]
  by_cases hw : w = u
  · rw [if_pos hw, if_pos (by rw [hw])]
  · rw [if_neg hw, if_neg fun heq => hw (Subscript.ofTuple_inj heq).symm]

theorem short_append {updates : List (Update α)} {rank : Nat} {u : List Nat}
    (hshort : ∀ x ∈ updates, x.subscripts.length ≤ rank) (hrank : rank ≤ u.length) {x : Update α}
    (hx : x.subscripts = Subscript.ofTuple u) :
    ∀ y ∈ updates ++ [x], y.subscripts.length ≤ u.length := by
  intro y hy
  rcases List.mem_append.mp hy with hy | hy
  · exact Nat.le_trans (hshort y hy) hrank
  · exact Nat.le_of_eq (by rw [List.mem_singleton.mp hy, hx, Subscript.length_ofTuple])

theorem reflects_put {updates : List (Update α)} (ha : a.Reflects bound updates)
    (hbound : bound < Word.max) {limits : ArrayLimits} (hmax : limits.maxElements ≤ bound) {item : α}
    {subs : List Subscript} (h : (Update.put item subs).result limits a = .ok b) :
    b.Reflects bound (updates ++ [.put item subs]) := by
  obtain ⟨⟨found, e⟩, he, h⟩ := bind_eq_ok h
  cases found with
  | none => cases h
  | some p =>
    cases h
    obtain ⟨u, rfl, hin, hrank, rfl, htabled⟩ := validateIndex_write ha.valid hbound hmax he
    have hvalid : e.Valid bound := by
      refine valid_result (c := .validateIndex (Subscript.ofTuple u) .write limits) hbound ha.valid
        trivial ?_ ?_
      · rintro _ ⟨⟩
        exact hmax
      · exact congrArg (Prod.snd <$> ·) he
    have hcount := (length_of_within hin).symm
    refine ⟨valid_result (c := .put _ (some item)) hbound hvalid ?_ nofun rfl, ?_, ?_⟩
    · exact ⟨Nat.le_add_left 1 _, (hvalid.sized hbound).position_le hin⟩
    · have htable := tabled_put hvalid hbound (htabled _ ha.tabled) hin (some item)
      rw [show some item = (Update.put item (Subscript.ofTuple u)).item? from rfl,
        entered_latest ha.short hrank rfl, ← hcount] at htable
      exact htable
    · have hshort := short_append ha.short hrank (x := .put item (Subscript.ofTuple u)) rfl
      rw [← hcount] at hshort
      exact hshort

theorem reflects_remove {updates : List (Update α)} (ha : a.Reflects bound updates)
    (hbound : bound < Word.max) {limits : ArrayLimits} {subs : List Subscript}
    (h : (Update.remove subs).result limits a = .ok b) :
    b.Reflects bound (updates ++ [.remove subs]) := by
  obtain ⟨found, hfound, h⟩ := bind_eq_ok h
  obtain ⟨place, hplace, hfound⟩ := bind_eq_ok hfound
  obtain ⟨u, rfl, _, hleads⟩ := locate_eq_ok (ha.valid.sized hbound) hplace
  have hsame : u.length = a.dimensionCount →
      entered (Update.latest a.dimensionCount updates) u none =
        Update.latest a.dimensionCount (updates ++ [.remove (Subscript.ofTuple u)]) ∧
      ∀ y ∈ updates ++ [.remove (Subscript.ofTuple u)], y.subscripts.length ≤ a.dimensionCount := by
    intro hlen
    have hle := Nat.le_of_eq hlen.symm
    have hentered := entered_latest ha.short hle (x := .remove (Subscript.ofTuple u)) rfl
    have hshort := short_append ha.short hle (x := .remove (Subscript.ofTuple u)) rfl
    rw [hlen, Nat.sub_self, continued_zero] at hentered
    rw [hlen] at hshort
    exact ⟨hentered, hshort⟩
  cases hleads with
  | inside hin =>
    cases hfound
    cases h
    have hlen := length_of_within hin
    obtain ⟨hentered, hshort⟩ := hsame hlen
    have htabled := tabled_clear ha.valid hbound ha.tabled hin
    have hvalid := valid_result (c := .clear (rowMajor a.dimensionSizes u + 1)) hbound ha.valid trivial
      nofun rfl
    have hcount : (a.clear (rowMajor a.dimensionSizes u + 1)).2.dimensionCount = a.dimensionCount := by
      rw [← length_dimensionSizes, ← length_dimensionSizes, dimensionSizes_clear]
    rw [hentered] at htabled
    exact ⟨hvalid, by rwa [hcount], by rwa [hcount]⟩
  | nowhere hout _ hmany =>
    cases hfound
    cases h
    obtain ⟨hentered, hshort⟩ := hsame (hmany rfl)
    refine ⟨ha.valid, ?_, hshort⟩
    rw [← hentered]
    have htable : entered (Update.latest a.dimensionCount updates) u none =
        Update.latest a.dimensionCount updates := by
      funext w
      rw [entered]
      split
      · next hw =>
        by_contra hne
        exact hout (hw ▸ ha.tabled.outside w (Ne.symm hne))
      · rfl
    rw [htable]
    exact ha.tabled
  | beyond hextend => cases hextend
  | outside hextend => cases hextend

theorem reflects_result {updates : List (Update α)} (ha : a.Reflects bound updates)
    (hbound : bound < Word.max) {limits : ArrayLimits} (hmax : limits.maxElements ≤ bound)
    {x : Update α} (h : x.result limits a = .ok b) : b.Reflects bound (updates ++ [x]) := by
  cases x with
  | put item subs => exact reflects_put ha hbound hmax h
  | remove subs => exact reflects_remove ha hbound h

/-- A new array holds nothing. -/
theorem reflects_replicate {size : Nat} {shape : Option Shape}
    (hshaped : ({ size, storage := Array.replicate size none, shape } : SlotArray α).Shaped)
    (hle : size ≤ bound) :
    ({ size, storage := Array.replicate size none, shape } : SlotArray α).Reflects bound [] := by
  refine ⟨valid_replicate hshaped hle, ⟨fun u _ => ?_, fun u hu => absurd rfl hu⟩, nofun⟩
  rw [slotAt, cell_replicate]
  split <;> rfl

/-! ## Counting -/

theorem toList_slots_eq_map (ha : a.Padded) : a.slots.toList = (List.range a.size).map a.slotAt := by
  apply List.ext_getElem?
  intro i
  rw [getElem?_slots ha, List.getElem?_map]
  by_cases hi : i < a.size
  · rw [if_pos hi, List.getElem?_range hi]
    rfl
  · rw [if_neg hi, List.getElem?_eq_none (by rw [List.length_range]; omega)]
    rfl

/-- The array counts the tuples of its table. -/
theorem items_of_tabled (ha : a.Valid bound) (hbound : bound < Word.max)
    {table : List Nat → Option α} (ht : a.Tabled table) :
    ∃ tuples : List (List Nat), tuples.Nodup ∧ (∀ u, u ∈ tuples ↔ (table u).isSome = true) ∧
      a.items = tuples.length := by
  have hprod := (ha.sized hbound).prod_dimensionSizes
  refine ⟨((List.range a.size).filter fun i => (a.slotAt i).isSome).map (tupleAt a.dimensionSizes),
    ?_, fun u => ?_, ?_⟩
  · refine (List.nodup_range.filter _).map_on fun i hi j hj heq => ?_
    have hplace : ∀ k, k ∈ (List.range a.size).filter (fun i => (a.slotAt i).isSome) →
        rowMajor a.dimensionSizes (tupleAt a.dimensionSizes k) = k := by
      intro k hk
      refine (rowMajor_tupleAt ?_).2
      rw [hprod]
      exact List.mem_range.mp (List.mem_filter.mp hk).1
    rw [← hplace i hi, heq, hplace j hj]
  · simp only [List.mem_map, List.mem_filter, List.mem_range]
    constructor
    · rintro ⟨i, ⟨hi, hsome⟩, rfl⟩
      obtain ⟨hw, heq⟩ := rowMajor_tupleAt (by rwa [hprod] : i < a.dimensionSizes.prod)
      rwa [← ht.inside _ hw, heq]
    · intro hsome
      have hw := ht.outside u (Option.isSome_iff_ne_none.mp hsome)
      refine ⟨rowMajor a.dimensionSizes u, ⟨?_, ?_⟩, tupleAt_rowMajor hw⟩
      · rw [← hprod]
        exact rowMajor_lt hw
      · rwa [ht.inside u hw]
  · rw [List.length_map, ← List.countP_eq_length_filter, ha.counted.items_eq, ← ha.padded.held_slots,
      held, ← Array.countP_toList, toList_slots_eq_map ha.padded, List.countP_map]
    rfl

end SlotArray

end Managed
