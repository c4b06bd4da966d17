import Managed.Proofs.Checked
import Managed.Proofs.SlotArray.Detaching
import Managed.Proofs.SlotArray.Entries

/-!
# Finding, growing and listing in checked steps

To find the place that subscripts name, to grow the dimensions of an array and to list the subscripts
of its items in steps that are checked. A computation that stops tells a fault, which the array reports,
from a slip, which nobody would notice in words that wrap around.

No step slips on any array that can be reached under limits below `2 ^ 63`, as long as storage that was
taken away is put back where it fills the dimensions (`addressing_never_slips`). Sizes that multiply to
zero may have a stride that is zero or no word, but no strides are computed for them: subscripts are
never within such sizes, and there is nothing to move and nothing to list. If the dimensions have grown
while the storage was away, a later move would leave its block (`late_storage_slips`).
-/

namespace Managed

open Shape

namespace Checked

variable {α : Type}

/-- Why a checked computation ends without a value. -/
inductive Stop where
  | fault (fault : Fault)
  | slip (slip : Slip)
deriving DecidableEq, Repr

/-! ## Steps -/

def positionIn (shape : Shape) (subs : List Nat) : Except Slip Nat := do
  let offset ← offset shape subs
  plus offset 1

def locateShaped (shape : Shape) (subs : List Nat) (access : IndexAccess) : Except Stop Location :=
  match shape.firstBeyond? subs with
  | none => ((positionIn shape subs).map .position).mapError .slip
  | some _ => (SlotArray.locateShaped shape subs access).mapError .fault

def locate (a : SlotArray α) (subs : List Subscript) (access : IndexAccess) :
    Except Stop Location := do
  let whole ← (SlotArray.wholeSubscripts subs).mapError .fault
  match a.shape, whole with
  | none, [position] => (a.locateLinear position access).mapError .fault
  | none, _ => (SlotArray.locateSurplus whole 1 access).mapError .fault
  | some shape, _ =>
    if shape.rank < whole.length then (SlotArray.locateSurplus whole shape.rank access).mapError .fault
    else if whole.length < shape.rank then throw (.fault (.tooFewSubscripts shape.rank))
    else locateShaped shape whole access

/-- The slots of an array, which are the first ones of its storage. -/
def slots (a : SlotArray α) : Except Slip (Array (Option α)) :=
  if a.size ≤ a.capacity then .ok a.slots else .error .outOfRange

/-- The slots of an array in a new block of the sizes `t`, each at its subscripts in the sizes `s`. -/
def movedBlock (a : SlotArray α) (s t : List Nat) (total : Nat) : Except Slip (Array (Option α)) :=
  let block := Array.replicate total none
  if a.size = 0 then .ok block
  else do
    let old ← slots a
    relocate old s t block

def moveTo (a : SlotArray α) (s t : Shape) (total : Nat) : Except Slip (SlotArray α) := do
  let block ← movedBlock a s.sizes t.sizes total
  return SlotArray.recount
    { a with
      storage := block
      size := total
      shape := if 1 < t.rank then some t else none }

def cover (a : SlotArray α) (subs : List Nat) (limits : ArrayLimits) : Except Stop (SlotArray α) :=
  let old := a.growingSizes
  if subs.length < old.length then .error (.fault (.tooFewSubscripts old.length))
  else do
    let added ← (minus subs.length old.length).mapError .slip
    let padded := List.replicate added 1 ++ old
    let sizes := List.zipWith Nat.max padded subs
    if sizes = padded ∧ added = 0 then return a
    else do
      let shape : Shape := ⟨sizes⟩
      let total := shape.count?.getD Word.max
      (limits.check total).mapError .fault
      (moveTo a ⟨padded⟩ shape total).mapError .slip

def subscriptsOf (a : SlotArray α) (position : Nat) : Except Slip (List Nat) :=
  match a.shape with
  | some s => do
    let offset ← minus position 1
    subscripts s offset
  | none => .ok [position]

/-- The subscripts of all items. -/
def indexTuples (a : SlotArray α) : Except Slip (List (List Nat)) :=
  a.allIndexes.mapM (subscriptsOf a)

/-! ## Steps that pass -/

/-- A step that may only fault, followed by others. -/
theorem mapError_bind_eq {β γ : Type} {act : Except Fault β} {next : β → Except Stop γ}
    {next' : β → Except Fault γ} (h : ∀ b, act = .ok b → next b = (next' b).mapError .fault) :
    (act.mapError .fault >>= next) = (act >>= next').mapError .fault := by
  cases act with
  | error e => rfl
  | ok b => exact h b rfl

theorem mapM_eq_ok {β γ : Type} {step : β → Except Slip γ} {value : β → γ} {l : List β}
    (h : ∀ b ∈ l, step b = .ok (value b)) : l.mapM step = .ok (l.map value) := by
  induction l with
  | nil => rfl
  | cons b l ih =>
    have hrest : ∀ c ∈ l, step c = .ok (value c) := fun c hc => h c (List.mem_cons_of_mem _ hc)
    rw [List.mapM_cons, h b (by simp), ok_bind, ih hrest, ok_bind]
    rfl

variable {bound : Nat} {a : SlotArray α}

theorem positionIn_eq {shape : Shape} {subs : List Nat} (hprod : shape.sizes.prod < Word.card)
    (hw : Within subs shape.sizes) :
    positionIn shape subs = .ok (Word.add (shape.offset subs) 1) := by
  have hlt := rowMajor_lt hw
  rw [← offset_eq_rowMajor hw hprod] at hlt
  rw [positionIn, offset_eq hw hprod, ok_bind, plus_eq (by omega), Word.add,
    Nat.mod_eq_of_lt (by omega)]

theorem locateShaped_eq {shape : Shape} {subs : List Nat} (hprod : shape.sizes.prod < Word.card)
    (hlen : subs.length = shape.rank) (hpos : ∀ sub ∈ subs, 1 ≤ sub) (access : IndexAccess) :
    locateShaped shape subs access = (SlotArray.locateShaped shape subs access).mapError .fault := by
  unfold locateShaped
  cases hfirst : shape.firstBeyond? subs with
  | some i => rfl
  | none =>
    dsimp only
    rw [positionIn_eq hprod (within_of_firstBeyond? hlen hpos hfirst), SlotArray.locateShaped, hfirst]
    rfl

theorem locate_eq (ha : a.LaidOut bound) (hbound : bound < Word.card) (subs : List Subscript)
    (access : IndexAccess) : locate a subs access = (a.locate subs access).mapError .fault := by
  refine mapError_bind_eq fun whole hwhole => ?_
  cases hs : a.shape with
  | none => rcases whole with _ | ⟨position, _ | ⟨sub, rest⟩⟩ <;> rfl
  | some s =>
    have hprod := (ha.dimensions s hs).1
    have hpos := (SlotArray.wholeSubscripts_eq_ok hwhole).2.2
    dsimp only
    split
    · rfl
    · split
      · rfl
      · exact locateShaped_eq (by omega) (by omega) hpos access

/-- Where there are slots to move, they fill the old sizes and the new ones hold them. -/
theorem moveTo_eq (ha : a.LaidOut bound) (hbound : bound < Word.card) {s t : List Nat}
    (hle : List.Forall₂ (· ≤ ·) s t) (hs : a.size ≠ 0 → s.prod = a.size) (ht : t.prod < Word.card) :
    moveTo a ⟨s⟩ ⟨t⟩ t.prod = .ok (a.moveTo ⟨s⟩ ⟨t⟩ t.prod) := by
  have hblock : movedBlock a s t t.prod = .ok (if a.size = 0 then Array.replicate t.prod none
      else (runs a.size ⟨s⟩ ⟨t⟩).foldl (fun block run => run.copy a.slots block)
        (Array.replicate t.prod none)) := by
    unfold movedBlock
    dsimp only
    split
    · rfl
    · next hsize =>
      have hprod := hs hsize
      have hcap := ha.padded.size_le
      have hword := ha.size_le
      have hold : a.slots.size = s.prod := by
        rw [SlotArray.slots, Array.size_extract, hprod]
        change min a.size a.capacity - 0 = a.size
        omega
      rw [slots, if_pos hcap, ok_bind, ← hprod]
      exact relocate_eq hle (by omega) hold Array.size_replicate (by omega) ht
  rw [moveTo, hblock, ok_bind]
  rfl

/-- A count that passes for the largest word is refused by all limits below it. -/
theorem count_eq_prod {s : Shape} (h : s.count?.getD Word.max < Word.max) :
    s.count?.getD Word.max = s.sizes.prod := by
  cases hc : s.count? with
  | none =>
    rw [hc, Option.getD_none] at h
    exact absurd h (Nat.lt_irrefl _)
  | some n => rw [Option.getD_some, prod_of_count? hc]

theorem cover_eq (ha : a.LaidOut bound) (hbound : bound < Word.card) (subs : List Nat)
    {limits : ArrayLimits} (hmax : limits.maxElements < Word.max) :
    cover a subs limits = (a.cover subs limits).mapError .fault := by
  rw [cover, SlotArray.cover_eq]
  dsimp only
  by_cases hlen : subs.length < a.growingSizes.length
  · rw [if_pos hlen, if_pos hlen]
    rfl
  · rw [if_neg hlen, if_neg hlen, minus_eq (Nat.le_of_not_lt hlen)]
    change (if _ then _ else _) = Except.mapError Stop.fault (if _ then _ else _)
    split
    · rfl
    · refine mapError_bind_eq fun _ hcheck => ?_
      have hfits := SlotArray.check_eq_ok hcheck
      have htotal := count_eq_prod (Nat.lt_of_le_of_lt hfits hmax)
      have hcard : Word.max < Word.card := by decide
      have hmoved := moveTo_eq ha hbound (SlotArray.forall₂_coverSizes (Nat.le_of_not_lt hlen))
        (fun h => (prod_ones _ _).trans
          (SlotArray.prod_growingSizes_of_forall (fun s hs => (ha.dimensions s hs).2 h) h))
        (Nat.lt_trans (Nat.lt_of_le_of_lt (Nat.le_trans (Nat.le_of_eq htotal.symm) hfits) hmax) hcard)
      rw [htotal]
      exact congrArg (Except.mapError Stop.slip) hmoved

theorem subscriptsOf_eq (ha : a.LaidOut bound) (hbound : bound < Word.card) {position : Nat}
    (hpos : 1 ≤ position) (hle : position ≤ a.size) :
    subscriptsOf a position = .ok (a.subscriptsOf position) := by
  unfold subscriptsOf SlotArray.subscriptsOf
  cases hs : a.shape with
  | none => rfl
  | some s =>
    obtain ⟨hprod, hsize⟩ := ha.dimensions s hs
    have heq := hsize (by omega)
    dsimp only
    rw [minus_eq hpos, ok_bind, subscripts_eq (by omega) (by omega)]

theorem indexTuples_eq (ha : a.LaidOut bound) (hbound : bound < Word.card) :
    indexTuples a = .ok (a.allIndexes.map a.subscriptsOf) := by
  refine mapM_eq_ok fun position hposition => ?_
  obtain ⟨⟨_, x⟩, hentry, rfl⟩ := List.mem_map.mp hposition
  obtain ⟨hpos, hle, _⟩ := SlotArray.mem_entries.mp hentry
  exact subscriptsOf_eq ha hbound hpos hle

end Checked

namespace SlotArray

variable {α : Type}

/-- Addressing is exact on every array that comes about under limits below `2 ^ 63`, also while its
storage is away and after it is back where it fills the dimensions: when subscripts are looked up,
dimensions grow and subscripts are listed, each sum and product is a word, no difference is negative, no
divisor is zero and no range leaves its block. -/
theorem addressing_never_slips {allowed : ArrayLimits → Prop}
    (hallowed : ∀ limits, allowed limits → limits.maxElements < 2 ^ 63) {a : SlotArray α}
    (ha : Reached allowed Detached.Fills a) :
    (∀ subs access, Checked.locate a subs access = (a.locate subs access).mapError .fault) ∧
    (∀ subs limits, allowed limits →
      Checked.cover a subs limits = (a.cover subs limits).mapError .fault) ∧
    Checked.indexTuples a = .ok (a.allIndexes.map a.subscriptsOf) := by
  have hmax : 2 ^ 63 ≤ Word.max := by decide
  have hcard : Word.max < Word.card := by decide
  have hlaid : a.LaidOut (2 ^ 63 - 1) :=
    laidOut_of_reached (by omega) (fun limits hl => Nat.le_sub_one_of_lt (hallowed limits hl)) ha
  have hbound : 2 ^ 63 - 1 < Word.card := by omega
  refine ⟨fun subs access => ?_, fun subs limits hl => ?_, ?_⟩
  · exact Checked.locate_eq hlaid hbound subs access
  · exact Checked.cover_eq hlaid hbound subs (Nat.lt_of_lt_of_le (hallowed limits hl) hmax)
  · exact Checked.indexTuples_eq hlaid hbound

/-- The slots of a full square. -/
def fourSlots : Detached Nat :=
  { storage := #[some 7, some 7, some 7, some 7], size := 4, items := 4, last := 4 }

/-- A square is filled and its slots are taken away. -/
theorem exists_taken_fourSlots {allowed : ArrayLimits → Prop} (hallowed : allowed {})
    {admits : Detached Nat → SlotArray Nat → Prop} :
    ∃ square, Reached allowed admits square ∧ Taken square fourSlots ∧
      Reached allowed admits { shape := some ⟨[2, 2]⟩ } := by
  let square : SlotArray Nat := attach { shape := some ⟨[2, 2]⟩ } fourSlots
  have hblank : Built allowed
      ({ storage := #[none, none, none, none], size := 4, shape := some ⟨[2, 2]⟩ } : SlotArray Nat) :=
    .ofDimensions hallowed (rfl : ofDimensions [2, 2] {} = .ok _)
  have hsquare : Reached allowed admits square :=
    .change (.fill 7) (.built hblank) trivial fun _ h => by cases h
  have hdense : (square.storage.extract 0 square.items).findIdx? Option.isNone = none := by
    decide +kernel
  have hdetach : square.detach = .ok (fourSlots, { shape := some ⟨[2, 2]⟩ }) := by
    rw [detach, densePrefix, hdense]
    rfl
  exact ⟨square, hsquare, .detach hdetach, .detached hsquare hdetach⟩

/-- A shape with a stride that is no word because another size is zero, a square while its slots are
away, and the same square when it has them back. -/
theorem addressing_never_slips_zero_and_square :
    let flat : SlotArray Nat := { shape := some ⟨[0, 18446744073709551615, 3]⟩ }
    let emptied : SlotArray Nat := { shape := some ⟨[2, 2]⟩ }
    let square := emptied.attach fourSlots
    Checked.strides [0, 18446744073709551615, 3] = .error .overflow ∧
    Checked.locate flat [some 1, some 5, some 2] .read = .ok .nowhere ∧
    Checked.cover flat [1, 1, 1] {} = .error (.fault (.capacityExceeded Word.max 100000000)) ∧
    Checked.indexTuples flat = .ok [] ∧
    Checked.locate emptied [some 2, some 2] .read = .ok (.position 4) ∧
    (Checked.cover square [2, 3] {}).toOption.map SlotArray.storage =
      some #[some 7, some 7, none, some 7, some 7, none] ∧
    Checked.indexTuples square = .ok [[1, 1], [1, 2], [2, 1], [2, 2]] := by
  intro flat emptied square
  have hdefault : ({} : ArrayLimits).maxElements < 2 ^ 63 := by decide
  have hflat : Reached (fun limits => limits.maxElements < 2 ^ 63) Detached.Fills flat :=
    .built (.ofDimensions hdefault (rfl : ofDimensions [0, 18446744073709551615, 3] {} = .ok flat))
  obtain ⟨before, hbefore, htaken, hemptied⟩ : ∃ before,
      Reached (fun limits => limits.maxElements < 2 ^ 63) Detached.Fills before ∧
        Taken before fourSlots ∧ Reached _ Detached.Fills emptied :=
    exists_taken_fourSlots hdefault
  have hfills : fourSlots.Fills emptied := by
    rintro _ ⟨⟩ _
    rfl
  have hsquare := Reached.attached hbefore htaken hemptied hfills
  obtain ⟨hlocate, hcover, hlist⟩ := addressing_never_slips (fun _ h => h) hflat
  obtain ⟨hlocate', _, _⟩ := addressing_never_slips (fun _ h => h) hemptied
  obtain ⟨_, hcover', hlist'⟩ := addressing_never_slips (fun _ h => h) hsquare
  refine ⟨rfl, (hlocate _ _).trans rfl, (hcover _ _ hdefault).trans rfl, hlist.trans rfl,
    (hlocate' _ _).trans rfl, ?_, hlist'.trans rfl⟩
  rw [hcover' _ _ hdefault]
  decide +kernel

/-- Four slots are put back in dimensions that have grown to six in the meantime. A move of them would
leave its block. -/
theorem late_storage_slips :
    let grown : SlotArray Nat := Change.applyTo { shape := some ⟨[2, 2]⟩ } (.cover [2, 3] {})
    let late := grown.attach fourSlots
    Reached (fun limits => limits.maxElements < 2 ^ 63) (fun _ _ => True) late ∧
      late.shape = some ⟨[2, 3]⟩ ∧ late.size = 4 ∧
      Checked.cover late [3, 3] {} = .error (.slip .outOfRange) := by
  intro grown late
  have hdefault : ({} : ArrayLimits).maxElements < 2 ^ 63 := by decide
  obtain ⟨before, hbefore, htaken, hemptied⟩ : ∃ before,
      Reached (fun limits => limits.maxElements < 2 ^ 63) (fun _ _ => True) before ∧
        Taken before fourSlots ∧ Reached _ (fun _ _ => True) { shape := some ⟨[2, 2]⟩ } :=
    exists_taken_fourSlots hdefault
  have hgrown : Reached (fun limits => limits.maxElements < 2 ^ 63) (fun _ _ => True) grown := by
    refine .change _ hemptied trivial ?_
    rintro _ ⟨⟩
    exact hdefault
  exact ⟨.attached hbefore htaken hgrown trivial, rfl, rfl, rfl⟩

end SlotArray

end Managed
