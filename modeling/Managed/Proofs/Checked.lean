import Managed.Proofs.Addressing
import Managed.Proofs.Runs
import Managed.Proofs.SlotArray.Changes

/-!
# Addressing in checked steps

The strides, offsets and subscripts of a shape and the move of its slots when it grows, in steps that
are checked one by one: a sum or product is a word, a difference is not negative, a divisor is not
zero, and a range of slots lies inside its block. A step that does not pass its check slips.

If the product of the sizes is a word, and not zero, no step slips, and the results are those of
addressing without checks (`strides_eq`, `offset_eq`, `coordinates_eq`, `relocate_eq`).
-/

namespace Managed

/-- What is wrong with a step. -/
inductive Slip where
  | overflow
  | underflow
  | zeroDivision
  | outOfRange
deriving DecidableEq, Repr

namespace Checked

open Shape

variable {α β γ ε : Type}

/-! ## Steps -/

/-- A result that has to be a word. -/
def word (n : Nat) : Except Slip Nat :=
  if n < Word.card then .ok n else .error .overflow

def plus (a b : Nat) : Except Slip Nat :=
  word (a + b)

def times (a b : Nat) : Except Slip Nat :=
  word (a * b)

def minus (a b : Nat) : Except Slip Nat :=
  if b ≤ a then .ok (a - b) else .error .underflow

/-- The quotient and the remainder. -/
def divide (a b : Nat) : Except Slip (Nat × Nat) :=
  if b = 0 then .error .zeroDivision else .ok (a / b, a % b)

/-- Copies a run of slots whose ends are computed first. -/
def copyRun (run : Run) (old new : Array (Option α)) : Except Slip (Array (Option α)) := do
  let sourceEnd ← plus run.source run.length
  let targetEnd ← plus run.target run.length
  if sourceEnd ≤ old.size ∧ targetEnd ≤ new.size then return run.copy old new
  else throw .outOfRange

/-! ## Addressing -/

/-- The strides, from the last one on: each is the product of the next stride and the next size. -/
def strides : List Nat → Except Slip (List Nat)
  | [] => .ok []
  | [_] => .ok [1]
  | _ :: size :: rest => do
    let later ← strides (size :: rest)
    return (← times (later.headD 1) size) :: later

/-- Adds the contributions of the subscripts, given with their strides, to a sum. -/
def offsetFrom (sum : Nat) : List (Nat × Nat) → Except Slip Nat
  | [] => .ok sum
  | (stride, sub) :: rest => do
    let steps ← minus sub 1
    let distance ← times steps stride
    let sum ← plus sum distance
    offsetFrom sum rest

def offset (s : Shape) (subs : List Nat) : Except Slip Nat := do
  let strides ← strides s.sizes
  offsetFrom 0 (strides.zip subs)

/-- Splits an offset along the given strides. -/
def coordinates : List Nat → Nat → Except Slip (List Nat)
  | [], _ => .ok []
  | stride :: rest, offset => do
    let (coordinate, remaining) ← divide offset stride
    let sub ← plus coordinate 1
    return sub :: (← coordinates rest remaining)

def subscripts (s : Shape) (offset : Nat) : Except Slip (List Nat) := do
  let strides ← strides s.sizes
  coordinates strides offset

/-- Where the `i`-th row begins, counted from `base`. -/
def rowStart (base i stride : Nat) : Except Slip Nat := do
  let distance ← times i stride
  plus base distance

/-- Copies the slots below a list of dimensions, each given by its old size and its strides in the old
and the new block. -/
def copyBelow (old : Array (Option α)) :
    List (Nat × Nat × Nat) → Nat → Nat → Array (Option α) → Except Slip (Array (Option α))
  | [], _, _, new => .ok new
  | [(size, stride, _)], source, target, new => do
    let length ← times size stride
    copyRun { source, target, length } old new
  | (size, stride, stride') :: rest, source, target, new =>
    (List.range size).foldlM
      (fun new i => do
        let source ← rowStart source i stride
        let target ← rowStart target i stride'
        copyBelow old rest source target new)
      new

/-- Copies a block of the sizes `s` into one of the sizes `t`. Each slot keeps its subscripts. -/
def relocate (old : Array (Option α)) (s t : List Nat) (new : Array (Option α)) :
    Except Slip (Array (Option α)) :=
  match (List.range s.length).reverse.find? fun i => s[i]? != t[i]? with
  | none => copyRun { source := 0, target := 0, length := old.size } old new
  | some last => do
    let oldStrides ← strides s
    let newStrides ← strides t
    copyBelow old ((s.zip (oldStrides.zip newStrides)).take (last + 1)) 0 0 new

/-! ## Steps that pass -/

theorem ok_bind (b : β) (next : β → Except ε γ) : (.ok b >>= next) = next b :=
  rfl

theorem plus_eq {a b : Nat} (h : a + b < Word.card) : plus a b = .ok (a + b) :=
  if_pos h

theorem times_eq {a b : Nat} (h : a * b < Word.card) : times a b = .ok (a * b) :=
  if_pos h

theorem minus_eq {a b : Nat} (h : b ≤ a) : minus a b = .ok (a - b) :=
  if_pos h

theorem divide_eq {a b : Nat} (h : 0 < b) : divide a b = .ok (a / b, a % b) :=
  if_neg (Nat.ne_of_gt h)

theorem copyRun_eq {run : Run} {old new : Array (Option α)} (hold : old.size < Word.card)
    (hnew : new.size < Word.card) (hsource : run.source + run.length ≤ old.size)
    (htarget : run.target + run.length ≤ new.size) : copyRun run old new = .ok (run.copy old new) := by
  rw [copyRun, plus_eq (by omega), ok_bind, plus_eq (by omega), ok_bind, if_pos ⟨hsource, htarget⟩]
  rfl

/-- A loop whose steps pass as long as a property holds that they keep. -/
theorem foldlM_eq_ok {step : β → γ → Except ε β} {next : β → γ → β} (Good : β → Prop) {l : List γ}
    (hstep : ∀ c ∈ l, ∀ b, Good b → step b c = .ok (next b c) ∧ Good (next b c)) {b : β}
    (hb : Good b) : l.foldlM step b = .ok (l.foldl next b) := by
  induction l generalizing b with
  | nil => rfl
  | cons c l ih =>
    obtain ⟨heq, hgood⟩ := hstep c (by simp) b hb
    rw [List.foldlM_cons, heq, ok_bind, List.foldl_cons]
    exact ih (fun c hc => hstep c (List.mem_cons_of_mem _ hc)) hgood

/-! ## Sizes whose product is a word -/

theorem prod_tail {size : Nat} {sizes : List Nat} (hpos : 0 < (size :: sizes).prod) :
    0 < size ∧ 0 < sizes.prod ∧ sizes.prod ≤ (size :: sizes).prod := by
  rw [List.prod_cons] at hpos ⊢
  have hsize := Nat.pos_of_mul_pos_right hpos
  exact ⟨hsize, Nat.pos_of_mul_pos_left hpos, Nat.le_mul_of_pos_left _ hsize⟩

theorem strides_eq {sizes : List Nat} (hpos : 0 < sizes.prod) (h : sizes.prod < Word.card) :
    strides sizes = .ok (stridesOf sizes) := by
  induction sizes with
  | nil => rfl
  | cons size sizes ih =>
    cases sizes with
    | nil => rfl
    | cons next rest =>
      obtain ⟨_, hpos', hle⟩ := prod_tail hpos
      obtain ⟨_, hrest, hle'⟩ := prod_tail hpos'
      have hword : (next :: rest).prod < Word.card := by omega
      have hstride : rest.prod * next = (next :: rest).prod := by rw [List.prod_cons, Nat.mul_comm]
      rw [strides, ih hpos' hword, ok_bind, strides_cons hrest (by omega), List.headD_cons,
        times_eq (by omega), ok_bind, strides_cons hpos' hword, strides_cons hrest (by omega), hstride]
      rfl

theorem offsetFrom_eq {subs sizes : List Nat} (hw : Within subs sizes) (sum : Nat)
    (h : sum + sizes.prod < Word.card) :
    offsetFrom sum ((stridesOf sizes).zip subs) = .ok (sum + rowMajor sizes subs) := by
  induction sizes generalizing subs sum with
  | nil => cases subs <;> rfl
  | cons size rest ih =>
    cases subs with
    | nil => cases hw
    | cons sub subs =>
      obtain ⟨hpos, hle, hrest⟩ := hw
      have hone := prod_pos_of_within hrest
      have hstep := pred_mul_add_le hpos hle rest.prod
      rw [List.prod_cons] at h
      rw [strides_cons hone (by omega), List.zip_cons_cons, offsetFrom, minus_eq hpos, ok_bind,
        times_eq (by omega), ok_bind, plus_eq (by omega), ok_bind, ih hrest _ (by omega), rowMajor,
        Nat.add_assoc]

theorem offset_eq {s : Shape} {subs : List Nat} (hw : Within subs s.sizes)
    (h : s.sizes.prod < Word.card) : offset s subs = .ok (s.offset subs) := by
  rw [offset, strides_eq (prod_pos_of_within hw) h, ok_bind, offsetFrom_eq hw 0 (by omega),
    offset_eq_rowMajor hw h, Nat.zero_add]

theorem coordinates_eq {sizes : List Nat} (h : sizes.prod < Word.card) {i : Nat}
    (hi : i < sizes.prod) :
    coordinates (stridesOf sizes) i = .ok (Shape.coordinates (stridesOf sizes) i) := by
  induction sizes generalizing i with
  | nil => rfl
  | cons size rest ih =>
    obtain ⟨_, hrest, hle⟩ := prod_tail (Nat.zero_lt_of_lt hi)
    have hword : rest.prod < Word.card := Nat.lt_of_le_of_lt hle h
    rw [List.prod_cons] at h hi
    have hcoordinate : i / rest.prod < size := (Nat.div_lt_iff_lt_mul hrest).mpr hi
    have hsize_le : size ≤ size * rest.prod := Nat.le_mul_of_pos_right _ hrest
    rw [strides_cons hrest hword, coordinates, divide_eq hrest, ok_bind]
    dsimp only
    rw [plus_eq (by omega), ok_bind, ih hword (Nat.mod_lt _ hrest)]
    rfl

theorem subscripts_eq {s : Shape} (h : s.sizes.prod < Word.card) {i : Nat} (hi : i < s.sizes.prod) :
    subscripts s i = .ok (s.subscripts i) := by
  rw [subscripts, strides_eq (Nat.zero_lt_of_lt hi) h, ok_bind]
  exact coordinates_eq h hi

/-! ## Growing -/

theorem copyBelow_cons (old : Array (Option α)) (size stride stride' : Nat)
    {dims : List (Nat × Nat × Nat)} (h : dims ≠ []) (source target : Nat) (new : Array (Option α)) :
    copyBelow old ((size, stride, stride') :: dims) source target new =
      (List.range size).foldlM
        (fun new i => do
          let source ← rowStart source i stride
          let target ← rowStart target i stride'
          copyBelow old dims source target new)
        new := by
  cases dims with
  | nil => exact absurd rfl h
  | cons d dims => rfl

/-- A row among `size` rows of `n` slots each. -/
theorem rowStart_eq {base size i n bound : Nat} (hi : i < size) (h : base + size * n ≤ bound)
    (hbound : bound < Word.card) :
    rowStart base i n = .ok (base + i * n) ∧ Word.add base (Word.mul i n) = base + i * n ∧
      base + i * n + n ≤ bound := by
  have hstep := pred_mul_add_le (Nat.le_add_left 1 i) hi n
  rw [Nat.add_sub_cancel] at hstep
  refine ⟨?_, (add_mul_eq hi (by omega)).1, by omega⟩
  rw [rowStart, times_eq (by omega), ok_bind, plus_eq (by omega)]

/-- The slots below the dimensions up to the `m`-th are copied run by run, if the dimensions after it
are the same in both shapes. -/
theorem copyBelow_eq {s t : List Nat} (hle : List.Forall₂ (· ≤ ·) s t) {m : Nat} (hm : m < s.length)
    (htail : s.drop (m + 1) = t.drop (m + 1)) (hpos : 0 < s.prod) {old new : Array (Option α)}
    (hold : old.size < Word.card) (hnew : new.size < Word.card) {source target : Nat}
    (hsource : source + s.prod ≤ old.size) (htarget : target + t.prod ≤ new.size) :
    copyBelow old ((s.zip ((stridesOf s).zip (stridesOf t))).take (m + 1)) source target new =
      .ok ((runsBelow ((s.zip ((stridesOf s).zip (stridesOf t))).take (m + 1)) source target).foldl
        (fun block run => run.copy old block) new) := by
  induction hle generalizing m source target new with
  | nil => cases hm
  | @cons size size' s t hhead hle ih =>
    obtain ⟨_, hs, hs_le⟩ := prod_tail hpos
    obtain ⟨_, ht, ht_le⟩ := prod_tail (prod_pos_of_le (List.Forall₂.cons hhead hle) hpos)
    rw [strides_cons hs (by omega), strides_cons ht (by omega), List.zip_cons_cons,
      List.zip_cons_cons, List.take_succ_cons]
    rw [List.prod_cons] at hsource htarget
    cases m with
    | zero =>
      -- the last dimension that grows: a row of the old block is no longer than one of the new block
      cases (show s = t from htail)
      have hrow : size * s.prod ≤ size' * s.prod := Nat.mul_le_mul_right _ hhead
      have hlength : Word.mul size s.prod = size * s.prod := Nat.mod_eq_of_lt (by omega)
      rw [List.take_zero, copyBelow, times_eq (by omega), ok_bind, runsBelow, hlength,
        List.foldl_cons, List.foldl_nil]
      exact copyRun_eq hold hnew hsource (Nat.le_trans (Nat.add_le_add_left hrow _) htarget)
    | succ m =>
      have hm' : m < s.length := Nat.lt_of_succ_lt_succ hm
      have hdims : (s.zip ((stridesOf s).zip (stridesOf t))).take (m + 1) ≠ [] := by
        cases hle with
        | nil => cases hm'
        | cons => simp [stridesOf]
      rw [copyBelow_cons old _ _ _ hdims, runsBelow_cons _ _ _ hdims, List.foldl_flatMap]
      -- copying keeps the size of the new block
      refine foldlM_eq_ok (fun block => block.size = new.size) (fun i hi block hblock => ?_) rfl
      have hi := List.mem_range.mp hi
      obtain ⟨hrow, hadd, hbelow⟩ := rowStart_eq hi hsource hold
      obtain ⟨hrow', hadd', hbelow'⟩ := rowStart_eq (Nat.lt_of_lt_of_le hi hhead) htarget hnew
      rw [hrow, ok_bind, hrow', ok_bind, hadd, hadd']
      rw [← hblock] at hnew hbelow'
      exact ⟨ih hm' htail hs hnew hbelow hbelow', (SlotArray.size_foldl_copy _ _ _).trans hblock⟩

theorem relocate_eq {s t : List Nat} (hle : List.Forall₂ (· ≤ ·) s t) (hpos : 0 < s.prod)
    {old new : Array (Option α)} (hold : old.size = s.prod) (hnew : new.size = t.prod)
    (hs : s.prod < Word.card) (ht : t.prod < Word.card) :
    relocate old s t new =
      .ok ((runs s.prod ⟨s⟩ ⟨t⟩).foldl (fun block run => run.copy old block) new) := by
  have hlen := hle.length_eq
  have hold_word : old.size < Word.card := by omega
  have hnew_word : new.size < Word.card := by omega
  unfold relocate runs
  rw [rank]
  dsimp only
  cases hfind : (List.range s.length).reverse.find? fun i => s[i]? != t[i]? with
  | none =>
    cases eq_of_find?_none hlen hfind
    dsimp only
    rw [hold, List.foldl_cons, List.foldl_nil]
    refine copyRun_eq hold_word hnew_word ?_ ?_
    · rw [hold, Nat.zero_add]
    · rw [hnew, Nat.zero_add]
  | some last =>
    obtain ⟨hlt, htail⟩ := drop_eq_of_find?_some hlen hfind
    dsimp only
    rw [strides_eq hpos hs, ok_bind, strides_eq (prod_pos_of_le hle hpos) ht, ok_bind]
    refine copyBelow_eq hle hlt htail hpos hold_word hnew_word ?_ ?_
    · rw [hold, Nat.zero_add]
    · rw [hnew, Nat.zero_add]

end Checked

end Managed
