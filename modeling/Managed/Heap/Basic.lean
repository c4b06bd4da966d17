import Managed.Heap.Header
import Managed.Heap.Limits
import Managed.Heap.Ref

/-!
# The heap

Objects live in a table of slots. A freed slot goes on a stack of free slots and is used again
before the table grows. Old objects that hold young ones are kept in the remembered set, so that a
minor collection can start from them; the write barrier maintains that set.
-/

namespace Managed

inductive HeapError where
  | exhausted (limit : Nat)
  | stale (ref : Ref)
deriving DecidableEq, Repr

def HeapError.message : HeapError → String
  | exhausted limit => "heap exhausted: limit of " ++ toString limit ++ " live objects reached"
  | stale r => "stale object reference " ++ r.text

structure Entry (α : Type) where
  header : Header := {}
  value : α
deriving Repr

/-- An object in a slot, with the serial that handles to it carry. -/
structure Occupant (α : Type) where
  serial : UInt32
  entry : Entry α
deriving Repr

structure Slot (α : Type) where
  /-- The serial of the slot's next object: how often the slot has been freed, modulo `2 ^ 32`. -/
  serial : UInt32
  occupant : Option (Occupant α)
  /-- The serial moves on only when the object goes. -/
  agrees : ∀ o ∈ occupant, o.serial = serial
deriving Repr

namespace Slot

variable {α : Type}

/-- A slot without an object. -/
def vacant (serial : UInt32) : Slot α where
  serial
  occupant := none
  agrees := nofun

instance : Inhabited (Slot α) := ⟨vacant 0⟩

/-- Puts a new object in a slot. -/
def occupy (s : Slot α) (value : α) : Slot α where
  serial := s.serial
  occupant := some { serial := s.serial, entry := { value } }
  agrees _ ho := by cases ho; rfl

theorem agrees_map (s : Slot α) (f : Entry α → Entry α) :
    ∀ o ∈ s.occupant.map fun o => { o with entry := f o.entry }, o.serial = s.serial := by
  intro o ho
  obtain ⟨o', ho', rfl⟩ := Option.map_eq_some_iff.mp ho
  exact s.agrees o' ho'

/-- Changes the object of a slot, if there is one. -/
def map (f : Entry α → Entry α) (s : Slot α) : Slot α where
  serial := s.serial
  occupant := s.occupant.map fun o => { o with entry := f o.entry }
  agrees := s.agrees_map f

def entry (s : Slot α) : Option (Entry α) :=
  s.occupant.map Occupant.entry

/-- Whether a handle that carries this serial names the object of the slot. -/
def answers (s : Slot α) (serial : UInt32) : Bool :=
  s.occupant.any (·.serial == serial)

/-- The entry of a slot, for a handle that carries this serial. -/
def entryFor? (s : Slot α) (serial : UInt32) : Option (Entry α) :=
  if s.answers serial then s.entry else none

/-- Changes the entry of a slot, for a handle that carries this serial. -/
def modifyFor (s : Slot α) (serial : UInt32) (f : Entry α → Entry α) : Slot α :=
  if s.answers serial then s.map f else s

/-! A slot is told by its own serial and its entry: the serial of its object is the same. -/

theorem ext_entry {s t : Slot α} (hserial : s.serial = t.serial) (hentry : s.entry = t.entry) :
    s = t := by
  obtain ⟨u, o, ho⟩ := s
  obtain ⟨v, p, hp⟩ := t
  obtain rfl : u = v := hserial
  suffices h : o = p by
    cases h
    rfl
  cases o with
  | none =>
    cases p with
    | none => rfl
    | some p => cases hentry
  | some o =>
    cases p with
    | none => cases hentry
    | some p =>
      obtain ⟨w, e⟩ := o
      obtain ⟨w', e'⟩ := p
      obtain rfl : w = u := ho _ rfl
      obtain rfl : w' = w := hp _ rfl
      cases Option.some.inj hentry
      rfl

@[simp]
theorem entry_map (f : Entry α → Entry α) (s : Slot α) : (s.map f).entry = s.entry.map f := by
  simp only [entry, map, Option.map_map]
  rfl

@[simp]
theorem entry_occupy (s : Slot α) (value : α) : (s.occupy value).entry = some { value } := rfl

@[simp]
theorem serial_occupy (s : Slot α) (value : α) : (s.occupy value).serial = s.serial := rfl

@[simp]
theorem entry_vacant (serial : UInt32) : (vacant serial : Slot α).entry = none := rfl

@[simp]
theorem serial_map (f : Entry α → Entry α) (s : Slot α) : (s.map f).serial = s.serial := rfl

theorem answers_eq (s : Slot α) (serial : UInt32) :
    s.answers serial = (s.entry.isSome && s.serial == serial) := by
  obtain ⟨u, o, ho⟩ := s
  cases o with
  | none => rfl
  | some o =>
    obtain rfl : o.serial = u := ho o rfl
    rfl

theorem entryFor?_eq (s : Slot α) (serial : UInt32) :
    s.entryFor? serial = if s.serial = serial then s.entry else none := by
  rw [entryFor?, answers_eq]
  cases s.entry <;> simp

theorem modifyFor_eq (s : Slot α) (serial : UInt32) (f : Entry α → Entry α) :
    s.modifyFor serial f = if s.serial = serial then s.map f else s := by
  rw [modifyFor, answers_eq]
  cases he : s.entry with
  | none =>
    have hmap : s.map f = s := ext_entry rfl (by rw [entry_map, he]; rfl)
    simp [hmap]
  | some e => simp

/-- The handle of the object in a slot carries the slot's serial. -/
theorem occupant_map_serial {β : Type} (s : Slot α) (f : UInt32 → β) :
    (s.occupant.map fun o => f o.serial) = s.entry.map fun _ => f s.serial := by
  obtain ⟨u, o, ho⟩ := s
  cases o with
  | none => rfl
  | some o =>
    obtain rfl : o.serial = u := ho o rfl
    rfl

end Slot

/-- The old objects recorded since the set was last taken, and the number of records ever made. -/
structure RememberedSet where
  refs : Array Ref := #[]
  recorded : Nat := 0
deriving Repr, Inhabited

namespace RememberedSet

def record (s : RememberedSet) (owner : Ref) : RememberedSet :=
  { refs := s.refs.push owner, recorded := s.recorded + 1 }

/-- What is left after the recorded objects have been taken. -/
def taken (s : RememberedSet) : RememberedSet :=
  { s with refs := #[] }

end RememberedSet

/-- What a heap's collections have done so far. -/
structure Tally where
  minor : Nat := 0
  major : Nat := 0
  freed : Nat := 0
  promoted : Nat := 0
deriving DecidableEq, Repr, Inhabited

structure Heap (α : Type) where
  limits : HeapLimits := {}
  slots : Array (Slot α) := #[]
  /-- Indexes of the empty slots, the next one to be used first. -/
  free : List Nat := []
  live : Nat := 0
  /-- Allocations since the last collection. -/
  allocated : Nat := 0
  tally : Tally := {}
  remembered : RememberedSet := {}
deriving Repr, Inhabited

namespace Heap

variable {α : Type}

/-! ## Resolving handles -/

def resolve? (h : Heap α) (r : Ref) : Option (Entry α) :=
  h.slots[r.index]?.bind (·.entryFor? r.serial)

def get? (h : Heap α) (r : Ref) : Option α :=
  (h.resolve? r).map Entry.value

def contains (h : Heap α) (r : Ref) : Bool :=
  (h.resolve? r).isSome

def get (h : Heap α) (r : Ref) : Except HeapError α :=
  match h.resolve? r with
  | some e => .ok e.value
  | none => .error (.stale r)

def generation (h : Heap α) (r : Ref) : Except HeapError Generation :=
  match h.resolve? r with
  | some e => .ok e.header.generation
  | none => .error (.stale r)

def isEmpty (h : Heap α) : Bool :=
  h.live == 0

/-- The handles of all live objects, in the order of their slots. -/
def liveRefs (h : Heap α) : List Ref :=
  h.slots.toList.zipIdx.filterMap fun (s, i) => s.occupant.map fun o => ⟨i, o.serial⟩

/-! ## Allocation and change -/

/-- The most slots a table can have: indexes are 32-bit words. -/
def maxSlots : Nat := Nat.pow 2 32

/-- Puts a value in the empty slot `i`, as an object of the nursery. -/
def place (h : Heap α) (i : Nat) (value : α) : Ref × Heap α :=
  let serial := (h.slots[i]?.map Slot.serial).getD 0
  (⟨i, serial⟩,
    { h with
      slots := h.slots.modify i (·.occupy value)
      live := h.live + 1
      allocated := h.allocated + 1 })

def alloc (h : Heap α) (value : α) : Except HeapError (Ref × Heap α) :=
  if h.limits.maxObjects ≤ h.live then
    .error (.exhausted h.limits.maxObjects)
  else
    match h.free with
    | i :: rest => .ok (place { h with free := rest } i value)
    | [] =>
      if h.slots.size < maxSlots then
        .ok (place { h with slots := h.slots.push (.vacant 0) } h.slots.size value)
      else
        .error (.exhausted h.limits.maxObjects)

/-- Changes the entry that `r` names, if there is one. -/
def modifyEntry (h : Heap α) (r : Ref) (f : Entry α → Entry α) : Heap α :=
  { h with
    slots := h.slots.modify r.index (·.modifyFor r.serial f) }

def modifyHeader (h : Heap α) (r : Ref) (f : Header → Header) : Heap α :=
  h.modifyEntry r fun e => { e with header := f e.header }

/-- Stores a new value in an object. A handle stored this way needs a `writeBarrier` afterwards. -/
def set (h : Heap α) (r : Ref) (value : α) : Except HeapError (Heap α) :=
  if h.contains r then .ok (h.modifyEntry r fun e => { e with value }) else .error (.stale r)

/-! ## The write barrier -/

/-- Whether `r` names a live object that is not old yet. -/
def isYoung (h : Heap α) (r : Ref) : Bool :=
  (h.resolve? r).any (·.header.generation.isYoung)

/-- Whether a store into `owner` has to go through the write barrier. -/
def needsBarrier (h : Heap α) (owner : Ref) : Bool :=
  (h.resolve? owner).any (·.header.generation == .old)

/-- Puts a live object in the remembered set unless it is there already. -/
def remember (h : Heap α) (owner : Ref) : Heap α :=
  if (h.resolve? owner).any (!·.header.remembered) then
    { h.modifyHeader owner Header.remember with remembered := h.remembered.record owner }
  else h

/-- Called after a handle `value` has been stored in the object `owner`: an old object that gains a
young one is remembered. -/
def writeBarrier (h : Heap α) (owner value : Ref) : Heap α :=
  if h.needsBarrier owner && h.isYoung value then h.remember owner else h

variable [Traced α]

/-- The handles held by the object that `r` names; none if `r` is stale. -/
def children (h : Heap α) (r : Ref) : List Ref :=
  ((h.get? r).map Traced.refs).getD []

/-- Remembers `owner` if it is old and holds a young object. -/
def rememberHolder (h : Heap α) (owner : Ref) : Heap α :=
  if h.needsBarrier owner && (h.children owner).any h.isYoung then h.remember owner else h

/-- Makes a young object old at once. -/
def tenure (h : Heap α) (r : Ref) : Except HeapError (Heap α) :=
  match h.resolve? r with
  | none => .error (.stale r)
  | some e =>
    if e.header.generation = .old then .ok h
    else
      let h := h.modifyHeader r (·.enter .old)
      .ok ({ h with tally.promoted := h.tally.promoted + 1 }.rememberHolder r)

/-- Whether enough has been allocated since the last collection for a minor one to be due. -/
def collectionDue (h : Heap α) : Bool :=
  h.limits.nurseryBudget ≤ h.allocated

end Heap

end Managed
